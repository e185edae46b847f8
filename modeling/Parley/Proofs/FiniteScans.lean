import Mathlib.Logic.Function.Iterate
import Mathlib.Logic.Relation
import Parley.Proofs.Drawing

/-! # The lexer comes to an end

A call of `next` makes one pass after the other until a pass yields a token. A pass that yields none has left the start
of a line or taken a character (`GoesRound.progress`), so no pass of a call starts where an earlier one did. From call
to call it is `budget` that falls: two for each character pay for every token, also for those that stand for no
character, and what is left pays for the call that tells the end. -/

namespace Parley
namespace Lexer

/-- A pass that yields no token, so that another one is made in the same call. -/
def GoesRound (s s' : Lexer) : Prop := s.pending = [] ∧ s.pass = (.again, s')

/-- What the next call answers after so many calls. -/
def answer (s : Lexer) (count : Nat) : Except LexError Token := (s.draw count).lexer.next.1

/-- The answer is the end of the text, or an error. -/
def IsLast : Except LexError Token → Prop
  | .ok t => t.isEof = true
  | .error _ => True

section Passes
variable {s s' : Lexer}

theorem GoesRound.next (h : s.GoesRound s') : s.next = s'.next := by
  rw [next_eq, h.1, h.2]

theorem GoesRound.weight_lt (h : s.GoesRound s') : s'.weight < s.weight := weight_pass h.2

theorem GoesRound.progress (h : s.GoesRound s') :
    s.mode = .lineStart ∧ s'.mode ≠ .lineStart ∨ s'.rest.length < s.rest.length := by
  have hlt := h.weight_lt
  unfold weight at hlt
  by_cases hleft : s.mode = .lineStart ∧ s'.mode ≠ .lineStart
  · exact .inl hleft
  · refine .inr ?_
    split at hlt <;> split at hlt <;> first | omega | exact absurd ⟨‹_›, ‹_›⟩ hleft

/-- Along the passes of a call the weight falls and falls. -/
theorem weight_lt_of_transGen (h : Relation.TransGen GoesRound s s') : s'.weight < s.weight := by
  induction h with
  | single h => exact h.weight_lt
  | tail _ h ih => exact h.weight_lt.trans ih

end Passes

section Calls
variable {s s' : Lexer} {t : Token} {new : List Token}

theorem lexer_draw (s : Lexer) (count : Nat) : (s.draw count).lexer = (fun s : Lexer => s.next.2)^[count] s := by
  induction count with
  | zero => rfl
  | succ count ih => rw [Function.iterate_succ_apply', ← ih]; rfl

theorem answer_add (s : Lexer) (count more : Nat) : s.answer (count + more) = (s.draw count).lexer.answer more := by
  unfold answer
  rw [lexer_draw, lexer_draw, lexer_draw, Nat.add_comm, Function.iterate_add_apply]

theorem answer_succ (s : Lexer) (count : Nat) : s.answer (count + 1) = s.next.2.answer count := by
  rw [Nat.add_comm]
  exact answer_add s 1 count

/-- Each call that ends nothing leaves less to be answered. -/
theorem exists_isLast {s : Lexer} (hs : Unended s) : ∃ count ≤ s.budget, IsLast (s.answer count) := by
  cases hnext : s.next with
  | mk result s' =>
    cases result with
    | error e => exact ⟨0, Nat.zero_le _, by rw [answer, draw, hnext]; trivial⟩
    | ok t =>
      have hstep := lexes_of_next hs hnext
      split at hstep
      · next ht => exact ⟨0, Nat.zero_le _, by rw [answer, draw, hnext]; exact ht⟩
      · obtain ⟨hs', hbudget, -⟩ := hstep
        obtain ⟨count, hcount, hends⟩ := exists_isLast hs'
        exact ⟨count + 1, by omega, by rwa [answer_succ, hnext]⟩
termination_by s.budget

/-- The end of the text is not among what a move queues. -/
theorem Unended.move (hs : Unended s) (h : Move s new s') : Unended s' := by
  cases h with
  | pop hpending => exact fun t ht => hs t (by rw [hpending]; exact List.mem_cons_of_mem _ ht)
  | @start e _ hpending _ hstart =>
    have hqueued : ∀ kind ∈ queuedKinds, kind ≠ .eof := by decide
    obtain ⟨ts, hts, hkinds⟩ : ∃ ts, s'.pending = s.pending ++ ts ∧ ∀ t ∈ ts, t.kind ∈ queuedKinds := by
      cases e with
      | none => exact (opening_of_startLine hstart).pending
      | some e =>
        cases started_of_startLine hstart with
        | refused _ _ hindent =>
          obtain ⟨-, -, -, ds, hds, hkinds, -⟩ := indentTo_spec hindent
          exact ⟨ds, hds, fun t ht => by rcases hkinds t ht with hk | hk <;> simp [queuedKinds, hk]⟩
    intro t ht
    rw [hts, hpending, List.nil_append] at ht
    simpa [Token.isEof] using hqueued _ (hkinds t ht)
  | pass _ _ h => exact fun t ht => hs t (h.pending ▸ ht)
  | token _ _ _ h => exact fun t ht => hs t (h.pending ▸ ht)
  | last => exact hs

/-- Whatever the calls have answered, errors included. -/
theorem Unended.draw (hs : Unended s) (count : Nat) : Unended (s.draw count).lexer :=
  draw_invariant (I := fun _ => Unended) Unended.move hs count

/-- Where the end of the text has been told, the lexer stays and tells it again. -/
theorem next_of_isEof {s s' : Lexer} (hs : Unended s) (h : s.next = (.ok t, s')) (ht : t.isEof = true) :
    s'.next = (.ok t, s') := by
  have hnext := h
  rw [next_eq] at h
  split at h
  · next hpending =>
    cases h
    rw [hs t (by simp [hpending])] at ht
    cases ht
  · next hpending =>
    split at h
    · next hpass =>
      cases h
      obtain ⟨-, -, rfl⟩ := done_of_pass hpass ht
      exact hnext
    · cases h
    · next m hpass =>
      have hweight := weight_pass hpass
      exact next_of_isEof (unended_pass_again hs hpass) h ht
termination_by s.weight

theorem answer_of_isEof (hs : Unended s) {count : Nat} (h : s.answer count = .ok t) (ht : t.isEof = true) (more : Nat) :
    s.answer (count + more) = .ok t := by
  rw [answer_add]
  generalize hm : (s.draw count).lexer = m at *
  have hm' : Unended m := hm ▸ hs.draw count
  cases more with
  | zero => rwa [answer, hm] at h
  | succ more =>
    have hnext : m.next = (.ok t, m.next.2) := Prod.ext (by rwa [answer, hm] at h) rfl
    have hstay := next_of_isEof hm' hnext ht
    rw [answer_succ, answer, lexer_draw, Function.iterate_fixed (congrArg Prod.snd hstay), hstay]

end Calls

/-- However a text of `n` characters is made, one of the first `2 * n + 1` calls tells the end of the text or raises an
error. No pass of a call starts where an earlier one of it did, for a pass that yields no token queues one, leaves the
start of a line or takes a character. And once the end has been told, also after errors, every later call tells the same
end. -/
theorem scan_finishes (source : String) :
    (∃ count ≤ 2 * source.length, IsLast ((ofText source).answer count)) ∧
    (∀ s s' : Lexer, s.GoesRound s' →
      s'.pending ≠ [] ∨ s.mode = .lineStart ∧ s'.mode ≠ .lineStart ∨ s'.rest.length < s.rest.length) ∧
    (∀ s s' : Lexer, Relation.TransGen GoesRound s s' → s ≠ s') ∧
    ∀ count t, (ofText source).answer count = .ok t → t.isEof = true →
      ∀ later ≥ count, (ofText source).answer later = .ok t := by
  have hunended : (ofText source).Unended := nofun
  refine ⟨?_, fun s s' h => .inr h.progress, ?_, ?_⟩
  · have hbudget : (ofText source).budget = 2 * source.length := by
      simp [budget, ofText, Mode.inLine, String.length_toList]
    exact hbudget ▸ exists_isLast hunended
  · rintro s _ h rfl
    exact lt_irrefl _ (weight_lt_of_transGen h)
  · intro count t h ht later hlater
    obtain ⟨more, rfl⟩ := Nat.exists_eq_add_of_le hlater
    exact answer_of_isEof hunended h ht more

/-- A text that takes all its calls: a block is opened and closed for one blank, and a character has a token and the end
of its line. -/
theorem scan_finishes_indented :
    ((ofText " a").answer 0).map Token.kind = .ok .indent ∧ ((ofText " a").answer 4).map Token.kind = .ok .eof ∧
    (∃ count ≤ 4, IsLast ((ofText " a").answer count)) ∧
    (ofText " a").GoesRound (ofText " a").pass.2 ∧ (ofText " a").pass.2.mode ≠ .lineStart ∧
    ofText " a" ≠ (ofText " a").pass.2 ∧
    (ofText " a").answer 9 = .ok ⟨.eof, "", 1, 3⟩ := by
  obtain ⟨hends, hprogress, hdistinct, hstays⟩ := scan_finishes " a"
  have hround : (ofText " a").GoesRound (ofText " a").pass.2 := ⟨rfl, rfl⟩
  have hend : (ofText " a").answer 4 = .ok ⟨.eof, "", 1, 3⟩ := by rfl
  refine ⟨rfl, rfl, hends, hround, ?_, hdistinct _ _ (.single hround), hstays 4 _ hend rfl 9 (by decide)⟩
  decide

end Lexer
end Parley
