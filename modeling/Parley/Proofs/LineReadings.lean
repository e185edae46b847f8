import Parley.Parser.Script
import Parley.Proofs.Grammar

/-! # Readings stay on the line

Texts, expressions and tags are read from the tokens of one line: what a reading takes holds no token that lays out the
text, and its errors do not tell of blocks (`OnLine`). -/

namespace Parley

/-- The error says that a block does not end where it should: it is missing its end, or it ends where none is open. -/
def ParseError.Unbalanced (e : ParseError) : Prop :=
  ∃ line column, (∃ found, e = .unexpected line column "end of indented block" found) ∨
    e = .unexpected line column "content" "DEDENT"

theorem ParseError.not_unbalanced_unexpected {line column : Int} {expected found : String}
    (h : expected ≠ "end of indented block") (h' : expected ≠ "content") :
    ¬ (ParseError.unexpected line column expected found).Unbalanced := by
  rintro ⟨line', column', ⟨found', heq⟩ | heq⟩ <;> cases heq
  · exact h rfl
  · exact h' rfl

theorem ParseError.not_unbalanced_numeral (text : String) : ¬ (ParseError.numeral text).Unbalanced := by
  rintro ⟨line, column, ⟨found, heq⟩ | heq⟩ <;> cases heq

theorem ParseError.not_unbalanced_unfinished : ¬ ParseError.unfinished.Unbalanced := by
  rintro ⟨line, column, ⟨found, heq⟩ | heq⟩ <;> cases heq

namespace Reading

/-- What is taken is of the line, and what fails does not tell of blocks. -/
structure OnLine {α : Type} (ts : List Token) (x : Except ParseError (α × List Token)) : Prop where
  taken : ∀ a rest, x = .ok (a, rest) → ∃ used, ts = used ++ rest ∧ ∀ t ∈ used, t.kind.isLayout = false
  failed : ∀ e, x = .error e → ¬ e.Unbalanced

section
variable {α β : Type} {ts : List Token} {x y : Except ParseError (α × List Token)}

theorem eq_cons_of_not_layout (h : (peek ts).kind.isLayout = false) : ts = peek ts :: skip ts :=
  eq_cons_of_kind rfl fun heof => by
    rw [heof] at h
    cases h

namespace OnLine

theorem ok {a : α} : OnLine ts (.ok (a, ts)) :=
  ⟨fun _ _ h => ⟨[], (by cases h; rfl), by simp⟩, fun _ h => (by cases h)⟩

theorem error {e : ParseError} (he : ¬ e.Unbalanced) : OnLine ts (.error e : Except ParseError (α × List Token)) :=
  ⟨fun _ _ h => (by cases h), fun _ h => (by cases h; exact he)⟩

theorem unfinished : OnLine ts (.error .unfinished : Except ParseError (α × List Token)) :=
  error ParseError.not_unbalanced_unfinished

theorem unexpected {expected : String} (h : expected ≠ "end of indented block") (h' : expected ≠ "content") :
    OnLine ts (.error (Reading.unexpected ts expected) : Except ParseError (α × List Token)) :=
  error (ParseError.not_unbalanced_unexpected h h')

theorem skip (hline : (peek ts).kind.isLayout = false) (h : OnLine (skip ts) x) : OnLine ts x := by
  have hcons := eq_cons_of_not_layout hline
  refine ⟨fun a rest hx => ?_, h.failed⟩
  obtain ⟨used, hused, hplain⟩ := h.taken a rest hx
  refine ⟨peek ts :: used, by rw [List.cons_append, ← hused]; exact hcons, ?_⟩
  simpa [or_imp, forall_and] using ⟨hline, hplain⟩

theorem bind {k : α × List Token → Except ParseError (β × List Token)} (hx : OnLine ts x)
    (hk : ∀ a rest, OnLine rest (k (a, rest))) : OnLine ts (x >>= k) := by
  cases x with
  | error e => exact error (hx.failed e rfl)
  | ok made =>
    obtain ⟨a, rest⟩ := made
    obtain ⟨used, rfl, hplain⟩ := hx.taken a rest rfl
    refine ⟨fun b after hb => ?_, (hk a rest).failed⟩
    obtain ⟨more, rfl, hmore⟩ := (hk a rest).taken b after hb
    exact ⟨used ++ more, by rw [List.append_assoc], by simpa [or_imp, forall_and] using ⟨hplain, hmore⟩⟩

theorem ite {c : Prop} [Decidable c] (hx : c → OnLine ts x) (hy : ¬ c → OnLine ts y) :
    OnLine ts (if c then x else y) := by
  split
  · exact hx ‹_›
  · exact hy ‹_›

end OnLine

theorem onLine_consume {kind : TokenKind} {expected : String} (hkind : kind.isLayout = false)
    (h : expected ≠ "end of indented block") (h' : expected ≠ "content") : OnLine ts (consume kind expected ts) := by
  unfold consume
  refine .ite (fun hsees => ?_) fun _ => .unexpected h h'
  have hpeek : (peek ts).kind = kind := by simpa [sees] using hsees
  exact .skip (hpeek ▸ hkind) .ok

/-- A string that holds no text of its own is refused for its holes. -/
theorem not_unbalanced_stringLiteral {t : Token} {e : ParseError} (h : stringLiteral t = .error e) : ¬ e.Unbalanced := by
  unfold stringLiteral at h
  dsimp only at h
  repeat' split at h
  all_goals cases h
  all_goals exact ParseError.not_unbalanced_unexpected (by decide) (by decide)

/-- With this many calls the readings of expressions stay on the line. -/
structure Inline (fuel : Nat) : Prop where
  tiers {tiers : List (List TokenKind)} {ts : List Token} : (∀ tier ∈ tiers, ∀ kind ∈ tier, kind.isLayout = false) →
    OnLine ts (tiersIn fuel tiers ts)
  operators {tier : List TokenKind} {tighter : List (List TokenKind)} {left : Expr} {ts : List Token} :
    (∀ tier' ∈ tier :: tighter, ∀ kind ∈ tier', kind.isLayout = false) → OnLine ts (operatorsIn fuel tier tighter left ts)
  unary {ts : List Token} : OnLine ts (unaryIn fuel ts)
  primary {ts : List Token} : OnLine ts (primaryIn fuel ts)
  arguments {ts : List Token} : OnLine ts (argumentsIn fuel ts)
  list {ts : List Token} : OnLine ts (argumentListIn fuel ts)

namespace Inline
variable {fuel : Nat}

theorem isLayout_tiers : ∀ tier ∈ Reading.tiers, ∀ kind ∈ tier, kind.isLayout = false := by
  unfold Reading.tiers
  decide

theorem tiers_succ (h : Inline fuel) {tiers : List (List TokenKind)}
    (hops : ∀ tier ∈ tiers, ∀ kind ∈ tier, kind.isLayout = false) : OnLine ts (tiersIn (fuel + 1) tiers ts) := by
  cases tiers with
  | nil => exact h.unary
  | cons tier tighter =>
    exact .bind (h.tiers fun t ht => hops t (List.mem_cons_of_mem tier ht)) fun left rest => h.operators hops

theorem operators_succ (h : Inline fuel) {tier : List TokenKind} {tighter : List (List TokenKind)} {left : Expr}
    (hops : ∀ tier' ∈ tier :: tighter, ∀ kind ∈ tier', kind.isLayout = false) :
    OnLine ts (operatorsIn (fuel + 1) tier tighter left ts) := by
  unfold operatorsIn
  refine .ite (fun hop => .skip (hops tier (by simp) _ (by simpa using hop)) ?_) fun _ => .ok
  exact .bind (h.tiers fun t ht => hops t (List.mem_cons_of_mem tier ht)) fun right rest => h.operators hops

theorem unary_succ (h : Inline fuel) : OnLine ts (unaryIn (fuel + 1) ts) := by
  have hsigns : ∀ kind ∈ unaryKinds, kind.isLayout = false := by decide
  unfold unaryIn
  exact .ite (fun hop => .skip (hsigns _ (by simpa using hop)) (.bind h.unary fun e rest => .ok)) fun _ => h.primary

theorem primary_succ (h : Inline fuel) : OnLine ts (primaryIn (fuel + 1) ts) := by
  unfold primaryIn
  dsimp only
  split
  · next hkind =>
    split
    · exact .skip (by rw [hkind]; rfl) .ok
    · exact .error (ParseError.not_unbalanced_numeral _)
  · next hkind =>
    refine .skip (by rw [hkind]; rfl) ?_
    cases hmade : stringLiteral (peek ts) with
    | error e => exact .error (not_unbalanced_stringLiteral hmade)
    | ok e => exact .ok
  · next hkind => exact .skip (by rw [hkind]; rfl) .ok
  · next hkind => exact .skip (by rw [hkind]; rfl) .ok
  · next hkind => exact .skip (by rw [hkind]; rfl) .ok
  · next hkind =>
    refine .skip (by rw [hkind]; rfl) (.ite (fun hsees => ?_) fun _ => .ok)
    have hopening : (peek (Reading.skip ts)).kind = .leftParen := by simpa [sees] using hsees
    exact .skip (by rw [hopening]; rfl) (.bind h.arguments fun args rest => .ok)
  · next hkind =>
    refine .skip (by rw [hkind]; rfl) (.bind (h.tiers isLayout_tiers) fun e rest => ?_)
    exact .bind (onLine_consume rfl (by decide) (by decide)) fun _ _ => .ok
  · exact .unexpected (by decide) (by decide)

theorem arguments_succ (h : Inline fuel) : OnLine ts (argumentsIn (fuel + 1) ts) := by
  unfold argumentsIn
  refine .ite (fun hsees => ?_) fun _ => h.list
  have hclosing : (peek ts).kind = .rightParen := by simpa [sees] using hsees
  exact .skip (by rw [hclosing]; rfl) .ok

theorem list_succ (h : Inline fuel) : OnLine ts (argumentListIn (fuel + 1) ts) := by
  unfold argumentListIn
  refine .bind (h.tiers isLayout_tiers) fun arg rest => .ite (fun hsees => ?_) fun _ => ?_
  · have hcomma : (peek rest).kind = .comma := by simpa [sees] using hsees
    exact .skip (by rw [hcomma]; rfl) (.bind h.list fun args rest => .ok)
  · exact .bind (onLine_consume rfl (by decide) (by decide)) fun _ _ => .ok

end Inline

theorem inline (fuel : Nat) : Inline fuel := by
  induction fuel with
  | zero => exact ⟨fun _ => .unfinished, fun _ => .unfinished, .unfinished, .unfinished, .unfinished, .unfinished⟩
  | succ fuel ih =>
    exact ⟨ih.tiers_succ, ih.operators_succ, ih.unary_succ, ih.primary_succ, ih.arguments_succ, ih.list_succ⟩

theorem onLine_expression : OnLine ts (expression ts) := (inline _).tiers Inline.isLayout_tiers

theorem onLine_arguments : OnLine ts (arguments ts) := (inline _).arguments

theorem onLine_textIn (fuel : Nat) : OnLine ts (textIn fuel ts) := by
  induction fuel generalizing ts with
  | zero => exact .unfinished
  | succ fuel ih =>
    unfold textIn
    dsimp only
    split
    · next hkind => exact .skip (by rw [hkind]; rfl) (.bind ih fun segments rest => .ok)
    · next hkind =>
      refine .skip (by rw [hkind]; rfl) (.bind onLine_expression fun e rest => ?_)
      exact .bind (onLine_consume rfl (by decide) (by decide)) fun _ rest => .bind ih fun segments rest => .ok
    · exact .ok

theorem onLine_text : OnLine ts (text ts) := onLine_textIn _

theorem onLine_tags : OnLine ts (.ok (tags ts)) := by
  unfold tags
  split
  · refine ⟨fun a rest h => ?_, fun _ h => (by cases h)⟩
    cases h
    refine ⟨ts.takeWhile isTagPart, List.takeWhile_append_dropWhile.symm, fun t ht => ?_⟩
    have hpart := List.mem_takeWhile_imp ht
    simp only [isTagPart, Bool.or_eq_true, beq_iff_eq] at hpart
    rcases hpart with ((hk | hk) | hk) | hk <;> rw [hk] <;> rfl
  · exact .ok

end
end Reading
end Parley
