import Parley.Proofs.Emission

/-! # Drawing tokens from a lexer

`Lexer.draw` calls `next` a number of times on one lexer. A call that fails returns nothing, and the lexer is used on
as the failure left it. Every call is a chain of moves (`Move`): a queued token is handed out, a line is started, with
or without success, or a pass is made inside a line. So what one move preserves holds of the tokens returned and of the
lexer after any number of calls (`draw_invariant`). -/

namespace Parley
namespace Lexer

/-- What some calls of `next` have come to: the tokens they returned, and the lexer as the last of them left it. -/
structure Drawn where
  tokens : List Token
  lexer : Lexer

/-- Calls `next` so many times. -/
def draw : Nat → Lexer → Drawn
  | 0, s => ⟨[], s⟩
  | count + 1, s =>
    let before := s.draw count
    ⟨before.tokens ++ before.lexer.next.1.toOption.toList, before.lexer.next.2⟩

/-- One move of a lexer, the tokens that it returns, and the lexer after it. -/
inductive Move (s : Lexer) : List Token → Lexer → Prop
  /-- A queued token is handed out. -/
  | pop {t : Token} {ts : List Token} (hpending : s.pending = t :: ts) : Move s [t] { s with pending := ts }
  /-- A line is started, or its indentation is refused. -/
  | start {e : Option LexError} {s' : Lexer} (hpending : s.pending = []) (hmode : s.mode = .lineStart)
      (hstart : s.startLine = (e, s')) : Move s [] s'
  /-- A stretch of the line is passed over: white space, or code that is refused. -/
  | pass {p : List Char} {s' : Lexer} (hpending : s.pending = []) (hmode : s.mode.inLine = true) (h : Along p s s')
      (hmode' : s'.mode = s.mode) (hnone : ∀ t, s.pass.1 ≠ .token t) : Move s [] s'
  /-- A token of the line, or the one that ends it. -/
  | token {t : Token} {s' : Lexer} (hpending : s.pending = []) (hmode : s.mode.inLine = true)
      (hpass : s.pass = (.token t, s')) (h : InLine s t s') : Move s [t] s'
  /-- The end of the text is told again and again. -/
  | last (hpending : s.pending = []) (hmode : s.mode = .done) : Move s [s.tokenHere .eof ""] s

section Failures
variable {s s' : Lexer} {e : LexError}

/-- Code that is refused stays on the line, and so does the lexer. -/
theorem along_of_scanCode_error (h : s.scanCode = (.error e, s')) : ∃ p, Along p s s' ∧ s'.mode = s.mode := by
  have hblanks := Along.skipBlanks s
  have hfits := fits_codeHead s.skipBlanks.rest
  rw [scanCode_eq] at h
  cases hhead : codeHead s.skipBlanks.rest with
  | ending | comment | token =>
    rw [hhead] at h
    cases h
  | refused cause text =>
    rw [hhead] at h hfits
    cases h
    exact ⟨_, hblanks.trans (.stretch hfits.1 hfits.2), rfl⟩

theorem pass_failed (h : s.pass = (.failed e, s')) :
    s.mode = .lineStart ∧ s.startLine = (some e, s') ∨
      s.mode.inLine = true ∧ ∃ p, Along p s s' ∧ s'.mode = s.mode := by
  cases ran_of_pass h with
  | refused hmode hscan => exact .inl ⟨hmode, hscan⟩
  | broken hmode hscan => exact .inr ⟨by rcases hmode with h | h <;> rw [h] <;> rfl, along_of_scanCode_error hscan⟩

end Failures

section Moves
variable {s s' : Lexer} {t : Token}

/-- With nothing queued every pass is a move, whatever comes of it. -/
theorem move_of_pass_again (hpending : s.pending = []) (h : s.pass = (.again, s')) : Move s [] s' := by
  cases ran_of_pass h with
  | opened hmode hscan => exact .start hpending hmode hscan
  | dropped hmode hscan =>
    rcases inLine_scanText hmode hscan with ⟨t, ht, -⟩ | ⟨-, p, -, hp, hmode'⟩
    · cases ht
    · exact .pass hpending (by rw [hmode]; rfl) hp (hmode'.trans hmode.symm) (by simp [h])

theorem move_of_pass_failed {e : LexError} (hpending : s.pending = []) (h : s.pass = (.failed e, s')) :
    Move s [] s' := by
  rcases pass_failed h with ⟨hmode, hs⟩ | ⟨hmode, p, hp, hmode'⟩
  · exact .start hpending hmode hs
  · exact .pass hpending hmode hp hmode' (by simp [h])

theorem move_of_pass_token (hpending : s.pending = []) (h : s.pass = (.token t, s')) : Move s [t] s' := by
  rcases pass_token h with ⟨hmode, hline⟩ | ⟨hmode, rfl, rfl⟩
  · exact .token hpending hmode h hline
  · exact .last hpending hmode

variable {I : List Token → Lexer → Prop}
  (hmove : ∀ {out : List Token} {s : Lexer} {new : List Token} {s' : Lexer}, I out s → Move s new s' → I (out ++ new) s')
include hmove

/-- A call is a chain of moves that returns one token at most. -/
theorem next_invariant {out : List Token} {s : Lexer} (h : I out s) :
    I (out ++ s.next.1.toOption.toList) s.next.2 := by
  rw [next_eq]
  cases hpending : s.pending with
  | cons t ts => exact hmove h (.pop hpending)
  | nil =>
    dsimp only
    cases hpass : s.pass with
    | mk result s' =>
      cases result with
      | token t => exact hmove h (move_of_pass_token hpending hpass)
      | failed e => exact hmove h (move_of_pass_failed hpending hpass)
      | again =>
        have hlt := weight_pass hpass
        have hnext := hmove h (move_of_pass_again hpending hpass)
        rw [List.append_nil] at hnext
        exact next_invariant hnext
termination_by s.weight

/-- What every move preserves holds after any number of calls. -/
theorem draw_invariant {s : Lexer} (h : I [] s) (count : Nat) : I (s.draw count).tokens (s.draw count).lexer := by
  induction count with
  | zero => exact h
  | succ count ih => exact next_invariant hmove ih

/-- And it holds where all tokens of a text have been yielded without a failure. -/
theorem emits_invariant {out ts : List Token} {s : Lexer} (h : I out s) (hemits : Emits s ts) :
    ∃ s', I (out ++ ts) s' := by
  induction hemits generalizing out with
  | queued hpending _ _ ih => simpa using ih (hmove h (.pop hpending))
  | again hpending hpass _ ih =>
    have := hmove h (move_of_pass_again hpending hpass)
    rw [List.append_nil] at this
    exact ih this
  | token hpending hpass _ _ ih => simpa using ih (hmove h (move_of_pass_token hpending hpass))
  | last hpending hpass _ => exact ⟨_, hmove h (move_of_pass_token hpending hpass)⟩

end Moves
end Lexer
end Parley
