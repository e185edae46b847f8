import Parley.Lexer.Line
import Parley.Lexer.Scan

/-! # The lexer

`Lexer.next` passes over the text until a pass yields a token. A pass that yields none leaves the
start of a line or takes a character, so `weight` falls and the search ends (`next_eq`). -/

namespace Parley
namespace Lexer

inductive Pass where
  | token (t : Token)
  | again
  | failed (e : LexError)

/-- One pass of the scanner that the mode names; queued tokens are not looked at. -/
def pass (s : Lexer) : Pass × Lexer :=
  match s.mode with
  | .lineStart =>
    match s.startLine with
    | (none, s) => (.again, s)
    | (some e, s) => (.failed e, s)
  | .code | .interpolation =>
    match s.scanCode with
    | (.ok t, s) => (.token t, s)
    | (.error e, s) => (.failed e, s)
  | .text =>
    match s.scanText with
    | (none, s) => (.again, s)
    | (some t, s) => (.token t, s)
  | .tags => (.token s.scanTag.1, s.scanTag.2)
  | .done => (.token (s.tokenHere .eof ""), s)

/-- Characters count twice, and the start of a line once more. -/
def weight (s : Lexer) : Nat := 2 * s.rest.length + if s.mode = .lineStart then 1 else 0

section Progress
variable {s s' : Lexer}

@[simp] theorem rest_queue (ts : List Token) : (s.queue ts).rest = s.rest := rfl
@[simp] theorem mode_queue (ts : List Token) : (s.queue ts).mode = s.mode := rfl
@[simp] theorem rest_closeBlocks : s.closeBlocks.rest = s.rest := rfl
@[simp] theorem rest_advance (n : Nat) : (s.advance n).rest = s.rest.drop n := rfl
@[simp] theorem mode_advance (n : Nat) : (s.advance n).mode = s.mode := rfl
@[simp] theorem rest_enterText (b : Bool) : (s.enterText b).rest = s.rest := rfl
@[simp] theorem mode_enterText (b : Bool) : (s.enterText b).mode = .text := rfl

theorem rest_indentTo (n : Nat) : (s.indentTo n).2.rest = s.rest := by
  unfold indentTo; dsimp only; split
  · rfl
  · split <;> rfl

theorem length_queueSpeaker_le : s.queueSpeaker.rest.length ≤ s.rest.length := by
  unfold queueSpeaker; split
  · exact Nat.le_refl _
  · dsimp only; split
    · exact Nat.le_refl _
    · simp

theorem length_classify_le : s.classify.rest.length ≤ s.rest.length := by
  unfold classify; dsimp only
  split
  · simp
  · split
    · exact Nat.le_refl _
    · split
      · exact Nat.le_refl _
      · simpa using length_queueSpeaker_le

theorem mode_classify : s.classify.mode ≠ .lineStart := by
  unfold classify; dsimp only
  split
  · simp
  · split
    · simp
    · split <;> simp

theorem length_consumeNewline_le : s.consumeNewline.rest.length ≤ s.rest.length := by
  unfold consumeNewline; split
  · next h => simp [h]; omega
  · next h => split <;> simp [h]
  · exact Nat.le_refl _

theorem length_consumeNewline_lt {c : Char} {tail : List Char} (h : s.rest = c :: tail)
    (hc : isLineEnd c = true) : s.consumeNewline.rest.length < s.rest.length := by
  unfold consumeNewline; split
  · next h' => rw [h']; simp only [List.length_cons]; omega
  · next h' => rw [h] at h'; cases h'; simp [hc, h]
  · next h' => simp [h'] at h

theorem length_textRun_le (stops : Char → Bool) (cs : List Char) :
    (textRun stops cs).2.length ≤ cs.length := by
  fun_induction textRun stops cs <;> simp_all <;> omega

theorem length_textRun_lt (stops : Char → Bool) {c : Char} {cs : List Char}
    (h : stops c = false) : (textRun stops (c :: cs)).2.length < (c :: cs).length := by
  match cs with
  | [] => simp [textRun, h]
  | d :: tail =>
    unfold textRun
    simp only [h, Bool.false_eq_true, if_false]
    split
    · have := length_textRun_le stops tail
      simp only [List.length_cons]; omega
    · have := length_textRun_le stops (d :: tail)
      simp only [List.length_cons] at *; omega

theorem length_dropWhile_le (p : Char → Bool) (cs : List Char) :
    (cs.dropWhile p).length ≤ cs.length :=
  (List.dropWhile_suffix p).length_le

theorem weight_lt_of_length_lt (h : s'.rest.length < s.rest.length) : s'.weight < s.weight := by
  simp only [weight]; split <;> split <;> omega

theorem weight_lt_of_mode (h : s'.rest.length ≤ s.rest.length) (hm : s.mode = .lineStart)
    (hm' : s'.mode ≠ .lineStart) : s'.weight < s.weight := by
  simp only [weight, hm, hm', if_true, if_false]; omega

theorem weight_startLine (h : s.mode = .lineStart) (hs : s.startLine = (none, s')) :
    s'.weight < s.weight := by
  unfold startLine at hs
  split at hs
  · cases hs; exact weight_lt_of_mode (Nat.le_refl _) h (by simp)
  · next hne =>
    have hlen : 0 < s.rest.length := List.length_pos_iff.mpr (by simpa using hne)
    dsimp only at hs
    generalize hn : (s.rest.takeWhile isBlank).length = n at hs
    have hle : (s.advance n).rest.length ≤ s.rest.length := by simp
    split at hs
    · next hd => cases hs; exact weight_lt_of_length_lt (by rw [hd]; exact hlen)
    · next c tail hd =>
      split at hs
      · next hc =>
        cases hs
        exact weight_lt_of_length_lt (Nat.lt_of_lt_of_le (length_consumeNewline_lt hd hc) hle)
      · next hc =>
        split at hs
        · cases hs
          refine weight_lt_of_length_lt (Nat.lt_of_le_of_lt length_consumeNewline_le ?_)
          refine Nat.lt_of_lt_of_le ?_ hle
          have : 0 < lineLength (s.advance n).rest := by
            rw [hd]; simp [lineLength, hc]
          rw [rest_advance, List.length_drop]
          have : 0 < (s.advance n).rest.length := by rw [hd]; simp
          omega
        · split at hs
          · cases hs; exact weight_lt_of_mode hle h (by simp)
          · split at hs
            · next s1 hi =>
              cases hs
              have hr : s1.rest = (s.advance n).rest := by
                have := @rest_indentTo (s.advance n) n
                rwa [hi] at this
              exact weight_lt_of_mode
                (Nat.le_trans length_classify_le (by rw [hr]; exact hle)) h mode_classify
            · next hf => exact absurd hs (hf s')

theorem mode_consumeNewline : s.consumeNewline.mode = s.mode := by
  unfold consumeNewline; split
  · rfl
  · split <;> rfl
  · rfl

theorem weight_scanText (hs : s.scanText = (none, s')) :
    s'.weight < s.weight := by
  unfold scanText at hs
  generalize hp : (if s.textStart then { s.skipBlanks with textStart := false } else s) = p at hs
  have hle : p.rest.length ≤ s.rest.length := by
    rw [← hp]; split
    · exact length_dropWhile_le _ _
    · exact Nat.le_refl _
  dsimp only at hs
  split at hs
  · cases hs
  · next c tail hd =>
    repeat' split at hs
    all_goals try cases hs
    all_goals
      refine weight_lt_of_length_lt (Nat.lt_of_lt_of_le ?_ hle)
      rw [hd]
      refine length_textRun_lt _ ?_
      by_cases hc : c = '[' <;> simp_all

end Progress

theorem weight_pass {s s' : Lexer} (h : s.pass = (.again, s')) : s'.weight < s.weight := by
  unfold pass at h
  split at h
  · next hm =>
    split at h
    · next hs => cases h; exact weight_startLine hm hs
    · cases h
  · split at h <;> cases h
  · split at h <;> cases h
  · split at h
    · next hs => cases h; exact weight_scanText hs
    · cases h
  · cases h
  · cases h

/-- The next token, found in `fuel` passes at most. -/
def nextWithin : Nat → Lexer → Except LexError Token × Lexer
  | 0, s => (.ok (s.tokenHere .eof ""), s)
  | fuel + 1, s =>
    match s.pending with
    | t :: ts => (.ok t, { s with pending := ts })
    | [] =>
      match s.pass with
      | (.token t, s) => (.ok t, s)
      | (.failed e, s) => (.error e, s)
      | (.again, s) => s.nextWithin fuel

/-- The next token; after an error the lexer stands where the error left it and can be used on. -/
def next (s : Lexer) : Except LexError Token × Lexer := s.nextWithin (s.weight + 1)

/-- More passes than the weight of the text are never made. -/
theorem nextWithin_eq {fuel : Nat} {s : Lexer} (h : s.weight < fuel) : s.nextWithin fuel = s.next := by
  have key : ∀ {fuel fuel' : Nat} {s : Lexer}, s.weight < fuel → s.weight < fuel' →
      s.nextWithin fuel = s.nextWithin fuel' := by
    intro fuel
    induction fuel with
    | zero => intro _ _ h; exact absurd h (Nat.not_lt_zero _)
    | succ fuel ih =>
      intro fuel' s h h'
      cases fuel' with
      | zero => exact absurd h' (Nat.not_lt_zero _)
      | succ fuel' =>
        unfold nextWithin
        split
        · rfl
        · split
          · rfl
          · rfl
          · next s' hp =>
            have := weight_pass hp
            exact ih (by omega) (by omega)
  exact key h (Nat.lt_succ_self _)

/-- A token that waits comes first; otherwise passes are made until one yields a token. -/
theorem next_eq (s : Lexer) :
    s.next =
      match s.pending with
      | t :: ts => (.ok t, { s with pending := ts })
      | [] =>
        match s.pass with
        | (.token t, s) => (.ok t, s)
        | (.failed e, s) => (.error e, s)
        | (.again, s) => s.next := by
  unfold next nextWithin
  split
  · rfl
  · split
    · rfl
    · rfl
    · next s' hp => exact nextWithin_eq (weight_pass hp)

/-- The next token, left where it is. -/
def peek (s : Lexer) : Except LexError Token := s.next.1

/-- More calls of `next` than the text can take before its end is reached. -/
def patience (s : Lexer) : Nat :=
  2 * s.rest.length + s.pending.length + s.levels.length + 3

structure Scanned where
  tokens : List Token
  error : Option LexError
  lexer : Lexer

/-- Calls `next` up to the end of the text or the first error, `fuel` times at most. -/
def scan : Nat → Lexer → Scanned
  | 0, s => ⟨[], none, s⟩
  | fuel + 1, s =>
    match s.next with
    | (.error e, s) => ⟨[], some e, s⟩
    | (.ok t, s) =>
      if t.isEof then ⟨[t], none, s⟩
      else
        let more := scan fuel s
        { more with tokens := t :: more.tokens }

/-- All tokens that are left, the last of them the end of the text. -/
def tokenize (s : Lexer) : Scanned := s.scan s.patience

end Lexer

/-- The tokens of a source, or the first lexical error. -/
def tokens (source : String) : Except LexError (List Token) :=
  let scanned := (Lexer.ofText source).tokenize
  match scanned.error with
  | some e => .error e
  | none => .ok scanned.tokens

end Parley
