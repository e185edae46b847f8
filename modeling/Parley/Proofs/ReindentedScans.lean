import Mathlib.Order.Monotone.Basic
import Parley.Proofs.Passes

/-! # Scanning a line that is indented otherwise

Of columns the lexer only takes note, and the indentation of a line it only compares with the open levels. So a lexer
that stands further on in its line, below levels that a strictly increasing function has moved, makes the same pass
and yields the same further on (`pass_reindented`), and it opens a line in the same way as long as the indentation of
the line is moved with the levels (`openLine_reindented`). A new line starts in the first column all the same, which is
why the lines that are still to come may not be moved yet. -/

namespace Parley

/-- The token, as many columns further on as its line is moved. -/
def Token.shifted (g : Nat → Nat) (t : Token) : Token := { t with column := t.column + g t.line.toNat }

/-- The error, as many columns further on as its line is moved. -/
def LexError.shifted (g : Nat → Nat) (e : LexError) : LexError := { e with column := e.column + g e.line }

namespace Lexer

/-- What scanning code comes to on a line that is moved. -/
def readShifted (g : Nat → Nat) : Except LexError Token → Except LexError Token
  | .ok t => .ok (t.shifted g)
  | .error e => .error (e.shifted g)

def Pass.shifted (g : Nat → Nat) : Pass → Pass
  | .token t => .token (t.shifted g)
  | .again => .again
  | .failed e => .failed (e.shifted g)

/-- The lexer below the levels that `f` makes of its own, on lines that are moved by `g`. -/
def reindented (f g : Nat → Nat) (s : Lexer) : Lexer :=
  { s with
    column := s.column + g s.line
    levels := s.levels.map f
    pending := s.pending.map (Token.shifted g) }

/-- No line behind this one is moved. -/
def MovedUpTo (g : Nat → Nat) (line : Nat) : Prop := ∀ later, line < later → g later = 0

section Reindented
variable {f g : Nat → Nat} {s : Lexer}

@[simp] theorem rest_reindented : (s.reindented f g).rest = s.rest := rfl
@[simp] theorem mode_reindented : (s.reindented f g).mode = s.mode := rfl
@[simp] theorem levels_reindented : (s.reindented f g).levels = s.levels.map f := rfl

@[simp] theorem tokenHere_reindented (kind : TokenKind) (value : String) :
    (s.reindented f g).tokenHere kind value = (s.tokenHere kind value).shifted g := by
  simp [tokenHere, reindented, Token.shifted]

theorem advance_reindented (n : Nat) : (s.reindented f g).advance n = (s.advance n).reindented f g := by
  simp [advance, reindented, Nat.add_right_comm]

theorem moveTo_reindented (tail : List Char) : (s.reindented f g).moveTo tail = (s.moveTo tail).reindented f g := by
  simp [moveTo, reindented, Nat.add_right_comm]

theorem skipBlanks_reindented : (s.reindented f g).skipBlanks = s.skipBlanks.reindented f g := by
  simp [skipBlanks, reindented, Nat.add_right_comm]

theorem consumeNewline_reindented (hg : MovedUpTo g s.line) :
    (s.reindented f g).consumeNewline = s.consumeNewline.reindented f g := by
  have hnext : 1 = 1 + g (s.line + 1) := by rw [hg _ (Nat.lt_succ_self _)]
  unfold consumeNewline
  rw [rest_reindented]
  split
  · simpa [reindented] using hnext
  · split
    · simpa [reindented] using hnext
    · rfl
  · rfl

theorem newline_reindented (hg : MovedUpTo g s.line) :
    (s.reindented f g).newline = s.newline.map (Token.shifted g) (reindented f g) := by
  simp only [newline, consumeNewline_reindented hg, tokenHere_reindented]
  rfl

theorem take_reindented (kind : TokenKind) (text : List Char) :
    (s.reindented f g).take kind text = (s.take kind text).map (Token.shifted g) (reindented f g) := by
  simp [take, advance_reindented]

/-! ### Code, tags and text -/

theorem readCode_reindented (hg : MovedUpTo g s.line) (head : CodeHead) :
    (s.reindented f g).readCode head = (s.readCode head).map (readShifted g) (reindented f g) := by
  unfold readCode
  cases head with
  | ending =>
    dsimp only
    rw [newline_reindented hg]
    rfl
  | comment =>
    dsimp only
    rw [rest_reindented, advance_reindented, newline_reindented (s := s.advance _) hg]
    rfl
  | token kind value text =>
    dsimp only
    rw [advance_reindented, tokenHere_reindented, mode_reindented]
    rfl
  | refused cause text =>
    dsimp only
    rw [advance_reindented]
    rfl

theorem scanCode_reindented (hg : MovedUpTo g s.line) :
    (s.reindented f g).scanCode = s.scanCode.map (readShifted g) (reindented f g) := by
  rw [scanCode_eq, scanCode_eq, skipBlanks_reindented, rest_reindented, readCode_reindented (s := s.skipBlanks) hg]

theorem scanTag_reindented (hg : MovedUpTo g s.line) :
    (s.reindented f g).scanTag = s.scanTag.map (Token.shifted g) (reindented f g) := by
  rw [scanTag_eq, scanTag_eq, skipBlanks_reindented, rest_reindented]
  cases tagHead s.skipBlanks.rest with
  | none => exact newline_reindented (s := s.skipBlanks) hg
  | some head => exact take_reindented head.1 head.2

theorem begun_reindented : (s.reindented f g).begun = s.begun.reindented f g := by
  unfold begun
  rw [skipBlanks_reindented, apply_ite (reindented f g)]
  rfl

theorem readRun_reindented (run : List Char × List Char) :
    (s.reindented f g).readRun run = (s.readRun run).map (Option.map (Token.shifted g)) (reindented f g) := by
  unfold readRun
  dsimp only
  rw [moveTo_reindented, tokenHere_reindented, Prod.map_apply, apply_ite (Option.map (Token.shifted g))]
  rfl

theorem scanText_reindented (hg : MovedUpTo g s.line) :
    (s.reindented f g).scanText = s.scanText.map (Option.map (Token.shifted g)) (reindented f g) := by
  obtain ⟨p, hp⟩ := along_begun s
  rw [← hp.line] at hg
  rw [scanText_eq, scanText_eq, begun_reindented, rest_reindented]
  generalize s.begun = m at hg
  have hchoice : (m.reindented f g).inChoice = m.inChoice := rfl
  rw [hchoice]
  cases textHead m.inChoice m.rest.head? with
  | ending =>
    unfold readText
    dsimp only
    rw [newline_reindented hg]
    rfl
  | mark kind value mode =>
    unfold readText
    dsimp only
    rw [advance_reindented, tokenHere_reindented]
    rfl
  | run => exact readRun_reindented _

/-! ### The start of a line -/

theorem queue_reindented (ts : List Token) :
    (s.reindented f g).queue (ts.map (Token.shifted g)) = (s.queue ts).reindented f g := by
  simp [queue, reindented]

theorem closeBlocks_reindented : (s.reindented f g).closeBlocks = s.closeBlocks.reindented f g := by
  simp [closeBlocks, queue, reindented, Token.shifted, tokenHere]

/-- An indentation is only compared with the open levels. -/
theorem indentTo_reindented (hf : StrictMono f) (hzero : f 0 = 0) (indent : Nat) :
    (s.reindented f g).indentTo (f indent) =
      (s.indentTo indent).map (Option.map (LexError.shifted g)) (reindented f g) := by
  have hhead (levels : List Nat) : (levels.map f).headD 0 = f (levels.headD 0) := by
    cases levels with
    | nil => exact hzero.symm
    | cons level levels => rfl
  have hkept : (s.levels.map f).dropWhile (fun level => decide (f indent < level)) =
      (s.levels.dropWhile fun level => decide (indent < level)).map f := by
    rw [List.dropWhile_map]
    simp only [Function.comp_def, hf.lt_iff_lt]
  unfold indentTo
  dsimp only
  rw [levels_reindented, hhead, hkept, hhead, tokenHere_reindented, tokenHere_reindented, ← List.map_singleton,
    queue_reindented, List.length_map, List.length_map, ← List.map_replicate, queue_reindented]
  simp only [hf.lt_iff_lt, hf.injective.eq_iff]
  split
  · rfl
  · split <;> rfl

theorem speakerTokens_reindented (head : SpeakerHead) (name : List Char) :
    (s.reindented f g).speakerTokens head name = (s.speakerTokens head name).map (Token.shifted g) := by
  unfold speakerTokens
  cases head.emotion <;> simp [tokenHere, reindented, Token.shifted] <;> omega

theorem queueSpeaker_reindented : (s.reindented f g).queueSpeaker = s.queueSpeaker.reindented f g := by
  unfold queueSpeaker
  rw [rest_reindented]
  cases speakerHead? (s.rest.take (lineLength s.rest)) with
  | none => rfl
  | some head =>
    dsimp only
    rw [speakerTokens_reindented, queue_reindented, advance_reindented, apply_ite (reindented f g)]

theorem classify_reindented : (s.reindented f g).classify = s.classify.reindented f g := by
  have hstatement : (s.reindented f g).opensStatement = s.opensStatement := rfl
  unfold classify
  dsimp only
  rw [hstatement, queueSpeaker_reindented, rest_reindented, tokenHere_reindented, ← List.map_singleton,
    queue_reindented, advance_reindented]
  simp only [apply_ite (reindented f g)]
  rfl

theorem openContent_reindented (hf : StrictMono f) (hzero : f 0 = 0) (indent : Nat) :
    (s.reindented f g).openContent (f indent) =
      (s.openContent indent).map (Option.map (LexError.shifted g)) (reindented f g) := by
  unfold openContent
  rw [indentTo_reindented hf hzero]
  rcases s.indentTo indent with ⟨_ | e, m⟩
  · exact congrArg (Prod.mk none) classify_reindented
  · rfl

/-- A line is opened in the same way if its indentation is moved with the levels. -/
theorem openLine_reindented (hf : StrictMono f) (hzero : f 0 = 0) (hg : MovedUpTo g s.line)
    (indent : Nat) (head : LineHead) :
    (s.reindented f g).openLine (f indent) head =
      (s.openLine indent head).map (Option.map (LexError.shifted g)) (reindented f g) := by
  cases head with
  | nothing => exact congrArg (Prod.mk none) (consumeNewline_reindented hg)
  | comment =>
    unfold openLine
    dsimp only
    rw [rest_reindented, advance_reindented, consumeNewline_reindented (s := s.advance _) hg]
    rfl
  | header =>
    unfold openLine
    dsimp only
    rw [closeBlocks_reindented]
    rfl
  | content => exact openContent_reindented hf hzero indent

/-- One pass that starts no line. -/
theorem pass_reindented (hg : MovedUpTo g s.line) (hmode : s.mode = .lineStart → s.rest = []) :
    (s.reindented f g).pass = s.pass.map (Pass.shifted g) (reindented f g) := by
  unfold pass
  rw [mode_reindented, scanCode_reindented hg, scanText_reindented hg, scanTag_reindented hg, tokenHere_reindented]
  cases hm : s.mode with
  | lineStart =>
    have hrest := hmode hm
    rw [startLine_nil hrest, startLine_nil (s := s.reindented f g) hrest, closeBlocks_reindented]
    rfl
  | code | interpolation => rcases s.scanCode with ⟨e | t, s'⟩ <;> rfl
  | text => rcases s.scanText with ⟨_ | t, s'⟩ <;> rfl
  | tags => rfl
  | done => rfl

end Reindented
end Lexer
end Parley
