import Parley.Lexer.State

/-! # The start of a line

Blank lines and comments are skipped. Any other line is measured, opens or closes blocks by its
indentation, and is then classified once: a header, a choice, code, or text with perhaps a speaker
in front. A header closes every block and opens none, whatever its indentation. -/

namespace Parley

/-- `speaker [emotion] :` at the head of a line. -/
structure SpeakerHead where
  /-- The name without its escapes. -/
  name : List Char
  /-- How many characters the name takes in the text. -/
  width : Nat
  emotion : Option (List Char)
  /-- How many blanks stand between the closing bracket and the colon. -/
  gap : Nat
deriving DecidableEq, Repr

namespace SpeakerHead

def push (h : SpeakerHead) (c : Char) (width : Nat) : SpeakerHead :=
  { h with name := c :: h.name, width := h.width + width }

/-- How many characters come before the colon. -/
def beforeColon (h : SpeakerHead) : Nat :=
  match h.emotion with
  | none => h.width
  | some e => h.width + 1 + e.length + 1 + h.gap

end SpeakerHead

/-- What follows an opening bracket, if the bracket closes on the line and a colon comes next. -/
def emotionHead? (line : List Char) : Option SpeakerHead :=
  let inside := line.takeWhile fun c => c != ']'
  match line.dropWhile fun c => c != ']' with
  | [] => none
  | _ :: after =>
    if (after.dropWhile isBlank).head?.any isColon then
      some ⟨[], 0, some inside, (after.takeWhile isBlank).length⟩
    else none

/-- Reads a speaker off a line. A tag or an interpolation before the colon makes the line plain
text, and so does a bracket that is not an emotion. -/
def speakerHead? : List Char → Option SpeakerHead
  | [] => none
  | [c] => if isColon c then some ⟨[], 0, none, 0⟩ else none
  | c :: d :: tail =>
    if c = '#' || c = '{' then none
    else if c = '\\' && isEscapable d then (speakerHead? tail).map (·.push d 2)
    else if isColon c then some ⟨[], 0, none, 0⟩
    else if c = '[' then emotionHead? (d :: tail)
    else (speakerHead? (d :: tail)).map (·.push c 1)

namespace Lexer

def closeBlocks (s : Lexer) : Lexer :=
  { s.queue (List.replicate s.levels.length (s.tokenHere .dedent "")) with levels := [] }

/-- Opens a block for a deeper line; closes the blocks that a shallower line leaves, and fails if
it returns to none of their levels. -/
def indentTo (s : Lexer) (indent : Nat) : Option LexError × Lexer :=
  let current := s.levels.headD 0
  if current < indent then
    (none, { s.queue [s.tokenHere .indent ""] with levels := indent :: s.levels })
  else
    let kept := s.levels.dropWhile fun level => decide (indent < level)
    let closed := s.levels.length - kept.length
    let s := { s.queue (List.replicate closed (s.tokenHere .dedent "")) with levels := kept }
    if kept.headD 0 = indent then (none, s) else (some (s.errorHere .indentation), s)

def enterText (s : Lexer) (inChoice : Bool) : Lexer :=
  { s with mode := .text, inChoice := inChoice, textStart := true }

def speakerTokens (s : Lexer) (head : SpeakerHead) (name : List Char) : List Token :=
  let column := s.column + head.width
  let emotion := match head.emotion with
    | none => []
    | some raw =>
      let value := trim raw
      [⟨.leftBracket, "[", s.line, column⟩,
        ⟨wordKind value, String.ofList value, s.line, column + 1⟩,
        ⟨.rightBracket, "]", s.line, column + 1 + raw.length⟩]
  s.tokenHere (wordKind name) (String.ofList name) :: emotion ++
    [⟨.colon, ":", s.line, s.column + head.beforeColon⟩]

/-- Queues the speaker that opens the line, if one does. -/
def queueSpeaker (s : Lexer) : Lexer :=
  match speakerHead? (s.rest.take (lineLength s.rest)) with
  | none => s
  | some head =>
    let name := trim head.name
    if name.isEmpty then s
    else (s.queue (s.speakerTokens head name)).advance (head.beforeColon + 1)

/-- A statement word must stand alone: a blank or the end of the line comes after it. -/
def opensStatement (s : Lexer) : Bool :=
  let word := s.word
  isStatementWord (String.ofList word) &&
    ((s.rest.drop word.length).head?.all fun c => isBlank c || isLineEnd c)

def classify (s : Lexer) : Lexer :=
  let second := s.rest.tail.head?
  if s.rest.head? = some '-' && second.any isArrowHead then
    ((s.queue [s.tokenHere .arrow "->"]).advance 2).enterText true
  else if s.rest.head? = some '=' && second.any isArrowHead then { s with mode := .code }
  else if s.opensStatement then { s with mode := .code }
  else s.queueSpeaker.enterText false

def startLine (s : Lexer) : Option LexError × Lexer :=
  if s.rest.isEmpty then (none, { s.closeBlocks with mode := .done })
  else
    let indent := (s.rest.takeWhile isBlank).length
    let s := s.advance indent
    match s.rest with
    | [] => (none, s)
    | c :: tail =>
      if isLineEnd c then (none, s.consumeNewline)
      else if c = '/' && tail.head? = some '/' then
        (none, (s.advance (lineLength s.rest)).consumeNewline)
      else if isColon c && tail.head?.any isColon then (none, { s.closeBlocks with mode := .code })
      else
        match s.indentTo indent with
        | (none, s) => (none, s.classify)
        | failed => failed

end Lexer
end Parley
