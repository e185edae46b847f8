import Parley.Token

/-! # The state of the lexer

A lexer holds the text that is left, the place of its first character, the open indent levels and
the tokens it has queued. Here are the moves that every scanner is made of. -/

namespace Parley

/-- What is expected at the current place. -/
inductive Mode where
  | lineStart
  | code
  | text
  | interpolation
  | tags
  | done
deriving DecidableEq, Repr

inductive LexCause where
  | indentation
  | unclosedString
  | loneOperator (c : Char)
  | missingName
deriving DecidableEq, Repr

structure LexError where
  cause : LexCause
  line : Nat
  column : Nat
deriving DecidableEq, Repr

def LexCause.message : LexCause → String
  | indentation => "Invalid indentation"
  | unclosedString => "Unterminated string"
  | loneOperator c => s!"Invalid character sequence '{c}'"
  | missingName => "Expected variable name after '$'"

def LexError.message (e : LexError) : String :=
  s!"{e.cause.message} at line {e.line}, column {e.column}"

structure Lexer where
  rest : List Char
  line : Nat := 1
  column : Nat := 1
  /-- The open indent levels, innermost first; the level 0 below them is left out. -/
  levels : List Nat := []
  pending : List Token := []
  mode : Mode := .lineStart
  /-- The text of this line belongs to a choice. -/
  inChoice : Bool := false
  /-- No text of this line has been read. -/
  textStart : Bool := false
deriving Repr

def isColon (c : Char) : Bool := c == ':' || c == '：'

def isArrowHead (c : Char) : Bool := c == '>' || c == '》'

/-- What a backslash may escape in free text. -/
def isEscapable (c : Char) : Bool :=
  c == '#' || isColon c || c == '[' || c == ']' || c == '{' || c == '}' || c == '\\'

/-- How many characters come before the end of the line. -/
def lineLength (cs : List Char) : Nat := (cs.takeWhile fun c => !isLineEnd c).length

namespace Lexer

def ofText (source : String) : Lexer := { rest := source.toList }

def advance (s : Lexer) (count : Nat) : Lexer :=
  { s with rest := s.rest.drop count, column := s.column + count }

/-- Moves on to `tail`, a tail of the same line. -/
def moveTo (s : Lexer) (tail : List Char) : Lexer :=
  { s with rest := tail, column := s.column + (lineLength s.rest - lineLength tail) }

def skipBlanks (s : Lexer) : Lexer :=
  { s with
    rest := s.rest.dropWhile isBlank
    column := s.column + (s.rest.takeWhile isBlank).length }

/-- Takes one line end, if one comes next; a carriage return takes the line feed after it along. -/
def consumeNewline (s : Lexer) : Lexer :=
  match s.rest with
  | '\r' :: '\n' :: tail => { s with rest := tail, line := s.line + 1, column := 1 }
  | c :: tail => if isLineEnd c then { s with rest := tail, line := s.line + 1, column := 1 } else s
  | [] => s

def tokenHere (s : Lexer) (kind : TokenKind) (value : String) : Token :=
  ⟨kind, value, s.line, s.column⟩

def queue (s : Lexer) (tokens : List Token) : Lexer := { s with pending := s.pending ++ tokens }

/-- The token that ends a line, written also where the text ends without one. -/
def newline (s : Lexer) : Token × Lexer :=
  (s.tokenHere .newline "\\n", { s.consumeNewline with mode := .lineStart })

/-- The word that comes next, empty if none does. -/
def word (s : Lexer) : List Char :=
  match s.rest with
  | [] => []
  | c :: tail => if isWordStart c then c :: tail.takeWhile isWordPart else []

def errorHere (s : Lexer) (cause : LexCause) : LexError := ⟨cause, s.line, s.column⟩

end Lexer

def wordKind (text : List Char) : TokenKind :=
  if isIdentifier text then .identifier else .text

end Parley
