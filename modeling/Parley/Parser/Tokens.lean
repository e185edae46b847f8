import Parley.Lexer
import Parley.Syntax.Content

/-! # Reading tokens

A parser reads a list of tokens that ends in an end-of-text token, which is never taken. The first
violation of the grammar ends it. -/

namespace Parley

inductive ParseError where
  | unexpected (line column : Int) (expected found : String)
  /-- A number token whose text is no numeral. -/
  | numeral (text : String)
  /-- The bound on the depth of calls was too small. -/
  | unfinished
deriving DecidableEq, Repr

abbrev Reading (α : Type) := List Token → Except ParseError (α × List Token)

def Token.pos (t : Token) : Pos := ⟨t.line, t.column⟩

namespace Reading

def peek (ts : List Token) : Token := ts.headD ⟨.eof, "", 1, 1⟩

/-- The token after the next one; the last token is followed by itself. -/
def peekSecond : List Token → Token
  | _ :: t :: _ => t
  | ts => peek ts

/-- What is left after the next token. -/
def skip : List Token → List Token
  | t :: ts => if t.isEof then t :: ts else ts
  | [] => []

def sees (ts : List Token) (kind : TokenKind) : Bool := (peek ts).kind == kind

def unexpectedAt (t : Token) (expected : String) (found : String) : ParseError :=
  .unexpected t.line t.column expected found

def unexpected (ts : List Token) (expected : String) : ParseError :=
  unexpectedAt (peek ts) expected (peek ts).describe

/-- Takes a token of the given kind. -/
def consume (kind : TokenKind) (expected : String) : Reading Token := fun ts =>
  if sees ts kind then .ok (peek ts, skip ts) else .error (unexpected ts expected)

/-- Ends the list, if it does not end already. -/
def terminated (tokens : List Token) : List Token :=
  match tokens.getLast? with
  | none => [⟨.eof, "", 1, 1⟩]
  | some last => if last.isEof then tokens else tokens ++ [⟨.eof, "", last.line, last.column⟩]

/-- More nested calls than a parser makes over these tokens. -/
def patience (ts : List Token) : Nat := 10 * (ts.length + 1)

/-- How many tokens are left on the line. -/
def lineSize (ts : List Token) : Nat :=
  (ts.takeWhile fun t => t.kind != .newline && !t.isEof).length

/-- More nested calls than a parser makes that stays on the line. -/
def linePatience (ts : List Token) : Nat := 10 * (lineSize ts + 1)

end Reading
end Parley
