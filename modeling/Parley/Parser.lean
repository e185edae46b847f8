import Parley.Parser.Script
import Parley.Text.Quoted

/-! # From source text to script -/

namespace Parley

inductive SourceError where
  | lex (e : LexError)
  | parse (e : ParseError)
deriving DecidableEq, Repr

namespace ParseError

def message : ParseError → String
  | unexpected line column expected found =>
    s!"Expected {expected}, found {found} at line {line}, column {column}"
  | numeral text => s!"could not convert string to float: {quoteText text}"
  | unfinished => "nesting is too deep"

/-- Only a violation of the grammar is logged. -/
def records (e : ParseError) : List LogRecord :=
  match e with
  | unexpected .. => [⟨.error, .parser, e.message⟩]
  | _ => []

end ParseError

/-- The outcome of parsing, and the records it logs. -/
structure Parsed where
  result : Except SourceError Script
  records : List LogRecord

def Parsed.ofTokens (tokens : List Token) : Parsed :=
  let (result, notes) := parseTokens tokens
  let noted := notes.map fun n => ⟨.debug, .parser, n.message⟩
  match result with
  | .ok script => ⟨.ok script, noted⟩
  | .error e => ⟨.error (.parse e), noted ++ e.records⟩

def parseScript (source : String) : Parsed :=
  match tokens source with
  | .error e => ⟨.error (.lex e), [⟨.error, .lexer, e.message⟩]⟩
  | .ok tokens => .ofTokens tokens

end Parley
