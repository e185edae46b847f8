import Parley.Number.Numeral

/-! # Expressions

`Expr.source` writes an expression back with the fewest parentheses: an operand is wrapped when it
binds less tightly than its operator, and on the right also when it binds equally tightly. -/

namespace Parley

/-- The place of the token that introduced a piece of syntax. Any place can be given to syntax that
was not read from a text. -/
structure Pos where
  line : Int := 0
  column : Int := 0
deriving DecidableEq, Repr, Inhabited

inductive UnaryOp where
  | not
  | neg
  | pos
  | other (symbol : String)
deriving DecidableEq, Repr

/-- Operators that take two operands. Any text can stand for one; what is no operator of the
language has no strength and no meaning. -/
inductive BinaryOp where
  | or | and
  | eq | ne | gt | lt | ge | le
  | add | sub
  | mul | div | mod
  | other (symbol : String)
deriving DecidableEq, Repr

namespace UnaryOp

def symbol : UnaryOp → String
  | not => "!"
  | neg => "-"
  | pos => "+"
  | other s => s

def ofSymbol : String → UnaryOp
  | "!" => not
  | "-" => neg
  | "+" => pos
  | s => other s

end UnaryOp

namespace BinaryOp

def symbol : BinaryOp → String
  | or => "||"
  | and => "&&"
  | eq => "=="
  | ne => "!="
  | gt => ">"
  | lt => "<"
  | ge => ">="
  | le => "<="
  | add => "+"
  | sub => "-"
  | mul => "*"
  | div => "/"
  | mod => "%"
  | other s => s

def ofSymbol : String → BinaryOp
  | "||" => or
  | "&&" => and
  | "==" => eq
  | "!=" => ne
  | ">" => gt
  | "<" => lt
  | ">=" => ge
  | "<=" => le
  | "+" => add
  | "-" => sub
  | "*" => mul
  | "/" => div
  | "%" => mod
  | s => other s

/-- How tightly an operator binds. -/
def strength : BinaryOp → Nat
  | or => 1
  | and => 2
  | eq | ne | gt | lt | ge | le => 3
  | add | sub => 4
  | mul | div | mod => 5
  | other _ => 0

end BinaryOp

mutual

inductive Expr where
  | number (value : Binary64) (pos : Pos)
  | string (value : String) (pos : Pos)
  | boolean (value : Bool) (pos : Pos)
  | reference (name : String) (pos : Pos)
  | unary (op : UnaryOp) (operand : Expr) (pos : Pos)
  | binary (op : BinaryOp) (left right : Expr) (pos : Pos)
  /-- A call of a host function; `bare` if it is written without parentheses. -/
  | call (name : String) (args : List Expr) (bare : Bool) (pos : Pos)
  /-- A string with holes that are filled when it is evaluated. -/
  | interpolated (segments : List Segment) (pos : Pos)
  /-- Braces outside a text: they can be written, but have no value. -/
  | braces (expr : Expr) (pos : Pos)
  /-- What is no expression, by the name of what it is. -/
  | foreign (kind : String)

inductive Segment where
  | literal (text : String) (pos : Pos)
  | hole (expr : Expr) (pos : Pos)
  /-- An expression without braces: it can be written, but fills no text. -/
  | stray (expr : Expr)

end

deriving instance BEq, Inhabited for Expr, Segment

def escapeQuotes (s : String) : String :=
  String.ofList (s.toList.flatMap fun c => if c = '"' then ['\\', '"'] else [c])

def quoted (body : String) : String := "\"" ++ body ++ "\""

def inBraces (body : String) : String := "\x7b" ++ body ++ "\x7d"

/-- What has no source form. -/
inductive Unwritable where
  /-- An operator that the language does not have. -/
  | operator (symbol : String)
  /-- What is no expression. -/
  | kind (name : String)
deriving DecidableEq, Repr

namespace Expr

def pos : Expr → Pos
  | number _ p | string _ p | boolean _ p | reference _ p | unary _ _ p | binary _ _ _ p
  | call _ _ _ p | interpolated _ p | braces _ p => p
  | foreign _ => {}

/-- The name of a kind of expression. -/
def kind : Expr → String
  | number .. => "NumberLiteral"
  | string .. => "StringLiteral"
  | boolean .. => "BooleanLiteral"
  | reference .. => "Variable"
  | unary .. => "UnaryOp"
  | binary .. => "BinaryOp"
  | call .. => "FunctionCall"
  | interpolated .. => "InterpolatedString"
  | braces .. => "Interpolation"
  | foreign kind => kind

/-- The strength of the operator at the top; other expressions bind more tightly than any. -/
def strength? : Expr → Option Nat
  | binary op _ _ _ => some op.strength
  | _ => none

def wrapIf (wrap : Bool) (text : String) : String := if wrap then "(" ++ text ++ ")" else text

mutual

/-- The source form; what is no expression has none. -/
def source : Expr → String
  | number value _ => value.text
  | string value _ => quoted (escapeQuotes value)
  | boolean value _ => if value then "true" else "false"
  | reference name _ => "$" ++ name
  | unary op operand _ => op.symbol ++ wrapIf operand.strength?.isSome operand.source
  | binary op left right _ =>
    wrapIf (left.strength?.any fun s => decide (s < op.strength)) left.source ++ " " ++ op.symbol ++
      " " ++ wrapIf (right.strength?.any fun s => decide (s ≤ op.strength)) right.source
  | call name args bare _ =>
    if bare then name else name ++ "(" ++ ", ".intercalate (sources args) ++ ")"
  | interpolated segments _ => quoted (String.join (segmentSources segments))
  | braces e _ => inBraces e.source
  | foreign _ => ""

def sources : List Expr → List String
  | [] => []
  | e :: rest => e.source :: sources rest

/-- The segments of a string between its quotes. -/
def segmentSources : List Segment → List String
  | [] => []
  | .literal text _ :: rest => escapeQuotes text :: segmentSources rest
  | .hole e _ :: rest => inBraces e.source :: segmentSources rest
  | .stray e :: rest => e.source :: segmentSources rest

end

mutual

/-- The first part, in reading order from the top, that cannot be written. -/
def unwritable? : Expr → Option Unwritable
  | number .. | string .. | boolean .. | reference .. => none
  | unary _ operand _ => operand.unwritable?
  | binary op left right _ =>
    match op with
    | .other symbol => some (.operator symbol)
    | _ => left.unwritable?.or right.unwritable?
  | call _ args bare _ => if bare then none else unwritableIn? args
  | interpolated segments _ => unwritableInSegments? segments
  | braces e _ => e.unwritable?
  | foreign kind => some (.kind kind)

def unwritableIn? : List Expr → Option Unwritable
  | [] => none
  | e :: rest => e.unwritable?.or (unwritableIn? rest)

def unwritableInSegments? : List Segment → Option Unwritable
  | [] => none
  | .literal .. :: rest => unwritableInSegments? rest
  | .hole e _ :: rest | .stray e :: rest => e.unwritable?.or (unwritableInSegments? rest)

end

end Expr

namespace Segment

def pos : Segment → Pos
  | literal _ p | hole _ p => p
  | stray e => e.pos

end Segment

end Parley
