import Parley.Parser.Tokens

/-! # Holes in string literals

Inside a string a pair of braces holds the name of a variable, and nothing else. A string with a
brace of one kind only is plain. -/

namespace Parley

inductive HoleFault where
  | unclosed
  | notVariable (body : String)
deriving DecidableEq, Repr

/-- A literal segment, unless there is nothing in it; the characters come last first. -/
def literalSegment (pos : Pos) : List Char → List Segment
  | [] => []
  | cs => [.literal (String.ofList cs.reverse) pos]

/-- The variable that the body of a hole names. -/
def holeName? (body : List Char) : Option (List Char) :=
  match trim body with
  | '$' :: name => if isIdentifier name then some name else none
  | _ => none

/-- Splits a string at its holes. `literal` and `hole` hold what has been read of either, last
character first; there is a hole only between its braces. -/
def splitHoles (pos : Pos) : (literal : List Char) → (hole : Option (List Char)) → List Char →
    Except HoleFault (List Segment)
  | literal, none, [] => .ok (literalSegment pos literal)
  | _, some _, [] => .error .unclosed
  | literal, none, c :: rest =>
    if c = '{' then splitHoles pos literal (some []) rest
    else splitHoles pos (c :: literal) none rest
  | literal, some body, c :: rest =>
    if c = '}' then
      match holeName? body.reverse with
      | none => .error (.notVariable (String.ofList (trim body.reverse)))
      | some name => do
        let more ← splitHoles pos [] none rest
        return literalSegment pos literal ++
          .hole (.reference (String.ofList name) pos) pos :: more
    else splitHoles pos literal (some (c :: body)) rest

/-- The expression that a string token stands for. -/
def stringLiteral (t : Token) : Except ParseError Expr :=
  let cs := t.value.toList
  if cs.contains '{' && cs.contains '}' then
    match splitHoles t.pos [] none cs with
    | .error .unclosed =>
      .error (Reading.unexpectedAt t "'\x7d' in string interpolation" t.describe)
    | .error (.notVariable body) =>
      .error (Reading.unexpectedAt t "'$variable' in string interpolation" s!"'\x7b{body}\x7d'")
    | .ok [.literal text _] => .ok (.string text t.pos)
    | .ok segments => .ok (.interpolated segments t.pos)
  else .ok (.string t.value t.pos)

end Parley
