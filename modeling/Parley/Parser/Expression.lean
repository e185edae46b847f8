import Parley.Parser.Holes

/-! # Parsing expressions

Binary operators come in tiers, each associating to the left over operands of the tighter tiers. -/

namespace Parley
namespace Reading

/-- The tiers of binary operators, the loosest first. -/
def tiers : List (List TokenKind) :=
  [[.or], [.and], [.equals, .notEquals, .greater, .less, .greaterEquals, .lessEquals],
    [.plus, .minus], [.multiply, .divide, .modulo]]

def unaryKinds : List TokenKind := [.not, .minus, .plus]

mutual

/-- An operand of the given tiers with the operators that follow it. -/
def tiersIn : Nat → List (List TokenKind) → Reading Expr
  | 0, _, _ => .error .unfinished
  | fuel + 1, [], ts => unaryIn fuel ts
  | fuel + 1, tier :: tighter, ts => do
    let (left, ts) ← tiersIn fuel tighter ts
    operatorsIn fuel tier tighter left ts

/-- Operators of one tier after their first operand. -/
def operatorsIn : Nat → List TokenKind → List (List TokenKind) → Expr → Reading Expr
  | 0, _, _, _, _ => .error .unfinished
  | fuel + 1, tier, tighter, left, ts =>
    let op := peek ts
    if tier.contains op.kind then do
      let (right, ts) ← tiersIn fuel tighter (skip ts)
      operatorsIn fuel tier tighter (.binary (.ofSymbol op.value) left right op.pos) ts
    else .ok (left, ts)

def unaryIn : Nat → Reading Expr
  | 0, _ => .error .unfinished
  | fuel + 1, ts =>
    let op := peek ts
    if unaryKinds.contains op.kind then do
      let (operand, ts) ← unaryIn fuel (skip ts)
      return (.unary (.ofSymbol op.value) operand op.pos, ts)
    else primaryIn fuel ts

def primaryIn : Nat → Reading Expr
  | 0, _ => .error .unfinished
  | fuel + 1, ts =>
    let t := peek ts
    let rest := skip ts
    match t.kind with
    | .number =>
      match Numeral.read? t.value.toList with
      | some value => .ok (.number value t.pos, rest)
      | none => .error (.numeral t.value)
    | .string => do return (← stringLiteral t, rest)
    | .trueWord => .ok (.boolean true t.pos, rest)
    | .falseWord => .ok (.boolean false t.pos, rest)
    | .reference => .ok (.reference t.value t.pos, rest)
    | .identifier =>
      if sees rest .leftParen then do
        let (args, rest) ← argumentsIn fuel (skip rest)
        return (.call t.value args false t.pos, rest)
      else .ok (.call t.value [] true t.pos, rest)
    | .leftParen => do
      let (e, rest) ← tiersIn fuel tiers rest
      let (_, rest) ← consume .rightParen "')' after expression" rest
      return (e, rest)
    | _ => .error (unexpected ts "expression")

/-- Arguments after an opening parenthesis, with the closing one. -/
def argumentsIn : Nat → Reading (List Expr)
  | 0, _ => .error .unfinished
  | fuel + 1, ts =>
    if sees ts .rightParen then .ok ([], skip ts) else argumentListIn fuel ts

/-- One argument or more, with the closing parenthesis. -/
def argumentListIn : Nat → Reading (List Expr)
  | 0, _ => .error .unfinished
  | fuel + 1, ts => do
    let (arg, ts) ← tiersIn fuel tiers ts
    if sees ts .comma then
      let (args, ts) ← argumentListIn fuel (skip ts)
      return (arg :: args, ts)
    else
      let (_, ts) ← consume .rightParen "')' after arguments" ts
      return ([arg], ts)

end

def expression : Reading Expr := fun ts => tiersIn (linePatience ts) tiers ts

def arguments : Reading (List Expr) := fun ts => argumentsIn (linePatience ts) ts

/-- Literal runs and expressions in braces, as many as follow. -/
def textIn : Nat → Reading (List Segment)
  | 0, _ => .error .unfinished
  | fuel + 1, ts =>
    let t := peek ts
    match t.kind with
    | .text => do
      let (segments, ts) ← textIn fuel (skip ts)
      return (.literal t.value t.pos :: segments, ts)
    | .leftBrace => do
      let (e, ts) ← expression (skip ts)
      let (_, ts) ← consume .rightBrace "'\x7d' after interpolation" ts
      let (segments, ts) ← textIn fuel ts
      return (.hole e t.pos :: segments, ts)
    | _ => .ok ([], ts)

def text : Reading (List Segment) := fun ts => textIn (linePatience ts) ts

def isTagPart (t : Token) : Bool :=
  t.kind == .hash || t.kind == .identifier || t.kind == .text || t.kind == .comma

/-- The words after a hash, with commas and further hashes between them. -/
def tags (ts : List Token) : List String × List Token :=
  if sees ts .hash then
    let words := (ts.takeWhile isTagPart).filter fun t => t.kind == .identifier || t.kind == .text
    (words.map Token.value, ts.dropWhile isTagPart)
  else ([], ts)

end Reading
end Parley
