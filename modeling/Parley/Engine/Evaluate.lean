import Parley.Engine.Variables
import Parley.Engine.Functions

/-! # Evaluating expressions and running commands

Operands are evaluated from left to right, both sides of `&&` and `||` included, and only then is
the operator applied. In lenient text an expression whose evaluation meets an undefined name is
written out instead. -/

namespace Parley
namespace Play
variable {σ μ : Type} (host : Host σ μ)

def typeFail {α : Type} (t : TypeFault) : Play σ μ α := failOn .interpreter (.type t)

def applyUnary (op : UnaryOp) (operand : Value) (line : Int) : Play σ μ Value :=
  match op, operand with
  | .not, .boolean b => return .boolean (!b)
  | .not, v => typeFail (.notOperand v.typeName line)
  | .neg, .number x => return .number x.neg
  | _, .number x => return .number x
  | op, v => typeFail (.signOperand op.symbol v.typeName line)

/-- An operator on two numbers. -/
def applyNumeric (op : BinaryOp) (x y : Binary64) (line : Int) : Play σ μ Value :=
  match op with
  | .gt => return .boolean (y.less x)
  | .lt => return .boolean (x.less y)
  | .ge => return .boolean (y.lessEq x)
  | .le => return .boolean (x.lessEq y)
  | .add => return .number (x.add y)
  | .sub => return .number (x.sub y)
  | .mul => return .number (x.mul y)
  | .div =>
    if y.isZero then failOn .interpreter (.zeroDivisor (.quotient line))
    else return .number (x.div y)
  | .mod =>
    if y.isZero then failOn .interpreter (.zeroDivisor (.remainder line))
    else return .number (x.rem y)
  | op => typeFail (.unknownOperator op.symbol)

def applyLogical (op : BinaryOp) (left right : Value) (line : Int) : Play σ μ Value :=
  match left, right with
  | .boolean a, .boolean b => return .boolean (if op = .and then a && b else a || b)
  | l, r => typeFail (.operands op.symbol "Booleans" l.typeName r.typeName line)

def applyBinary (op : BinaryOp) (left right : Value) (line : Int) : Play σ μ Value :=
  match op with
  | .and | .or => applyLogical op left right line
  | .eq => return .boolean (left.equals right)
  | .ne => return .boolean (!left.equals right)
  | op =>
    if op = .add ∧ (left.isString ∨ right.isString) then return .string (left.text ++ right.text)
    else
      match left, right with
      | .number x, .number y => applyNumeric op x y line
      | l, r => typeFail (.operands op.symbol "Numbers" l.typeName r.typeName line)

/-- The text of an expression in lenient text: an undefined name makes it stand as written. -/
def textOrSource (e : Expr) (x : Play σ μ Value) : Play σ μ String :=
  try return (← x).text
  catch f =>
    if f.isUnresolvedName then do
      let source ← ofExcept (e.source?.map inBraces)
      log .warning .interpreter s!"Rendering {source} as written: {f.message}"
      return source
    else throw f

mutual

def evaluate : Expr → Play σ μ Value
  | .number x _ => return .number x
  | .string s _ => return .string s
  | .boolean b _ => return .boolean b
  | .reference name _ => getVariable host name
  | .unary op e pos => do applyUnary op (← evaluate e) pos.line
  | .binary op l r pos => do
    let left ← evaluate l
    let right ← evaluate r
    applyBinary op left right pos.line
  | .call name args _ _ => do callFunction host name (← evaluateAll args)
  | .interpolated segments _ => return .string (← strictText segments)
  | .braces e pos => typeFail (.notExpression (Expr.braces e pos).kind)
  | .foreign kind => typeFail (.notExpression kind)

def evaluateAll : List Expr → Play σ μ (List Value)
  | [] => return []
  | e :: rest => do
    let v ← evaluate e
    return v :: (← evaluateAll rest)

/-- The text of segments, which any fault in a hole ends. -/
def strictText : List Segment → Play σ μ String
  | [] => return ""
  | .literal text _ :: rest => return text ++ (← strictText rest)
  | .hole e _ :: rest => do
    let text := (← evaluate e).text
    return text ++ (← strictText rest)
  | .stray e :: _ => throw (.lacks e.kind "expression")

end

def lenientText : List Segment → Play σ μ String
  | [] => return ""
  | .literal text _ :: rest => return text ++ (← lenientText rest)
  | .hole e _ :: rest => do
    let text ← textOrSource e (evaluate host e)
    return text ++ (← lenientText rest)
  | .stray e :: _ => throw (.lacks e.kind "expression")

def buildText (strict : Bool) (segments : List Segment) : Play σ μ String :=
  if strict then strictText host segments else lenientText host segments

/-- Evaluates a guard; `what` names it in the fault of one that is no Boolean. -/
def test (what : String) (e : Expr) : Play σ μ Bool := do
  match ← evaluate host e with
  | .boolean b => return b
  | v =>
    let source ← ofExcept e.source?
    typeFail (.guard what source v.typeName e.pos.line)

/-- The new value of a variable that a command updates. -/
def updated (op : VarOp) (name : String) (x y : Binary64) (line : Int) : Play σ μ Binary64 :=
  let divisor (result : Binary64) : Play σ μ Binary64 :=
    if y.isZero then failOn .interpreter (.zeroDivisor (.update op.label name line))
    else return result
  match op with
  | .set => return y
  | .add => return x.add y
  | .sub => return x.sub y
  | .mul => return x.mul y
  | .div => divisor (x.div y)
  | .mod => divisor (x.rem y)

def assign (name : String) (op : VarOp) (e : Expr) (line : Int) : Play σ μ Unit := do
  let value ← evaluate host e
  if op = .set then setVariable host name value
  else
    let current ← getVariable host name
    match current, value with
    | .number x, .number y => setVariable host name (.number (← updated op name x y line))
    | c, v => typeFail (.update op.label name c.typeName v.typeName line)

/-- The seconds to wait. -/
def waitDuration (e : Expr) (line : Int) : Play σ μ Binary64 := do
  match ← evaluate host e with
  | .number x => return x
  | v => typeFail (.duration v.typeName line)

/-- Runs a command; a jump answers the node to go to. -/
def execute (c : Command) (line : Int) : Play σ μ (Option String) := do
  match c with
  | .assign name op e =>
    assign host name op e line
    return none
  | .call function args =>
    let _ ← callFunction host function (← evaluateAll host args)
    return none
  | .wait e =>
    let _ ← waitDuration host e line
    return none
  | .jump target => return some target

end Play
end Parley
