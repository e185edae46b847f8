import Parley.Syntax.Expr
import Parley.Text.Class

/-! # Content of a script -/

namespace Parley

inductive VarOp where
  | set | add | sub | mul | div | mod
deriving DecidableEq, Repr

def VarOp.label : VarOp → String
  | set => "set"
  | add => "add"
  | sub => "sub"
  | mul => "mul"
  | div => "div"
  | mod => "mod"

/-- Names a condition within a set of scripts: its node, and its number among the node's
conditions. -/
structure ConditionKey where
  node : String
  ordinal : Nat
deriving DecidableEq, Repr, Inhabited

structure Speech where
  speaker : String
  emotion : Option String
deriving DecidableEq, Repr

inductive Command where
  | assign (name : String) (op : VarOp) (value : Expr)
  | call (function : String) (args : List Expr)
  | wait (duration : Expr)
  | jump (target : String)
deriving Inhabited

/-- A line to display: spoken dialogue, or narration if nobody speaks. -/
structure Line where
  speech : Option Speech
  text : List Segment
  tags : List String
  pos : Pos
deriving Inhabited

mutual

inductive Content where
  | line (line : Line)
  | choice (choice : Choice)
  | condition (condition : Condition)
  | command (command : Command) (pos : Pos)

structure Choice where
  text : List Segment
  guard : Option Expr
  content : List Content
  pos : Pos

structure Branch where
  test : Expr
  content : List Content
  pos : Pos

structure Condition where
  test : Expr
  thenBranch : List Content
  elifs : List Branch
  elseBranch : Option (List Content)
  key : ConditionKey
  pos : Pos

end

instance : Inhabited Content := ⟨.command (.jump "") {}⟩
instance : Inhabited Choice := ⟨⟨[], none, [], {}⟩⟩
instance : Inhabited Condition := ⟨⟨default, [], [], none, default, {}⟩⟩

/-- No hole, and nothing but white space between the places where one could be. -/
def isBlankText (text : List Segment) : Bool :=
  text.all fun
    | .literal text _ => text.toList.all isSpace
    | .hole .. | .stray _ => false

def Condition.isEmpty (c : Condition) : Bool :=
  c.thenBranch.isEmpty && c.elifs.all (fun branch => branch.content.isEmpty) &&
    c.elseBranch.all List.isEmpty

def Content.pos : Content → Pos
  | .line l => l.pos
  | .choice c => c.pos
  | .condition c => c.pos
  | .command _ pos => pos

namespace Command

def label : Command → String
  | assign .. => "VarCommand"
  | call .. => "CallCommand"
  | wait _ => "WaitCommand"
  | jump _ => "JumpCommand"

end Command

/-- The name of a kind of content. -/
def Content.label : Content → String
  | .line l => if l.speech.isSome then "Dialogue" else "Narration"
  | .choice _ => "Choice"
  | .condition _ => "Condition"
  | .command c _ => c.label

def Segment.expr? : Segment → Option Expr
  | .literal .. => none
  | .hole e _ | .stray e => some e

/-- The expressions of a text. -/
def textExprs (text : List Segment) : List Expr := text.filterMap Segment.expr?

def Command.exprs : Command → List Expr
  | assign _ _ e | wait e => [e]
  | call _ args => args
  | jump _ => []

mutual

/-- The outermost expressions, in reading order. -/
def Content.exprs : Content → List Expr
  | .line l => textExprs l.text
  | .choice ⟨text, guard, content, _⟩ => textExprs text ++ guard.toList ++ contentExprs content
  | .condition ⟨test, thenBranch, elifs, elseBranch, _, _⟩ =>
    test :: contentExprs thenBranch ++ branchExprs elifs ++
      match elseBranch with
      | some content => contentExprs content
      | none => []
  | .command c _ => c.exprs

def contentExprs : List Content → List Expr
  | [] => []
  | c :: rest => c.exprs ++ contentExprs rest

def branchExprs : List Branch → List Expr
  | [] => []
  | ⟨test, content, _⟩ :: rest => test :: contentExprs content ++ branchExprs rest

end

/-- A named section of a script. -/
structure Node where
  name : String
  content : List Content
  pos : Pos := {}
deriving Inhabited

structure Script where
  nodes : List Node := []
deriving Inhabited

namespace Script

def names (s : Script) : List String := s.nodes.map Node.name

def exprs (s : Script) : List Expr := s.nodes.flatMap fun node => contentExprs node.content

def node? (s : Script) (name : String) : Option Node :=
  s.nodes.find? fun node => node.name == name

end Script
end Parley
