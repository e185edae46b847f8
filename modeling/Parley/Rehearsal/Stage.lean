import Parley.Rehearsal.Function

/-! # The stage

What a rehearsal keeps while it runs: the cells behind host variables, the pieces of host code that
it has handed out, the handlers that it holds by name, and its files. -/

namespace Parley

inductive Piece where
  /-- Reads and writes the cell of a name. -/
  | cell (name : String)
  | function (kind : FunctionKind) (calls : Nat)
  | handler (id : String) (actions : List Action) (times calls : Nat) (isMethod : Bool)

structure Stage where
  cells : Table Cell := {}
  /-- Host code by handle. -/
  pieces : List Piece := []
  /-- The handlers that the rehearsal holds. -/
  handlers : Table Handle := {}
  files : FileTree := {}

/-- What a scripted action came to. -/
inductive Mark where
  | did (step : String) (outcome : Except Fault Reply)

namespace Stage

def piece? (s : Stage) (h : Handle) : Option Piece := s.pieces[h]?

/-- Hands out a new piece of code. -/
def addPiece (s : Stage) (p : Piece) : Handle × Stage :=
  (s.pieces.length, { s with pieces := s.pieces ++ [p] })

def setPiece (s : Stage) (h : Handle) (p : Piece) : Stage := { s with pieces := s.pieces.set h p }

/-- The rehearsal itself keeps the owner of a handler alive. -/
def owns (s : Stage) (h : Handle) : Bool := s.handlers.entries.any fun e => e.2 == h

def isTraced (s : Stage) (h : Handle) : Bool :=
  match s.piece? h with
  | some (.function kind _) => kind.isTraced
  | _ => true

def handlerId (s : Stage) (h : Handle) : String :=
  match s.piece? h with
  | some (.handler id ..) => id
  | _ => ""

def isMethod (s : Stage) (h : Handle) : Bool :=
  match s.piece? h with
  | some (.handler _ _ _ _ isMethod) => isMethod
  | _ => false

end Stage
end Parley
