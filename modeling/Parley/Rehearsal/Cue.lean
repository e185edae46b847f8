import Parley.Host.Code

/-! # Cues

A rehearsal drives runners by a list of cues. Cues also stand in the functions and handlers that it
sets up, so that host code can be written down as data. -/

namespace Parley

/-- What scripted code holds ready: a value, or an error to raise. -/
inductive Holding where
  | value (v : Native)
  | failing (text : String)
deriving Inhabited

/-- A native value with the form in which it was given, if it was given from outside. -/
structure Cell where
  holding : Holding
  asGiven : Option Json

/-- An expression, as text or as a tree. -/
inductive ExprSource where
  | text (source : String)
  | tree (e : Expr)

mutual

inductive Step where
  | script (source : String)
  | load (source origin : String)
  | loadFolder (files : List (String × FileEntry)) (folder : String)
      (config : Option (List (String × Json)))
  | loadFile (files : List (String × FileEntry)) (path : String)
  | nodes
  | hasNode (name : String)
  | getNode (name : String)
  | clearNodes
  | start (node : Option String) (index : Int) (force : Bool)
  | resume
  | select (index : Int)
  | jump (node : String)
  | finish (force : Bool)
  | next
  | texts
  | state
  | configure (field : String) (value : Json)
  | set (name : String) (value : Native)
  | get (name : String)
  | value (name : String)
  | has (name : String)
  | names
  | describe
  | exportAll
  | importAll (data : Native)
  | clearVariables
  | dump
  | restore (values : List (String × Value))
  | host (name : String) (cell : Cell) (writable : Bool) (description : String)
  | unhost (name : String)
  | setHost (name : String) (cell : Cell)
  | cell (name : String)
  | function (name : String) (kind : FunctionKind) (description : String)
  | removeFunction (name : String)
  | hasFunction (name : String)
  | functions (hidden : List String)
  | call (name : String) (args : List Native)
  | evaluate (e : ExprSource)
  | test (e : ExprSource) (what : String)
  | execute (source : String)
  | wait (source : String)
  | render (source : String)
  | on (id : String) (event : EventKind) (priority : Int) (once weak method : Bool)
      (actions : List Action) (times : Nat)
  | off (id : String) (event : EventKind) (method : Bool) (actions : List Action) (times : Nat)
  | drop (id : String)
  | publish (event : EventKind) (data : List (String × Native)) (get item : List String)
  | clearBus (event : Option EventKind)
  | count (event : EventKind)

/-- What a scripted handler or function does when it is called. -/
inductive Action where
  | consume
  | raise (message : String)
  /-- A step under its name. Its outcome is marked, unless its error is let out. -/
  | step (name : String) (seat : Nat) (step : Step) (lets : Bool)

/-- The host functions that a rehearsal can set up. -/
inductive FunctionKind where
  | dice | half | greet | flip | pick | total | mean | roll | either | maybe | anything | untyped
  | odd | items | maximum
  /-- Answers one holding per call, the last one again and again. -/
  | sequence (holdings : List Holding)
  /-- Runs actions in its first calls. -/
  | steps (actions : List Action) (result : Native) (times : Nat)
  | peek | typeOf | first

end

instance : Inhabited Step := ⟨.state⟩

instance : Inhabited Action := ⟨.consume⟩

instance : Inhabited FunctionKind := ⟨.odd⟩

/-- A step for the runner of a seat, under its name. -/
structure Cue where
  name : String
  seat : Nat
  step : Step

/-- A runner seen from outside. -/
structure Snapshot where
  state : RunnerState
  session : Option SessionId
  busy : Bool
  choices : List Pos
  wait : Option Binary64
  node : Option String

/-- How a runner stands, unless it cannot tell the node that it is in. -/
def Runner.snapshot (r : Runner) : Except Fault Snapshot := do
  return ⟨r.state, r.session, r.busy, r.menu.map fun c => c.pos, r.wait, ← r.currentNode⟩

/-- What a step answers. -/
inductive Reply where
  | nothing
  | flag (b : Bool)
  | flags (a b : Bool)
  | count (n : Nat)
  | texts (ts : List String)
  | targets (ts : List (Option String))
  | next (n : NextContent)
  | native (v : Native)
  | value (v : Value)
  | node (n : Node)
  | report (r : LoadReport)
  | snapshot (s : Snapshot)
  | described (entries : List (String × String))
  | functions (names : List String) (described : List (String × Option String))
  | natives (entries : List (String × Native))
  | values (entries : List (String × Value))
  | cell (c : Option Cell)
  | published (consumed : Bool) (got : List Native) (items : List (Except Fault Native))

end Parley
