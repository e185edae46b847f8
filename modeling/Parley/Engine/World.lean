import Parley.Engine.Registry
import Parley.Fault

/-! # The world of a dialogue

One context is shared by any number of runners. The engine works for the runner in front; `turnTo`
brings another one there. Whatever the outside can notice goes into the journal: what was published
and logged, every name that was looked up, and every crossing into host code. The type `σ` is the
host's own state, `μ` what the host writes into the journal. -/

namespace Parley

/-- What a runner walks through. -/
inductive Container where
  | node (n : Node)
  | choice (c : Choice)
  | condition (c : Condition)
deriving Inhabited

/-- A place in a container; `index` is that of the item to run next. -/
structure Frame where
  container : Container
  index : Nat := 0

/-- The branch that one visit of a condition takes. -/
inductive Branching where
  | thenBranch
  | elifBranch (index : Nat)
  | elseBranch
  | none
deriving DecidableEq, Repr

abbrev Memo := List (ConditionKey × Branching)

namespace Memo

def forget (m : Memo) (key : ConditionKey) : Memo := m.filter fun entry => entry.1 != key

def record (m : Memo) (key : ConditionKey) (b : Branching) : Memo := (key, b) :: m.forget key

end Memo

structure Runner where
  /-- Its own configuration; without one it shares that of the context. -/
  config : Option Config := none
  /-- The innermost frame first. -/
  stack : List Frame := []
  memo : Memo := []
  /-- The choices of the open menu. -/
  menu : List Choice := []
  session : Option SessionId := none
  /-- The duration that the last step asked to wait. -/
  wait : Option Binary64 := none
  busy : Bool := false
  bus : Bus := {}

inductive RunnerState where
  | idle
  | active
  | awaitingChoice
deriving DecidableEq, Repr

namespace RunnerState

def label : RunnerState → String
  | idle => "IDLE"
  | active => "ACTIVE"
  | awaitingChoice => "AWAITING_CHOICE"

end RunnerState

namespace Runner

def state (r : Runner) : RunnerState :=
  if r.session.isNone then .idle else if r.menu.isEmpty then .active else .awaitingChoice

/-- The name of the node that the outermost frame is in; only nodes have names. -/
def currentNode (r : Runner) : Except Fault (Option String) :=
  match r.stack.getLast? with
  | none => .ok none
  | some ⟨.node n, _⟩ => .ok (some n.name)
  | some ⟨.choice c, _⟩ => .error (.lacks (Content.choice c).label "name")
  | some ⟨.condition c, _⟩ => .error (.lacks (Content.condition c).label "name")

/-- Forgets the session and everything that belongs to it. -/
def reset (r : Runner) : Runner :=
  { r with stack := [], memo := [], menu := [], session := none, wait := none }

end Runner

inductive Entry (μ : Type) where
  | published (seat : Nat) (notice : Notice)
  | logged (record : LogRecord)
  | handled (seat : Nat) (handler : Handle) (kind : EventKind)
  /-- A variable was looked up. -/
  | read (name : String)
  /-- A function was called by name, whatever became of the call. -/
  | applied (name : String) (args : List Value)
  | wrote (name : String) (value : Native)
  | called (name : String) (code : Handle) (args : List Native)
  | calledRaw (name : String) (code : Handle) (args : List Value)
  | marked (mark : μ)

structure World (σ μ : Type) where
  config : Config := {}
  vars : Variables := {}
  functions : Table FunctionEntry := {}
  nodes : Table Node := {}
  /-- The seat of the runner in front. -/
  seat : Nat := 0
  runner : Runner := {}
  /-- The runners at the other seats. -/
  wings : List (Nat × Runner) := []
  /-- How many sessions have been started. -/
  sessions : Nat := 0
  /-- The latest entry first. -/
  journal : List (Entry μ) := []
  host : σ

namespace World
variable {σ μ : Type}

/-- Brings the runner of a seat to the front; an empty seat changes nothing. -/
def turnTo (w : World σ μ) (seat : Nat) : World σ μ :=
  if seat = w.seat then w
  else
    match w.wings.lookup seat with
    | none => w
    | some r =>
      { w with
        seat, runner := r, wings := (w.seat, w.runner) :: w.wings.filter fun e => e.1 != seat }

/-- The configuration that the runner in front goes by. -/
def runnerConfig (w : World σ μ) : Config := w.runner.config.getD w.config

def setRunnerConfig (w : World σ μ) (c : Config) : World σ μ :=
  match w.runner.config with
  | some _ => { w with runner := { w.runner with config := some c } }
  | none => { w with config := c }

/-- The runner of a seat. -/
def runnerAt (w : World σ μ) (seat : Nat) : Runner :=
  if seat = w.seat then w.runner else (w.wings.lookup seat).getD {}

/-- Some bus keeps the handler alive. -/
def keeps (w : World σ μ) (h : Handle) : Bool :=
  w.runner.bus.keeps h || w.wings.any fun e => e.2.bus.keeps h

end World

/-- A computation that a fault can stop; what was done before the fault stays done. -/
abbrev Play (σ μ : Type) := EStateM Fault (World σ μ)

/-- Host code as the engine calls it. -/
structure Host (σ μ : Type) where
  read : Handle → Play σ μ Native
  write : Handle → Native → Play σ μ Unit
  call : Handle → List Native → Play σ μ Native
  callRaw : Handle → List Value → Play σ μ Native
  handle : Nat → Handle → Notice → Play σ μ Unit
  /-- The host keeps the owner of a handler alive. -/
  owns : σ → Handle → Bool
  /-- How far loops that host code can prolong may run beyond their ordinary bound. -/
  patience : Nat

namespace Play
variable {σ μ : Type}

def note (e : Entry μ) : Play σ μ Unit :=
  modify fun w => { w with journal := e :: w.journal }

def log (level : LogLevel) (channel : LogChannel) (message : String) : Play σ μ Unit :=
  note (.logged ⟨level, channel, message⟩)

/-- Logs a fault as an error and raises it. -/
def failOn {α : Type} (channel : LogChannel) (f : Fault) : Play σ μ α := do
  log .error channel f.message
  throw f

def runner : Play σ μ Runner := do return (← get).runner

def modifyRunner (f : Runner → Runner) : Play σ μ Unit :=
  modify fun w => { w with runner := f w.runner }

def runnerConfig : Play σ μ Config := do return (← get).runnerConfig

/-- The script value of what the host handed over. -/
def convert (v : Native) : Play σ μ Value :=
  match Value.ofNative v with
  | .ok v => return v
  | .error e => throw (.ofConversion e)

def ofExcept {α : Type} : Except Fault α → Play σ μ α
  | .ok a => return a
  | .error f => throw f

/-- Runs `x` and then `after`, also if `x` fails. -/
def ensuring {α : Type} (x : Play σ μ α) (after : World σ μ → World σ μ) : Play σ μ α := fun w =>
  match x w with
  | .ok a w => .ok a (after w)
  | .error f w => .error f (after w)

/-- Runs with the runner of a seat in front. -/
def onSeat {α : Type} (seat : Nat) (x : Play σ μ α) : Play σ μ α := fun w =>
  (x.ensuring fun after => after.turnTo w.seat) (w.turnTo seat)

end Play
end Parley
