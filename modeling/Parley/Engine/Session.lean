import Parley.Engine.Step

/-! # Sessions

The calls by which a host drives a runner. A call that the state of the runner does not allow fails
before it changes anything. -/

namespace Parley
namespace Play
variable {σ μ : Type} (host : Host σ μ)

def refuse {α : Type} (f : SessionFault) : Play σ μ α := failOn .runner (.session f)

def requireIdleStep (action : String) : Play σ μ Unit := do
  if (← runner).busy then refuse (.busy action)

def requireRunning : Play σ μ Unit := do
  if (← runner).session.isNone then refuse .notRunning

/-- Runs a step, during which the runner is busy. -/
def busyStep (x : Play σ μ Unit) : Play σ μ Unit := do
  modifyRunner fun r => { r with busy := true }
  x.ensuring fun w => { w with runner := { w.runner with busy := false } }

/-- Opens a session with a new number. -/
def openSession (n : Node) (index : Nat) : Play σ μ SessionId := do
  modify fun w => { w with sessions := w.sessions + 1 }
  let id := (← get).sessions
  modifyRunner fun r => { r with session := some id, stack := ⟨.node n, index⟩ :: r.stack }
  return id

/-- Replaces whatever session there is by a new one at an item of a node. -/
def startAt (n : Node) (name : String) (index : Nat) : Play σ μ Unit := do
  modifyRunner Runner.reset
  busyStep do
    let id ← openSession n index
    log .debug .runner s!"Session {sessionName (some id)} started at '{name}'"
    let _ ← publish host (.started id name)
    let _ ← publish host (.entered name)
    advance host

/-- The node to start at: the default one without a name, or with an empty one. -/
def startName (name : Option String) (fallback : String) : String :=
  match name with
  | some n => if n.isEmpty then fallback else n
  | none => fallback

/-- Begins a session. -/
def start (name : Option String) (index : Int) (force : Bool) : Play σ μ Unit := do
  requireIdleStep "start"
  let running := (← runner).session
  if running.isSome ∧ !force then refuse .running
  let name := startName name (← runnerConfig).startNode
  let n ← getNode name
  if index < 0 ∨ n.content.length ≤ index then
    refuse (.contentRange index name n.content.length)
  if running.isSome then
    log .debug .runner s!"Discarding session {sessionName running} for a forced start"
  startAt host n name index.toNat

/-- Goes on to the next thing to see. -/
def resume : Play σ μ Unit := do
  requireIdleStep "continue"
  requireRunning
  if !(← runner).menu.isEmpty then refuse .menuOpen
  busyStep (advance host)

/-- Picks a choice of the open menu by its position. -/
def select (index : Int) : Play σ μ Unit := do
  requireIdleStep "select a choice"
  let menu := (← runner).menu
  if menu.isEmpty then refuse .noMenu
  match if index < 0 then none else menu[index.toNat]? with
  | none => refuse (.choiceRange index menu.length)
  | some choice =>
    busyStep do
      let _ ← publish host (.selected choice index.toNat)
      if (← runner).session.isNone then return ()
      modifyRunner fun r => { r with menu := [] }
      if !choice.content.isEmpty then modifyRunner fun r => r.push (.choice choice)
      advance host

/-- Leaves the current place for another node. -/
def jump (name : String) : Play σ μ Unit := do
  requireIdleStep "jump"
  requireRunning
  let n ← getNode name
  busyStep do
    enterNode host n
    advance host

/-- Ends the session, if one is running; with force also in the middle of a step. -/
def finish (force : Bool) : Play σ μ Unit := do
  let r ← runner
  if r.busy ∧ !force then refuse .endWhileBusy
  if r.session.isNone then log .debug .runner "end() called with no dialogue running"
  else complete host

/-- What the next call would reach. -/
def nextContent : Play σ μ NextContent := do
  let r ← runner
  if r.session.isNone ∨ !r.menu.isEmpty then return .none
  return (← scan host).kind

/-- Changes a setting of the runner's configuration. -/
def configure (name : String) (v : Json) : Play σ μ Unit := do
  match (← runnerConfig).set name v with
  | .ok c => modify fun w => w.setRunnerConfig c
  | .error f => throw (.ofSetting f)

end Play
end Parley
