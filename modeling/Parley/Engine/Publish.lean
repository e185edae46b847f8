import Parley.Engine.World

/-! # Publishing

A notice published while another is dispatched waits in the queue until that one's handlers have
run. A handler's fault is logged and goes no further. -/

namespace Parley

namespace World
variable {σ μ : Type}

/-- The handler of a subscription can still be called. -/
def isLive (host : Host σ μ) (w : World σ μ) (s : Subscription) : Bool :=
  !s.weak || host.owns w.host s.handler || w.keeps s.handler

end World

namespace Play
variable {σ μ : Type} (host : Host σ μ)

def modifyBus (f : Bus → Bus) : Play σ μ Unit :=
  modifyRunner fun r => { r with bus := f r.bus }

def modifyDispatch (f : Dispatch → Dispatch) : Play σ μ Unit :=
  modifyBus fun b => { b with current := b.current.map f }

/-- Marks the notice that is being dispatched as dealt with, so that no other handler gets it. -/
def consume : Play σ μ Unit := modifyDispatch fun d => { d with consumed := true }

def isConsumed : Play σ μ Bool := do
  return ((← get).runner.bus.current.map Dispatch.consumed).getD false

def callHandler (handler : Handle) (n : Notice) : Play σ μ Unit := do
  let seat := (← get).seat
  modifyDispatch fun d => { d with handler := some handler }
  note (.handled seat handler n.kind)
  try host.handle seat handler n
  catch _ => log .error .events s!"Error in event handler for DialogueEvent.{n.kind.label}"

/-- Walks the handlers of a notice from a position on. Answers the positions to remove, the last
one first. -/
def visit (n : Notice) : Nat → Nat → List Nat → Play σ μ (List Nat)
  | 0, _, _ => throw .exhausted
  | fuel + 1, i, gone => do
    let w ← get
    match (w.runner.bus.walked n.kind)[i]? with
    | none => return gone
    | some s =>
      if w.isLive host s then
        callHandler host s.handler n
        let gone := if s.once then i :: gone else gone
        if ← isConsumed then return gone else visit n fuel (i + 1) gone
      else
        modifyDispatch fun d => { d with handler := none }
        visit n fuel (i + 1) (i :: gone)

/-- Takes a notice through its handlers; answers whether one consumed it. -/
def dispatch (n : Notice) : Play σ μ Bool := do
  let entries := (← get).runner.bus.entries n.kind
  modifyBus fun b => { b with current := some { kind := n.kind } }
  let close := fun (gone : List Nat) (w : World σ μ) =>
    { w with runner := { w.runner with bus := w.runner.bus.finish n.kind gone } }
  fun w =>
    match visit host n (host.patience + entries.length + 1) 0 [] w with
    | .ok gone w =>
      let consumed := (w.runner.bus.current.map Dispatch.consumed).getD false
      .ok consumed (close gone w)
    | .error f w => .error f (close [] w)

/-- Dispatches what is queued, the oldest first. -/
def drain : Nat → Play σ μ Unit
  | 0 => throw .exhausted
  | fuel + 1 => do
    match (← get).runner.bus.queue with
    | [] => return ()
    | n :: rest =>
      modifyBus fun b => { b with queue := rest }
      let _ ← dispatch host n
      drain fuel

/-- Publishes a notice; answers whether it has been consumed by now. -/
def publish (n : Notice) : Play σ μ Bool := do
  let w ← get
  note (.published w.seat n)
  if w.runner.bus.current.isSome then
    modifyBus fun b => { b with queue := b.queue ++ [n] }
    return false
  else
    let consumed ← dispatch host n
    drain host (host.patience + 1)
    modifyBus Bus.endRound
    return consumed

/-- How many live subscriptions a kind has. -/
def countHandlers (kind : EventKind) : Play σ μ Nat := do
  let w ← get
  return ((w.runner.bus.entries kind).filter (w.isLive host)).length

end Play
end Parley
