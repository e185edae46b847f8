import Parley.Event.Notice

/-! # Event buses

A bus lists its subscriptions by kind, higher priorities first and older ones first among equals.
While a notice is dispatched its list is walked by position: what is inserted meanwhile shifts the
rest. Removing or clearing subscriptions meanwhile leaves the walked list as it was and gives the
bus another one. A list that has been walked is kept until the round of publishing ends, and so are
the handlers on it. -/

namespace Parley

/-- Names a piece of host code. -/
abbrev Handle := Nat

structure Subscription where
  priority : Int
  handler : Handle
  /-- Ends with the first call. -/
  once : Bool
  /-- Does not keep the handler's owner alive. -/
  weak : Bool
deriving DecidableEq, Repr

/-- A notice on its way through its handlers. -/
structure Dispatch where
  kind : EventKind
  consumed : Bool := false
  /-- The list that is walked, once the bus has another one. -/
  detached : Option (List Subscription) := none
  /-- The handler that was called last. -/
  handler : Option Handle := none
deriving DecidableEq, Repr

structure Bus where
  lists : List (EventKind × List Subscription) := []
  queue : List Notice := []
  current : Option Dispatch := none
  /-- Handlers whose owners live until this round of publishing ends: the last one of each dispatch,
  and those on walked lists that the bus no longer has. -/
  held : List Handle := []
  /-- The kinds whose present lists have been walked in this round. -/
  walkedKinds : List EventKind := []

/-- Puts a subscription in front of the first one of lower priority. -/
def insertSubscription (s : Subscription) : List Subscription → List Subscription
  | [] => [s]
  | t :: rest => if t.priority < s.priority then s :: t :: rest else t :: insertSubscription s rest

/-- Removes entries by position, in the order given. -/
def removePositions (positions : List Nat) (entries : List Subscription) : List Subscription :=
  positions.foldl (fun entries i => entries.eraseIdx i) entries

/-- The handlers that a list keeps alive. -/
def strongHandlers (entries : List Subscription) : List Handle :=
  (entries.filter fun s => !s.weak).map Subscription.handler

namespace Bus

def entries (b : Bus) (kind : EventKind) : List Subscription := (b.lists.lookup kind).getD []

def setEntries (b : Bus) (kind : EventKind) (entries : List Subscription) : Bus :=
  { b with lists := (kind, entries) :: b.lists.filter fun l => l.1 != kind }

/-- Notes that the list of a kind, which is about to be replaced, outlives that: the running
dispatch walks it, or an earlier one of this round did. -/
def detach (b : Bus) (kind : EventKind) : Bus :=
  let entries := b.entries kind
  let walkedKinds := b.walkedKinds.filter (· != kind)
  match b.current.filter fun d => d.kind == kind && d.detached.isNone with
  | some d => { b with current := some { d with detached := some entries }, walkedKinds }
  | none =>
    if b.walkedKinds.contains kind then
      { b with held := strongHandlers entries ++ b.held, walkedKinds }
    else b

def subscribe (b : Bus) (kind : EventKind) (s : Subscription) : Bus :=
  b.setEntries kind (insertSubscription s (b.entries kind))

def unsubscribe (b : Bus) (kind : EventKind) (handler : Handle) : Bus :=
  if (b.lists.lookup kind).isNone then b
  else (b.detach kind).setEntries kind ((b.entries kind).filter fun s => s.handler != handler)

/-- Forgets the subscriptions of one kind, or all. -/
def clear (b : Bus) (kind : Option EventKind) : Bus :=
  match kind with
  | some kind =>
    let b := b.detach kind
    { b with lists := b.lists.filter fun l => l.1 != kind }
  | none => { b.lists.foldl (fun b l => b.detach l.1) b with lists := [] }

/-- The list that the running dispatch walks. -/
def walked (b : Bus) (kind : EventKind) : List Subscription :=
  ((b.current.bind Dispatch.detached)).getD (b.entries kind)

/-- Ends a dispatch: takes the entries at the given positions out of the walked list. -/
def finish (b : Bus) (kind : EventKind) (positions : List Nat) : Bus :=
  match b.current with
  | none => b
  | some d =>
    let b := { b with current := none, held := d.handler.toList ++ b.held }
    match d.detached, b.lists.lookup kind with
    | some entries, _ =>
      { b with held := strongHandlers (removePositions positions entries) ++ b.held }
    | none, some entries =>
      let b := if positions.isEmpty then b
        else b.setEntries kind (removePositions positions entries)
      { b with walkedKinds := kind :: b.walkedKinds.filter (· != kind) }
    | none, none => b

/-- Ends a round of publishing. -/
def endRound (b : Bus) : Bus := { b with held := [], walkedKinds := [] }

/-- All subscriptions that the bus knows of, walked lists included. -/
def everyEntry (b : Bus) : List Subscription :=
  b.lists.flatMap Prod.snd ++ ((b.current.bind Dispatch.detached)).getD []

/-- Handlers whose owners the bus keeps alive by itself. -/
def keeps (b : Bus) (h : Handle) : Bool :=
  (strongHandlers b.everyEntry).contains h || b.held.contains h ||
    (b.current.bind Dispatch.handler) == some h

end Bus
end Parley
