import Parley.Host.Operation

/-! # Host code

Host code is a tree: it looks at the world, keeps a state of its own, writes marks into the journal
and asks for operations at any seat. `Host.ofBehaviour` lets the engine run such code, and lets the
code's operations run it again, down to a given depth. -/

namespace Parley

inductive Code (σ μ α : Type) where
  | pure (a : α)
  | fail (f : Fault)
  | look (next : World σ μ → Code σ μ α)
  | keep (s : σ) (next : Code σ μ α)
  | mark (m : μ) (next : Code σ μ α)
  | ask (seat : Nat) (op : Operation) (next : Except Fault Answer → Code σ μ α)

namespace Code
variable {σ μ α β : Type}

def bind : Code σ μ α → (α → Code σ μ β) → Code σ μ β
  | .pure a, f => f a
  | .fail e, _ => .fail e
  | .look next, f => .look fun w => (next w).bind f
  | .keep s next, f => .keep s (next.bind f)
  | .mark m next, f => .mark m (next.bind f)
  | .ask seat op next, f => .ask seat op fun a => (next a).bind f

instance : Monad (Code σ μ) where
  pure := Code.pure
  bind := Code.bind

/-- Runs to the end and answers the fault that stopped it, if one did. -/
def attempt : Code σ μ α → Code σ μ (Except Fault α)
  | .pure a => .pure (.ok a)
  | .fail e => .pure (.error e)
  | .look next => .look fun w => (next w).attempt
  | .keep s next => .keep s next.attempt
  | .mark m next => .mark m next.attempt
  | .ask seat op next => .ask seat op fun a => (next a).attempt

def world : Code σ μ (World σ μ) := .look .pure

def state : Code σ μ σ := .look fun w => .pure w.host

def setState (s : σ) : Code σ μ Unit := .keep s (.pure ())

def say (m : μ) : Code σ μ Unit := .mark m (.pure ())

/-- Asks for an operation; a fault of it stops the code too. -/
def request (seat : Nat) (op : Operation) : Code σ μ Answer :=
  .ask seat op fun
    | .ok a => .pure a
    | .error f => .fail f

/-- Runs code, with the given meaning of operations. -/
def run (perform : Operation → Play σ μ Answer) : Code σ μ α → Play σ μ α
  | .pure a => return a
  | .fail f => throw f
  | .look next => do (next (← get)).run perform
  | .keep s next => do
    modify fun w => { w with host := s }
    next.run perform
  | .mark m next => do
    Play.note (.marked m)
    next.run perform
  | .ask seat op next => fun w =>
    match Play.onSeat seat (perform op) w with
    | .ok a w => (next (.ok a)).run perform w
    | .error f w => (next (.error f)).run perform w

end Code

/-- The code of a host, by handle. -/
structure Behaviour (σ μ : Type) where
  read : Handle → Code σ μ Native
  write : Handle → Native → Code σ μ Unit
  call : Handle → List Native → Code σ μ Native
  callRaw : Handle → List Value → Code σ μ Native
  handle : Nat → Handle → Notice → Code σ μ Unit
  owns : σ → Handle → Bool

/-- A host whose code may be nested up to a depth; beyond it a call fails. -/
def Host.ofBehaviour {σ μ : Type} (b : Behaviour σ μ) (patience : Nat) : Nat → Host σ μ
  | 0 =>
    { read := fun _ => throw .exhausted
      write := fun _ _ => throw .exhausted
      call := fun _ _ => throw .exhausted
      callRaw := fun _ _ => throw .exhausted
      handle := fun _ _ _ => throw .exhausted
      owns := b.owns
      patience }
  | depth + 1 =>
    { read := fun h => (b.read h).run fun op => Play.perform (ofBehaviour b patience depth) op
      write := fun h v => (b.write h v).run fun op => Play.perform (ofBehaviour b patience depth) op
      call := fun h args =>
        (b.call h args).run fun op => Play.perform (ofBehaviour b patience depth) op
      callRaw := fun h args =>
        (b.callRaw h args).run fun op => Play.perform (ofBehaviour b patience depth) op
      handle := fun seat h n =>
        (b.handle seat h n).run fun op => Play.perform (ofBehaviour b patience depth) op
      owns := b.owns
      patience }

end Parley
