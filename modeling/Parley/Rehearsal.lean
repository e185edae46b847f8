import Parley.Rehearsal.Perform

/-! # Rehearsals

A rehearsal sets up a context with runners at seats and takes them through cues, one after the
other. Each cue answers what its step came to, what went into the journal meanwhile, and how the
runner stands afterwards. -/

namespace Parley

/-- What a cue came to. -/
structure Outcome where
  result : Except Fault Reply
  /-- In the order of writing. -/
  journal : List (Entry Mark)
  snapshot : Except Fault Snapshot

namespace Rehearsal

/-- How far host code may prolong a loop, and how deep it may be nested. -/
def patience : Nat := 1000000000

def host : Host Stage Mark := .ofBehaviour Stage.behaviour patience patience

def run {α : Type} (x : Scene α) (w : World Stage Mark) : Except Fault α × World Stage Mark :=
  match x.run (Play.perform host) w with
  | .ok a w => (.ok a, w)
  | .error f w => (.error f, w)

/-- A context with the built-in functions that its configuration asks for, and a runner at each
seat; one without a configuration of its own shares that of the context. -/
def opened (config : Config) (seats : List (Option Config)) : World Stage Mark :=
  let runners := (seats.map fun config => ({ config } : Runner)).zipIdx
  let w : World Stage Mark := {
    config
    runner := (runners.head?.map Prod.fst).getD {}
    wings := runners.tail.map fun (r, seat) => (seat, r)
    host := {} }
  if config.builtins then
    match (Play.addBuiltins Builtin.all : Play Stage Mark Unit) w with
    | .ok _ w | .error _ w => w
  else w

/-- Takes the world through a cue and empties the journal. -/
def perform (w : World Stage Mark) (c : Cue) : Outcome × World Stage Mark :=
  let (result, w) := run (Scene.perform c.seat c.step) w
  (⟨result, w.journal.reverse, (w.runnerAt c.seat).snapshot⟩, { w with journal := [] })

/-- Performs cues in order. -/
def performAll (w : World Stage Mark) : List Cue → List Outcome
  | [] => []
  | c :: rest =>
    let (outcome, w) := perform w c
    outcome :: performAll w rest

end Rehearsal
end Parley
