import Parley.Engine.Session

/-! # Telling a script

The direct reading of a script: a list of content is told item by item, by recursion on the script, with what comes
after it as a continuation. Nothing here has a place in the script; all that is kept is what the host still does and
how far the call has come (`Course`). `drive` is what is compared with it: a host that goes on with a runner as long as
it can. -/

namespace Parley

/-- The calls that the host still makes after the one that is going on, what it picks from the menus, and the room
and the number of the steps of the call. -/
structure Course where
  calls : Nat
  picks : List Int
  fuel : Nat := 0
  steps : Nat := 0

/-- What there is to tell from some point on. -/
abbrev Tale (σ μ : Type) := Course → Play σ μ Unit

namespace Tale
variable {σ μ : Type} (host : Host σ μ)

/-- Goes on with another step of the call, if the call may take one. -/
def step (node : String) (k : Tale σ μ) : Tale σ μ := fun c =>
  match c.fuel with
  | 0 => throw .exhausted
  | fuel + 1 => do
    let limit := (← Play.runnerConfig).maxSteps
    if limit ≤ c.steps then Play.failOn .runner (.limit limit (some node)) else k { c with fuel, steps := c.steps + 1 }

/-- Goes on in a new call. -/
def fresh (k : Tale σ μ) : Tale σ μ := fun c => do k { c with fuel := ← Play.loopFuel host, steps := 0 }

/-- There is something for the host to see; if it makes another call, that goes on. -/
def pause (k : Tale σ μ) : Tale σ μ := fun c =>
  match c.calls with
  | 0 => return ()
  | calls + 1 => fresh host k { c with calls }

/-- The choices whose guards hold, with what follows each. -/
def liveAmong : List (Choice × Tale σ μ) → Play σ μ (List (Choice × Tale σ μ))
  | [] => return []
  | (c, k) :: rest => do
    let isLive ← match c.guard with
      | none => pure true
      | some e => Play.test host "choice condition" e
    let live ← liveAmong rest
    return if isLive then (c, k) :: live else live

/-- The host picks from an open menu, if it makes another call. -/
def pick (menu : List (Choice × Tale σ μ)) : Tale σ μ := fun c =>
  match c.calls, c.picks with
  | 0, _ | _, [] => return ()
  | calls + 1, i :: picks =>
    match if i < 0 then none else menu[i.toNat]? with
    | none => Play.refuse (.choiceRange i menu.length)
    | some (choice, k) => do
      let _ ← Play.publish host (.selected choice i.toNat)
      fresh host k { c with calls, picks }

/-- A menu of the live choices; none if there are none. -/
def offer (choices : List (Choice × Tale σ μ)) (after : Tale σ μ) : Tale σ μ := fun c => do
  let live ← liveAmong host choices
  if live.isEmpty then after c
  else
    let texts ← Play.renderAll host (live.map Prod.fst)
    let _ ← Play.publish host (.menuOpened (live.map Prod.fst) texts)
    pick host live c

/-- A command other than a wait. -/
def command (goto : Node → Tale σ μ) (cmd : Command) (pos : Pos) (after : Tale σ μ) :
    Tale σ μ := fun c => do
  match ← Play.execute host cmd pos.line with
  | some target =>
    let n ← Play.getNode target
    let _ ← Play.publish host (.entered n.name)
    step n.name (goto n) c
  | none => after c

def wait (e : Expr) (pos : Pos) (after : Tale σ μ) : Tale σ μ := fun c => do
  let duration ← Play.waitDuration host e pos.line
  let _ ← Play.publish host (.waiting duration)
  pause host after c

def line (l : Line) (after : Tale σ μ) : Tale σ μ := fun c => do
  Play.display host l
  pause host after c

/-- Goes on with one of two by a guard. -/
def test (what : String) (e : Expr) (k k' : Tale σ μ) : Tale σ μ := fun c => do
  if ← Play.test host what e then k c else k' c

/-- The session is over. -/
def finish (id : SessionId) : Tale σ μ := fun _ => do
  let _ ← Play.publish host (.completed (some id))

end Tale

open Tale in
mutual

/-- An item, and then `after`; for a choice, what it leads to if it is picked. `goto` tells the node that a jump leads
to, and `node` is the name of the one that the item is in. -/
def Content.tell {σ μ : Type} (host : Host σ μ) (node : String) (goto : Node → Tale σ μ) :
    Content → (after : Tale σ μ) → Tale σ μ
  | .line l, after => line host l after
  | .command (.wait e) pos, after => wait host e pos after
  | .command cmd pos, after => command host goto cmd pos after
  | .choice ⟨_, _, content, _⟩, after => if content.isEmpty then after else step node (tellAll host node goto false content after)
  | .condition ⟨test, thenBranch, elifs, elseBranch, _, _⟩, after =>
    step node (Tale.test host "if condition" test (tellAll host node goto false thenBranch after)
      (tellElifs host node goto elifs
        (match elseBranch with
          | some items => tellAll host node goto false items after
          | none => after)
        after))

/-- Items in order, and then `k`. A run of choices is told at its first choice; behind that one, `inRun` says that the
rest of the run is passed over. -/
def tellAll {σ μ : Type} (host : Host σ μ) (node : String) (goto : Node → Tale σ μ) :
    (inRun : Bool) → List Content → (k : Tale σ μ) → Tale σ μ
  | _, [], k => k
  | true, .choice _ :: rest, k => tellAll host node goto true rest k
  | false, .choice c :: rest, k =>
    let after := step node (tellAll host node goto true rest k)
    offer host ((c, (Content.choice c).tell host node goto after) :: tellRun host node goto rest after) after
  | _, item :: rest, k => item.tell host node goto (step node (tellAll host node goto false rest k))

def tellElifs {σ μ : Type} (host : Host σ μ) (node : String) (goto : Node → Tale σ μ) :
    List Branch → (otherwise after : Tale σ μ) → Tale σ μ
  | [], otherwise, _ => otherwise
  | ⟨test, content, _⟩ :: rest, otherwise, after =>
    Tale.test host "elif condition" test (tellAll host node goto false content after)
      (tellElifs host node goto rest otherwise after)

/-- The rest of a run of choices, each with what it leads to. -/
def tellRun {σ μ : Type} (host : Host σ μ) (node : String) (goto : Node → Tale σ μ) :
    List Content → (after : Tale σ μ) → List (Choice × Tale σ μ)
  | .choice c :: rest, after => (c, (Content.choice c).tell host node goto after) :: tellRun host node goto rest after
  | _, _ => []

end

section
variable {σ μ : Type} (host : Host σ μ)

/-- Items of a node, where at most so many jumps may follow; a jump leaves everything behind. -/
def tellNode (id : SessionId) : (jumps : Nat) → Node → List Content → Tale σ μ
  | 0, _, _ => fun _ => throw .exhausted
  | jumps + 1, n, items =>
    tellAll host n.name (fun m => tellNode id jumps m m.content) false items (Tale.finish host id)

/-- A session from an item of a node on. -/
def tellSession (jumps : Nat) (n : Node) (name : String) (index : Nat) : Tale σ μ := fun c => do
  modify fun w => { w with sessions := w.sessions + 1 }
  let id := (← get).sessions
  let _ ← Play.publish host (.started id name)
  let _ ← Play.publish host (.entered name)
  Tale.fresh host (Tale.step n.name (tellNode host id jumps n (n.content.drop index))) c

/-- Goes on with a runner for as many calls, picking from the menus in turn. -/
def drive : Nat → List Int → Play σ μ Unit
  | 0, _ => return ()
  | calls + 1, picks => do
    match (← Play.runner).state, picks with
    | .idle, _ | .awaitingChoice, [] => return ()
    | .active, picks => do
      Play.resume host
      drive calls picks
    | .awaitingChoice, i :: picks => do
      Play.select host i
      drive calls picks

end
end Parley
