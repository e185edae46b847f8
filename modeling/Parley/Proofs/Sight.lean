import Parley.Engine.Session
import Parley.Proofs.Agreement
import Parley.Proofs.Numbering
import Parley.Proofs.Outcome

/-! # Seeing and doing

A step first finds out what comes next, for which guards may have to be evaluated (`sight`), and then does it
(`carryOut`). Some of what comes next only moves the frames; `approach` is the stretch of a call up to the
first thing that is more than that, and the call goes on with it (`advance_eq`). -/

namespace Parley

/-- What comes next for the innermost frame. -/
inductive Sight where
  /-- The end of the outermost frame, or no frame at all. -/
  | finish
  /-- The end of a frame inside another one. -/
  | leave
  | enter (c : Condition)
  /-- A run of choices none of which is live. -/
  | passBy (c : Choice) (run : Nat)
  | menu (live : List Choice) (run : Nat)
  | line (l : Line)
  | command (c : Command) (pos : Pos)

namespace Sight

/-- Nothing happens but that the frames move. -/
def isSilent : Sight → Bool
  | leave | enter _ | passBy .. => true
  | _ => false

/-- The answer to what comes next. -/
def next : Sight → NextContent
  | menu .. => .choice
  | line _ => .content
  | command c _ => c.next
  | _ => .none

/-- The live choices, and how far the frame moves for them. -/
def choices : Sight → List Choice
  | menu live _ => live
  | _ => []

def run : Sight → Nat
  | menu _ run => run
  | _ => 0

end Sight

/-- What a call has come to, and the room that is left for going on. -/
structure Halt where
  sight : Sight
  fuel : Nat
  steps : Nat

namespace World
variable {σ μ : Type}

/-- The runner in front has begun a step. -/
def begun (w : World σ μ) : World σ μ := w.withRunner { w.runner with busy := true }

/-- It has ended the step. -/
def rested (w : World σ μ) : World σ μ := w.withRunner { w.runner with busy := false }

end World

namespace Play
variable {σ μ : Type} (host : Host σ μ)

/-- What the items of a frame show at its index. -/
def seen (f : Frame) (isLast : Bool) (items : Option (List Content)) : Play σ μ Sight :=
  match items.bind fun items => items[f.index]? with
  | none => return if isLast then .finish else .leave
  | some (.condition c) => return .enter c
  | some (.choice c) => do
    let (live, run) ← collectChoices host ((items.getD []).drop f.index)
    return if live.isEmpty then .passBy c run else .menu live run
  | some (.line l) => return .line l
  | some (.command c pos) => return .command c pos

/-- What comes next for the runner. -/
def sight : Play σ μ Sight := do
  match (← runner).stack with
  | [] => return .finish
  | frame :: _ =>
    let items ← frameItems host frame
    seen host frame ((← runner).stack.length = 1) items

/-- Does what comes next; answers whether there is something for the host to see. -/
def carryOut : Sight → Play σ μ Bool
  | .finish => do
    complete host
    return true
  | .leave => do
    popFrame
    return false
  | .enter c => act host (.condition c) []
  | .passBy c run => do
    modifyRunner fun r => r.skip run
    log .debug .runner s!"No live choices at line {c.pos.line}; skipping the menu"
    return false
  | .menu live run => do
    modifyRunner fun r => r.skip run
    openMenu host live
    return true
  | .line l => act host (.line l) []
  | .command c pos => act host (.command c pos) []

theorem stepOnce_eq : stepOnce host = sight host >>= carryOut host := by
  unfold stepOnce sight
  rw [bind_assoc]
  refine bind_congr fun r => ?_
  cases r.stack with
  | nil => rfl
  | cons frame below =>
    simp only [bind_assoc]
    refine bind_congr fun items => ?_
    unfold actIn seen
    cases items.bind fun items => items[frame.index]? with
    | none =>
      simp only [leaveFrame, pure_bind]
      refine bind_congr fun r => ?_
      by_cases hlast : r.stack.length = 1 <;> simp only [hlast] <;> rfl
    | some item =>
      cases item with
      | line | condition => rfl
      | command c pos => cases c <;> rfl
      | choice c =>
        simp only [act, bind_assoc, pure_bind]
        refine bind_congr fun collected => ?_
        split <;> rfl

/-- Steps silently to the next thing to do; there is none if the session has ended or a menu is open. -/
def approachFrom : Nat → Nat → Play σ μ (Option Halt)
  | 0, _ => throw .exhausted
  | fuel + 1, steps => do
    let r ← runner
    if r.session.isNone ∨ !r.menu.isEmpty then return none
    let limit := (← runnerConfig).maxSteps
    if limit ≤ steps then failLimit limit
    else
      let s ← sight host
      if s.isSilent then do
        let _ ← carryOut host s
        approachFrom fuel (steps + 1)
      else return some ⟨s, fuel, steps⟩

/-- Does what the call has come to, and goes on. -/
def proceed : Option Halt → Play σ μ Unit
  | none => return ()
  | some halt => do
    if ← carryOut host halt.sight then return () else advanceFrom host halt.fuel (halt.steps + 1)

theorem carryOut_silent {s : Sight} (h : s.isSilent) (x y : Play σ μ Unit) :
    (carryOut host s >>= fun stop => if stop then x else y) = carryOut host s >>= fun _ => y := by
  cases s with
  | leave | enter | passBy => simp [carryOut, act]
  | finish | menu | line | command => cases h

/-- A wait gives control back to the host. -/
theorem carryOut_wait {host : Host σ μ} {e : Expr} {pos : Pos} {w z : World σ μ} {stop : Bool}
    (hrun : carryOut host (.command (.wait e) pos) w = .ok stop z) : stop = true := by
  obtain ⟨duration, v, -, hrun⟩ := bind_ok hrun
  obtain ⟨_, v, -, hrun⟩ := bind_ok hrun
  obtain ⟨_, v, -, hrun⟩ := bind_ok hrun
  cases hrun
  rfl

theorem failLimit_eq {α : Type} {w : World σ μ} {node : Option String}
    (hw : w.runner.currentNode = .ok node) (limit : Nat) :
    (failLimit limit : Play σ μ α) w =
      .error (.limit limit node) (w.noting (.logged ⟨.error, .runner, Fault.message (.limit limit node)⟩)) := by
  rw [failLimit, run_bind_ok (show runner w = .ok w.runner w from rfl), hw]
  rfl

theorem failLimit_bind {α β : Type} (limit : Nat) (f : α → Play σ μ β) :
    failLimit limit >>= f = failLimit limit := by
  unfold failLimit
  rw [bind_assoc]
  refine bind_congr fun r => ?_
  rw [bind_assoc]
  exact bind_congr fun node => rfl

theorem advanceFrom_eq (fuel steps : Nat) :
    advanceFrom host fuel steps = approachFrom host fuel steps >>= proceed host := by
  induction fuel generalizing steps with
  | zero => rfl
  | succ fuel ih =>
    unfold advanceFrom approachFrom
    rw [bind_assoc]
    refine bind_congr fun r => ?_
    split
    · rfl
    · rw [bind_assoc]
      refine bind_congr fun c => ?_
      dsimp only
      split
      · exact (failLimit_bind _ _).symm
      · rw [stepOnce_eq, bind_assoc, bind_assoc]
        refine bind_congr fun s => ?_
        split
        · next hs => rw [carryOut_silent host hs, ih, bind_assoc]
        · rfl

/-- One round of the loop. -/
theorem advanceFrom_succ (fuel steps : Nat) (w : World σ μ) :
    advanceFrom host (fuel + 1) steps w =
      (if w.runner.session.isNone ∨ !w.runner.menu.isEmpty then pure ()
      else if w.runnerConfig.maxSteps ≤ steps then failLimit w.runnerConfig.maxSteps
      else do
        let s ← sight host
        let stop ← carryOut host s
        if stop then pure () else advanceFrom host fuel (steps + 1) : Play σ μ Unit) w := by
  rw [advanceFrom, run_bind_ok (show runner w = .ok w.runner w from rfl)]
  split
  · rfl
  · rw [run_bind_ok (show runnerConfig w = .ok w.runnerConfig w from rfl), stepOnce_eq, bind_assoc]

/-- What a call does before it acts. -/
def approach : Play σ μ (Option Halt) := do
  modifyRunner fun r => { r with wait := none }
  approachFrom host (← loopFuel host) 0

theorem ensuring_congr {α : Type} {x y : Play σ μ α} {w w' : World σ μ} (h : x w = y w')
    (f : World σ μ → World σ μ) :
    x.ensuring f w = y.ensuring f w' := by
  rw [ensuring, h, ensuring]

theorem ensuring_ok {α : Type} {x : Play σ μ α} {f : World σ μ → World σ μ} {w z : World σ μ} {a : α}
    (h : x.ensuring f w = .ok a z) : ∃ v, x w = .ok a v ∧ z = f v := by
  unfold ensuring at h
  split at h
  · cases h
    exact ⟨_, ‹_›, rfl⟩
  · cases h

theorem ensuring_id {α : Type} (x : Play σ μ α) : x.ensuring id = x := by
  funext w
  unfold ensuring
  cases x w <;> rfl

theorem busyStep_eq (x : Play σ μ Unit) (w : World σ μ) :
    busyStep x w = x.ensuring World.rested w.begun := rfl

theorem busyStep_error {x : Play σ μ Unit} {w v : World σ μ} {f : Fault} (h : x w.begun = .error f v) :
    busyStep x w = .error f v.rested := by
  rw [busyStep_eq, ensuring, h]

theorem advance_eq : advance host = approach host >>= proceed host := by
  unfold advance approach
  simp only [bind_assoc, advanceFrom_eq]

end Play
end Parley
