import Parley.Host.Operation
import Parley.Proofs.Calls
import Parley.Proofs.Parallel

/-! # Calls that part

Two runs of one call stay together up to the stepping at its end. How stepping may end in both, `D`, then tells how the
call may end in both: `Partings` lists what that takes, and `Partings.perform` is the result for every call that steps
on. -/

namespace Parley
variable {σ μ : Type}

/-- How a call ends that answers nothing. -/
abbrev Ending (σ μ : Type) := EStateM.Result Fault (World σ μ) Unit

/-- From worlds that `R` holds of the two runs end as `D` says. -/
def Parting (R : World σ μ → World σ μ → Prop) (D : Ending σ μ → Ending σ μ → Prop) (x : Play σ μ Unit) : Prop :=
  ∀ ⦃w w'⦄, R w w' → D (x w) (x w')

namespace Parting
variable {α : Type} {R : World σ μ → World σ μ → Prop} {D : Ending σ μ → Ending σ μ → Prop} {x y : Play σ μ Unit}

theorem of_keeps (hD : ∀ {r r'}, Same R r r' → D r r') (hx : Keeps R x) : Parting R D x := fun _ _ h => hD (hx h)

theorem bind (hD : ∀ {r r'}, Same R r r' → D r r') {x : Play σ μ α} {f : α → Play σ μ Unit} (hx : Keeps R x)
    (hf : ∀ a, Parting R D (f a)) : Parting R D (x >>= f) := by
  intro w w' h
  have hboth := hx h
  generalize hr : x w = r at hboth
  generalize hr' : x w' = r' at hboth
  cases hboth with
  | ok a hv =>
    rw [run_bind_ok hr, run_bind_ok hr']
    exact hf a hv
  | error f hv =>
    rw [run_bind_error hr, run_bind_error hr']
    exact hD (.error f hv)

theorem get {f : World σ μ → Play σ μ Unit} (hf : ∀ w w', R w w' → f w = f w') (hk : ∀ w, Parting R D (f w)) :
    Parting R D (get >>= f) := by
  intro w w' h
  show D (f w w) (f w' w')
  rw [hf w w' h]
  exact hk w' h

theorem ite {c : Prop} [Decidable c] (hx : Parting R D x) (hy : Parting R D y) : Parting R D (if c then x else y) := by
  split <;> assumption

end Parting

/-- The world with a session just opened at an item of a node. -/
def World.joined (w : World σ μ) (n : Node) (index : Nat) : World σ μ :=
  { w with sessions := w.sessions + 1 }.withRunner
    { w.runner with session := some (w.sessions + 1), stack := ⟨.node n, index⟩ :: w.runner.stack }

theorem Play.openSession_eq (n : Node) (index : Nat) (w : World σ μ) :
    openSession n index w = .ok (w.sessions + 1) (w.joined n index) := rfl

/-- What stepping on to `D`, and the calls around it to `D'`, takes. -/
structure Partings (host : Host σ μ) (R : World σ μ → World σ μ → Prop) (D D' : Ending σ μ → Ending σ μ → Prop) :
    Prop extends Roving host R where
  same : ∀ {r r'}, Same R r r' → D r r'
  same' : ∀ {r r'}, Same R r r' → D' r r'
  startNode : ∀ {w w'}, R w w' → w.runnerConfig.startNode = w'.runnerConfig.startNode
  sessions : ∀ {w w'}, R w w' → w.sessions = w'.sessions
  begun : ∀ {w w'}, R w w' → R w.begun w'.begun
  joined : ∀ {w w'}, R w w' → ∀ n index, R (w.joined n index) (w'.joined n index)
  advance : Parting R D (Play.advance host)
  rested : ∀ {x y : Play σ μ Unit} {w w'}, D (x w) (y w') → D' (x.ensuring World.rested w) (y.ensuring World.rested w')

namespace Partings
variable {host : Host σ μ} {R : World σ μ → World σ μ → Prop} {D D' : Ending σ μ → Ending σ μ → Prop}
  (hp : Partings host R D D')
include hp

theorem runner {E : Ending σ μ → Ending σ μ → Prop} {f : Runner → Play σ μ Unit}
    (hf : ∀ r r' : Runner, r.place = r'.place → f r = f r') (hk : ∀ r, Parting R E (f r)) :
    Parting R E (Play.runner >>= f) :=
  .get (fun _ _ h => hf _ _ (hp.place h)) fun w => hk w.runner

theorem refuse {α : Type} (fault : SessionFault) {f : α → Play σ μ Unit} : Parting R D' (Play.refuse fault >>= f) := by
  intro w w' h
  have hfail : Keeps R (Play.refuse fault : Play σ μ Unit) := Play.keeps_failOn hp.toCongruent ..
  exact hp.same' (hfail h)

theorem busyStep {x : Play σ μ Unit} (hx : Parting R D x) : Parting R D' (Play.busyStep x) := by
  intro w w' h
  rw [Play.busyStep_eq, Play.busyStep_eq]
  exact hp.rested (hx (hp.begun h))

theorem openSession (n : Node) (index : Nat) : Keeps R (Play.openSession n index : Play σ μ SessionId) := by
  intro w w' h
  rw [Play.openSession_eq, Play.openSession_eq, hp.sessions h]
  exact .ok _ (hp.joined h n index)

theorem startAt (n : Node) (name : String) (index : Nat) : Parting R D' (Play.startAt host n name index) := by
  have hreset : Keeps R (Play.modifyRunner Runner.reset : Play σ μ Unit) :=
    Play.keeps_move hp.toRoving (fun _ => ⟨[], [], [], none, none⟩) (fun _ => rfl) fun _ => .inr rfl
  refine .bind hp.same' hreset fun _ => hp.busyStep (.bind hp.same (hp.openSession n index) fun id => ?_)
  exact .bind hp.same (Play.keeps_log hp.toCongruent ..) fun _ =>
    .bind hp.same (Play.keeps_notice hp.toRoving _ (by simp)) fun _ =>
      .bind hp.same (Play.keeps_notice hp.toRoving _ (by simp)) fun _ => hp.advance

theorem requireRunning {x : Play σ μ Unit} (hx : Parting R D' x) : Parting R D' (do Play.requireRunning; x) := by
  have hrunning : Keeps R (Play.requireRunning : Play σ μ Unit) :=
    Play.keeps_runner hp.toInStep (fun r r' h => by rw [show r.session = r'.session from congrArg Place.session h])
      fun _ => .ite (Play.keeps_failOn hp.toCongruent ..) (.pure _)
  exact .bind hp.same' hrunning fun _ => hx

theorem follow (choice : Choice) (i : Nat) : Parting R D (Play.follow host choice i) := by
  refine .bind hp.same (Play.keeps_notice hp.toRoving _ (by simp)) fun _ => ?_
  refine hp.runner (fun r r' h => by rw [show r.session = r'.session from congrArg Place.session h]) fun r => ?_
  have hmenu : Keeps R (Play.modifyRunner fun r => { r with menu := [] } : Play σ μ Unit) :=
    Play.keeps_move hp.toRoving (fun p => { p with menu := [] }) (fun _ => rfl) fun _ => .inl rfl
  have hpush : Keeps R (Play.modifyRunner fun r => r.push (.choice choice) : Play σ μ Unit) :=
    Play.keeps_move hp.toRoving (fun p => { p with stack := ⟨.choice choice, 0⟩ :: p.stack }) (fun _ => rfl) fun _ => .inl rfl
  exact .ite (.of_keeps hp.same (.pure _)) (.bind hp.same hmenu fun _ =>
    .ite (.bind hp.same hpush fun _ => hp.advance) hp.advance)

/-- What the calls that step on have in common. -/
def Calls (R : World σ μ → World σ μ → Prop) (D' : Ending σ μ → Ending σ μ → Prop) (x : Play σ μ Unit) : Prop :=
  ∃ action y, x = (do Play.requireIdleStep action; y) ∧ Parting R D' y

theorem start (name : Option String) (index : Int) (force : Bool) : Calls R D' (Play.start host name index force) := by
  refine ⟨"start", _, rfl, ?_⟩
  refine hp.runner (fun r r' h => by rw [show r.session = r'.session from congrArg Place.session h]) fun r => ?_
  refine .ite (hp.refuse _) (.get (fun w w' h => ?_) fun w => ?_)
  · dsimp only
    rw [hp.startNode h]
  · refine .bind hp.same' (Play.keeps_getNode hp.toCongruent hp.nodes _) fun n => .ite (hp.refuse _) (.ite ?_ (hp.startAt ..))
    exact .bind hp.same' (Play.keeps_log hp.toCongruent ..) fun _ => hp.startAt ..

theorem resume : Calls R D' (Play.resume host) := by
  refine ⟨"continue", _, rfl, hp.requireRunning ?_⟩
  refine hp.runner (fun r r' h => by rw [show r.menu = r'.menu from congrArg Place.menu h]) fun r => ?_
  exact .ite (hp.refuse _) (hp.busyStep hp.advance)

theorem select (index : Int) : Calls R D' (Play.select host index) := by
  refine ⟨"select a choice", _, rfl, ?_⟩
  refine hp.runner (fun r r' h => by rw [show r.menu = r'.menu from congrArg Place.menu h]) fun r => ?_
  refine .ite (hp.refuse _) ?_
  dsimp only
  split
  · exact .of_keeps hp.same' (Play.keeps_failOn hp.toCongruent ..)
  · next choice _ => exact hp.busyStep (hp.follow choice index.toNat)

theorem jump (name : String) : Calls R D' (Play.jump host name) := by
  refine ⟨"jump", _, rfl, hp.requireRunning (.bind hp.same' (Play.keeps_getNode hp.toCongruent hp.nodes _) fun n => hp.busyStep ?_)⟩
  exact .bind hp.same (Play.keeps_enterNode hp.toRoving n) fun _ => hp.advance

end Partings

/-- Calls that step on until there is something for the host to see. -/
def Operation.advances : Operation → Bool
  | start .. | resume | select _ | jump _ => true
  | _ => false

theorem Partings.perform {host : Host σ μ} {R : World σ μ → World σ μ → Prop} {D D' : Ending σ μ → Ending σ μ → Prop}
    (hp : Partings host R D D') {op : Operation} (hop : op.advances) :
    ∃ action y, Play.perform host op = (do (do Play.requireIdleStep action; y : Play σ μ Unit); return .done) ∧ Parting R D' y := by
  have hcall {x : Play σ μ Unit} (hx : Calls R D' x) :
      ∃ action y, (do x; return .done : Play σ μ Answer) =
        (do (do Play.requireIdleStep action; y : Play σ μ Unit); return .done) ∧ Parting R D' y := by
    obtain ⟨action, y, rfl, hy⟩ := hx
    exact ⟨action, y, rfl, hy⟩
  cases op with
  | start name index force => exact hcall (hp.start name index force)
  | resume => exact hcall hp.resume
  | select index => exact hcall (hp.select index)
  | jump name => exact hcall (hp.jump name)
  | _ => cases hop

end Parley
