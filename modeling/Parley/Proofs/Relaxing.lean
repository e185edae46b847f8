import Mathlib.Data.List.Forall2
import Parley.Proofs.HostOrder
import Parley.Proofs.Upkeep

/-! # The same until an unresolved name

`w.Relaxed w'`: the world `w'` is `w`, but that some of the settings that ask for strict texts have been turned off.
Runs from two such worlds may part where strict text meets a name that nothing defines. In the first run this is a
fault, which stops the call, or is put on record if it is a call that host code has made (`World.Alarmed`). `Evenly E x`
says that until then `x` does the same in both, and that no alarm is ever forgotten. -/

namespace Parley

namespace Config

def lenient (c : Config) : Config := { c with strictText := false }

/-- The same settings, but that texts may have become lenient. -/
def Relaxed (c c' : Config) : Prop := c' = c ∨ c' = c.lenient

namespace Relaxed
variable {c c' : Config}

/-- What does not depend on how strict texts are. -/
theorem agree {α : Type} (h : c.Relaxed c') {f : Config → α} (hf : ∀ c : Config, f c.lenient = f c) : f c' = f c := by
  rcases h with rfl | rfl
  · rfl
  · exact hf c

theorem strict (h : c.Relaxed c') (hc : c'.strictText = true) : c.strictText = true := by
  rcases h with rfl | rfl
  · exact hc
  · cases hc

theorem assign? (c : Config) (name : String) (v : Json) :
    (c.lenient.assign? name v = none ∧ c.assign? name v = none) ∨
      (∃ faults, c.lenient.assign? name v = some (.error faults) ∧ c.assign? name v = some (.error faults)) ∨
      ∃ d d', c.assign? name v = some (.ok d) ∧ c.lenient.assign? name v = some (.ok d') ∧ d.Relaxed d' := by
  have hread {α : Type} {f f' : α → Config} (hf : ∀ x, (f x).Relaxed (f' x)) (r : Read α) :
      (∃ faults, some (r.map f') = some (.error faults) ∧ some (r.map f) = some (.error faults)) ∨
        ∃ d d', some (r.map f) = some (.ok d) ∧ some (r.map f') = some (.ok d') ∧ d.Relaxed d' := by
    cases r with
    | error faults => exact .inl ⟨faults, rfl, rfl⟩
    | ok x => exact .inr ⟨f x, f' x, rfl, rfl, hf x⟩
  unfold Config.assign?
  split
  case h_3 => exact .inr (hread (fun _ => .inl rfl) _)
  case h_8 => exact .inl ⟨rfl, rfl⟩
  all_goals
    refine .inr (hread ?_ _)
    exact fun _ => .inr rfl

/-- A setting is changed in both, or its value does not read in either. -/
theorem set (h : c.Relaxed c') (name : String) (v : Json) :
    (∃ f, c.set name v = .error f ∧ c'.set name v = .error f) ∨
      ∃ d d', c.set name v = .ok d ∧ c'.set name v = .ok d' ∧ d.Relaxed d' := by
  rcases h with rfl | rfl
  · cases c'.set name v with
    | error f => exact .inl ⟨f, rfl, rfl⟩
    | ok d => exact .inr ⟨d, d, rfl, rfl, .inl rfl⟩
  unfold Config.set
  rcases assign? c name v with ⟨h', h⟩ | ⟨faults, h', h⟩ | ⟨d, d', h, h', hd⟩ <;> rw [h, h']
  · split
    · next heq => cases heq
    · next heq => cases heq
    · exact .inl ⟨_, rfl, rfl⟩
    · split
      · exact .inr ⟨c, c.lenient, rfl, rfl, .inr rfl⟩
      · exact .inl ⟨_, rfl, rfl⟩
  · exact .inl ⟨_, rfl, rfl⟩
  · exact .inr ⟨d, d', rfl, rfl, hd⟩

end Relaxed
end Config

/-- The same runner, but that its texts may have become lenient. -/
inductive Runner.Relaxed (r : Runner) : Runner → Prop
  | mk {own : Option Config} (settings : Option.Rel Config.Relaxed r.config own) : Relaxed r { r with config := own }

theorem Runner.Relaxed.bus {r r' : Runner} (h : r.Relaxed r') : r'.bus = r.bus := by
  obtain ⟨-⟩ := h
  rfl

/-- The runners of other seats, with texts that may have become lenient. -/
abbrev RelaxedWings : List (Nat × Runner) → List (Nat × Runner) → Prop :=
  List.Forall₂ fun e e' => e'.1 = e.1 ∧ e.2.Relaxed e'.2

namespace RelaxedWings
variable {wings wings' : List (Nat × Runner)}

theorem lookup (h : RelaxedWings wings wings') (seat : Nat) :
    Option.Rel Runner.Relaxed (wings.lookup seat) (wings'.lookup seat) := by
  induction h with
  | nil => exact .none
  | @cons e e' rest rest' he _ ih =>
    obtain ⟨key, r⟩ := e
    obtain ⟨_, r'⟩ := e'
    obtain ⟨rfl, hr⟩ := he
    simp only [List.lookup_cons]
    split
    · exact .some hr
    · exact ih

theorem without (h : RelaxedWings wings wings') (seat : Nat) :
    RelaxedWings (wings.filter fun e => e.1 != seat) (wings'.filter fun e => e.1 != seat) := by
  induction h with
  | nil => exact .nil
  | @cons e e' rest rest' he _ ih =>
    simp only [List.filter_cons, he.1]
    split
    · exact .cons he ih
    · exact ih

theorem keeps (h : RelaxedWings wings wings') (handler : Handle) :
    (wings'.any fun e => e.2.bus.keeps handler) = wings.any fun e => e.2.bus.keeps handler := by
  induction h with
  | nil => rfl
  | cons he _ ih => rw [List.any_cons, List.any_cons, he.2.bus, ih]

end RelaxedWings

namespace World
variable {σ μ : Type}

inductive Relaxed (w : World σ μ) : World σ μ → Prop
  | mk {config : Config} {runner : Runner} {wings : List (Nat × Runner)} (shared : w.config.Relaxed config)
      (front : w.runner.Relaxed runner) (others : RelaxedWings w.wings wings) :
      Relaxed w { w with config, runner, wings }

/-- The world with all texts lenient. -/
def lenient (w : World σ μ) : World σ μ :=
  { w with
    config := w.config.lenient
    runner := { w.runner with config := w.runner.config.map Config.lenient }
    wings := w.wings.map fun e => (e.1, { e.2 with config := e.2.config.map Config.lenient }) }

theorem relaxed_lenient (w : World σ μ) : w.Relaxed w.lenient := by
  have hown (own : Option Config) : Option.Rel Config.Relaxed own (own.map Config.lenient) := by
    cases own with
    | none => exact .none
    | some c => exact .some (.inr rfl)
  refine .mk (.inr rfl) ⟨hown _⟩ ?_
  rw [RelaxedWings, List.forall₂_map_right_iff]
  exact List.forall₂_same.2 fun e _ => ⟨rfl, ⟨hown _⟩⟩

namespace Relaxed
variable {w w' : World σ μ}

theorem runnerConfig (h : w.Relaxed w') : w.runnerConfig.Relaxed w'.runnerConfig := by
  obtain ⟨hshared, ⟨hown⟩, -⟩ := h
  unfold World.runnerConfig
  generalize w.runner.config = own₀ at hown
  cases hown with
  | none => exact hshared
  | some h => exact h

/-- A move of the runner that does not look at its settings. -/
theorem moved (h : w.Relaxed w') {f : Runner → Runner}
    (hf : ∀ (r : Runner) own, f { r with config := own } = { f r with config := own }) :
    (w.withRunner (f w.runner)).Relaxed (w'.withRunner (f w'.runner)) := by
  obtain ⟨hshared, @⟨own, hown⟩, hothers⟩ := h
  have hconfig : (f w.runner).config = w.runner.config :=
    (congrArg Runner.config (hf w.runner w.runner.config) :)
  refine .mk hshared ?_ hothers
  show (f w.runner).Relaxed (f { w.runner with config := own })
  rw [hf w.runner own]
  exact .mk (hconfig ▸ hown)

theorem setRunnerConfig (h : w.Relaxed w') {c c' : Config} (hc : c.Relaxed c') :
    (w.setRunnerConfig c).Relaxed (w'.setRunnerConfig c') := by
  obtain ⟨hshared, @⟨own, hown⟩, hothers⟩ := h
  have hsettings := hown
  unfold World.setRunnerConfig
  cases hw : w.runner.config <;> rw [hw] at hown <;> cases hown
  · exact .mk hc (.mk hsettings) hothers
  · exact .mk hshared (.mk (.some hc)) hothers

theorem turnTo (h : w.Relaxed w') (seat : Nat) : (w.turnTo seat).Relaxed (w'.turnTo seat) := by
  obtain ⟨hshared, hfront, hothers⟩ := h
  have hfound := hothers.lookup seat
  unfold World.turnTo
  dsimp only
  split
  · exact ⟨hshared, hfront, hothers⟩
  · generalize w.wings.lookup seat = found at hfound ⊢
    generalize List.lookup seat _ = found' at hfound ⊢
    cases hfound with
    | none => exact ⟨hshared, hfront, hothers⟩
    | some hr => exact .mk hshared hr (.cons ⟨rfl, hfront⟩ (hothers.without seat))

theorem isLive (h : w.Relaxed w') (host : Host σ μ) (s : Subscription) : w'.isLive host s = w.isLive host s := by
  obtain ⟨-, ⟨-⟩, hothers⟩ := h
  unfold World.isLive World.keeps
  dsimp only
  rw [hothers.keeps]

end Relaxed

/-- A call that host code has made has met a name that nothing defines. -/
def Alarmed (w : World σ Fault) : Prop := ∃ f : Fault, .marked f ∈ w.journal ∧ f.isUnresolvedName

end World

/-- A second run ends as the first one does, unless that has come to an alarm or ends in a fault with `E`. -/
inductive Tally {σ α : Type} (E : Fault → Prop) :
    EStateM.Result Fault (World σ Fault) α → EStateM.Result Fault (World σ Fault) α → Prop
  | alarmed {a : α} {w : World σ Fault} {r'} (h : w.Alarmed) : Tally E (.ok a w) r'
  | stopped {f : Fault} {w : World σ Fault} {r'} (h : w.Alarmed ∨ E f) : Tally E (.error f w) r'
  | same {r r'} (h : Same World.Relaxed r r') : Tally E r r'

structure Evenly {σ α : Type} (E : Fault → Prop) (x : Play σ Fault α) : Prop where
  alarmed : Upholds World.Alarmed (fun _ => True) x
  tally : ∀ ⦃w w'⦄, w.Relaxed w' → Tally E (x w) (x w')

section
variable {σ α β : Type} {E : Fault → Prop}

theorem Tally.of_alarmed {x : Play σ Fault α} (hx : Upholds World.Alarmed (fun _ => True) x) {w : World σ Fault}
    (hw : w.Alarmed) (r' : EStateM.Result Fault (World σ Fault) α) : Tally E (x w) r' := by
  have h := hx hw
  unfold wp at h
  cases hr : x w <;> rw [hr] at h
  · exact .alarmed h
  · exact .stopped (.inl h.1)

/-- Programs that have come to the same go on. -/
theorem Tally.bind {x y : Play σ Fault α} {f g : α → Play σ Fault β} {w w' : World σ Fault} (h : Tally E (x w) (y w'))
    (hf : ∀ a, Upholds World.Alarmed (fun _ => True) (f a))
    (hfg : ∀ a v v', v.Relaxed v' → Tally E (f a v) (g a v')) : Tally E ((x >>= f) w) ((y >>= g) w') := by
  generalize hr : x w = r at h
  generalize hr' : y w' = r' at h
  cases h with
  | @alarmed a v _ h =>
    rw [run_bind_ok hr]
    exact .of_alarmed (hf a) h _
  | stopped h =>
    rw [run_bind_error hr]
    exact .stopped h
  | same h =>
    cases h with
    | ok a h =>
      rw [run_bind_ok hr, run_bind_ok hr']
      exact hfg a _ _ h
    | error f h =>
      rw [run_bind_error hr, run_bind_error hr']
      exact .same (.error f h)

namespace Evenly
variable {x y : Play σ Fault α}

protected theorem pure (a : α) : Evenly E (pure a : Play σ Fault α) := ⟨.pure a, fun _ _ h => .same (.ok a h)⟩

protected theorem throw (f : Fault) : Evenly E (throw f : Play σ Fault α) :=
  ⟨.throw trivial, fun _ _ h => .same (.error f h)⟩

protected theorem bind {f : α → Play σ Fault β} (hx : Evenly E x) (hf : ∀ a, Evenly E (f a)) : Evenly E (x >>= f) :=
  ⟨hx.alarmed.bind fun a => (hf a).alarmed,
    fun _ _ h => (hx.tally h).bind (fun a => (hf a).alarmed) fun a _ _ h => (hf a).tally h⟩

/-- What does the same until an alarm does so whatever else may stop it. -/
theorem mono (hx : Evenly (fun _ => False) x) : Evenly E x := by
  refine ⟨hx.alarmed, fun w w' h => ?_⟩
  have htally := hx.tally h
  generalize x w = r at htally
  generalize x w' = r' at htally
  cases htally with
  | alarmed h => exact .alarmed h
  | stopped h => exact .stopped (h.imp id False.elim)
  | same h => exact .same h

theorem ite {c : Prop} [Decidable c] (hx : Evenly E x) (hy : Evenly E y) : Evenly E (if c then x else y) := by
  split <;> assumption

theorem ofExcept (r : Except Fault α) : Evenly E (Play.ofExcept r : Play σ Fault α) := by
  unfold Play.ofExcept
  split
  · exact .pure _
  · exact .throw _

protected theorem tryCatch {handle : Fault → Play σ Fault α} (hx : Evenly (fun _ => False) x)
    (hh : ∀ f, Evenly E (handle f)) : Evenly E (tryCatch x handle) := by
  refine ⟨.tryCatch hx.alarmed fun f _ => (hh f).alarmed, fun w w' h => ?_⟩
  have htally := hx.tally h
  change Tally E (EStateM.tryCatch x handle w) (EStateM.tryCatch x handle w')
  unfold EStateM.tryCatch
  generalize x w = r at htally
  generalize x w' = r' at htally
  cases htally with
  | alarmed h => exact .alarmed h
  | stopped h => exact .of_alarmed (hh _).alarmed (h.resolve_right id) _
  | same h =>
    cases h with
    | ok a h => exact .same (.ok a h)
    | error f h => exact (hh f).tally h

protected theorem modify {f : World σ Fault → World σ Fault} (hj : ∀ w, w.Alarmed → (f w).Alarmed)
    (hf : ∀ w w', w.Relaxed w' → (f w).Relaxed (f w')) : Evenly E (modify f : Play σ Fault PUnit) :=
  ⟨.modify hj, fun _ _ h => .same (.ok _ (hf _ _ h))⟩

theorem ensuring {f : World σ Fault → World σ Fault} (hx : Evenly E x) (hj : ∀ w, w.Alarmed → (f w).Alarmed)
    (hf : ∀ w w', w.Relaxed w' → (f w).Relaxed (f w')) : Evenly E (x.ensuring f) := by
  refine ⟨fun w hw => wp_ensuring.2 (wp_mono (hx.alarmed hw) (fun _ _ h => hj _ h) fun _ _ h => ⟨hj _ h.1, trivial⟩),
    fun w w' h => ?_⟩
  have htally := hx.tally h
  unfold Play.ensuring
  generalize x w = r at htally
  generalize x w' = r' at htally
  cases htally with
  | alarmed h => exact .alarmed (hj _ h)
  | stopped h => exact .stopped (h.imp (hj _) id)
  | same h =>
    cases h with
    | ok a h => exact .same (.ok a (hf _ _ h))
    | error e h => exact .same (.error e (hf _ _ h))

/-- Goes by what is the same in both worlds. -/
protected theorem get {f : World σ Fault → Play σ Fault α} (hf : ∀ w w', w.Relaxed w' → f w' = f w)
    (hk : ∀ w, Evenly E (f w)) : Evenly E (get >>= f) := by
  refine ⟨.get fun w => (hk w).alarmed, fun w w' h => ?_⟩
  change Tally E (f w w) (f w' w')
  rw [hf w w' h]
  exact (hk w).tally h

theorem runner {f : Runner → Play σ Fault α} (hf : ∀ (r : Runner) own, f { r with config := own } = f r)
    (hk : ∀ r, Evenly E (f r)) : Evenly E (Play.runner >>= f) := by
  refine .get (fun w w' h => ?_) fun w => hk w.runner
  obtain ⟨-, ⟨-⟩, -⟩ := h
  exact hf _ _

theorem runnerConfig {f : Config → Play σ Fault α} (hf : ∀ c : Config, f c.lenient = f c) (hk : ∀ c, Evenly E (f c)) :
    Evenly E (Play.runnerConfig >>= f) :=
  .get (fun _ _ h => h.runnerConfig.agree hf) fun w => hk w.runnerConfig

theorem modifyRunner {f : Runner → Runner}
    (hf : ∀ (r : Runner) own, f { r with config := own } = { f r with config := own }) :
    Evenly E (Play.modifyRunner f : Play σ Fault Unit) :=
  .modify (fun _ h => h) fun _ _ h => h.moved hf

theorem modifyBus (f : Bus → Bus) : Evenly E (Play.modifyBus f : Play σ Fault Unit) :=
  .modifyRunner fun _ _ => rfl

theorem modifyDispatch (f : Dispatch → Dispatch) : Evenly E (Play.modifyDispatch f : Play σ Fault Unit) :=
  modifyBus _

theorem note (e : Entry Fault) : Evenly E (Play.note e : Play σ Fault Unit) := by
  refine .modify (fun w h => ?_) fun w w' h => ?_
  · obtain ⟨f, hm, hf⟩ := h
    exact ⟨f, List.mem_cons_of_mem _ hm, hf⟩
  · obtain ⟨hshared, hfront, hothers⟩ := h
    exact ⟨hshared, hfront, hothers⟩

theorem log (level : LogLevel) (channel : LogChannel) (message : String) :
    Evenly E (Play.log level channel message : Play σ Fault Unit) :=
  note _

theorem failOn (channel : LogChannel) (f : Fault) : Evenly E (Play.failOn channel f : Play σ Fault α) :=
  (log ..).bind fun _ => .throw f

theorem onSeat (seat : Nat) (hx : Evenly E x) : Evenly E (Play.onSeat seat x) := by
  have hturn {w : World σ Fault} (h : w.Alarmed) (seat : Nat) : (w.turnTo seat).Alarmed := by
    rw [World.Alarmed, World.journal_turnTo]
    exact h
  refine ⟨fun w hw => ?_, fun w w' h => ?_⟩
  · exact (hx.ensuring (fun _ h => hturn h w.seat) fun _ _ h => h.turnTo w.seat).alarmed (hturn hw seat)
  · have hseat : w'.seat = w.seat := by
      obtain ⟨⟩ := h
      rfl
    unfold Play.onSeat
    rw [hseat]
    exact (hx.ensuring (fun _ h => hturn h w.seat) fun _ _ h => h.turnTo w.seat).tally (h.turnTo seat)

end Evenly
end
end Parley
