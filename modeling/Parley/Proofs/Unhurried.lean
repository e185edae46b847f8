import Parley.Proofs.Guards
import Parley.Proofs.Reserved

/-! # Host code that goes by no limit

`World.unlimited` is a world but for how many steps a call may take, what has been logged, and whether the runner in
front is busy. Code is `Unhurried` if it does the same in worlds that agree so far, and neither moves the runner in
front nor changes how it goes on: host code that makes no calls on that runner, does not ask for its limit and does
not read the log. -/

namespace Parley
variable {σ μ : Type}

/-- The configuration but for how many steps a call may take. -/
def Config.unlimited (c : Config) : Config := { c with maxSteps := 0 }

def Runner.unlimited (r : Runner) : Runner := { r with config := r.config.map Config.unlimited, busy := false }

def Entry.isLogged : Entry μ → Bool
  | .logged _ => true
  | _ => false

namespace World

def unlimited (w : World σ μ) : World σ μ :=
  { w with
    config := w.config.unlimited
    runner := w.runner.unlimited
    journal := w.journal.filter fun e => !e.isLogged }

/-- What unhurried code leaves alone. -/
structure Unaltered (w v : World σ μ) : Prop where
  place : v.runner.place = w.runner.place
  maxSteps : v.runnerConfig.maxSteps = w.runnerConfig.maxSteps
  autoChoices : v.runnerConfig.autoChoices = w.runnerConfig.autoChoices

variable {w w' v : World σ μ}

theorem Unaltered.refl (w : World σ μ) : w.Unaltered w := ⟨rfl, rfl, rfl⟩

theorem unlimited_runnerConfig (w : World σ μ) : w.unlimited.runnerConfig = w.runnerConfig.unlimited := by
  unfold runnerConfig unlimited Runner.unlimited
  cases w.runner.config <;> rfl

theorem runnerConfig_of_unlimited (h : w.unlimited = w'.unlimited) :
    w.runnerConfig.unlimited = w'.runnerConfig.unlimited := by
  rw [← unlimited_runnerConfig, ← unlimited_runnerConfig, h]

theorem unlimited_noting (w : World σ μ) (e : Entry μ) :
    (w.noting e).unlimited = if e.isLogged then w.unlimited else w.unlimited.noting e := by
  cases he : e.isLogged <;> simp [unlimited, noting, he]

theorem unlimited_logged (w : World σ μ) (r : LogRecord) : (w.noting (.logged r)).unlimited = w.unlimited :=
  unlimited_noting w (.logged r)

theorem unlimited_noting_congr (h : w.unlimited = w'.unlimited) (e : Entry μ) :
    (w.noting e).unlimited = (w'.noting e).unlimited := by
  rw [unlimited_noting, unlimited_noting, h]

theorem unlimited_publishing (h : w.unlimited = w'.unlimited) (n : Notice) :
    (w.noting (.published w.seat n)).unlimited = (w'.noting (.published w'.seat n)).unlimited := by
  rw [show w.seat = w'.seat from (congrArg World.seat h :)]
  exact unlimited_noting_congr h _

theorem unlimited_withRunner (h : w.unlimited = w'.unlimited) {r r' : Runner} (hr : r.unlimited = r'.unlimited) :
    (w.withRunner r).unlimited = (w'.withRunner r').unlimited := by
  show w.unlimited.withRunner r.unlimited = w'.unlimited.withRunner r'.unlimited
  rw [h, hr]

theorem place_of_unlimited (h : w.unlimited = w'.unlimited) : w.runner.place = w'.runner.place :=
  (congrArg (·.runner.place) h :)

theorem published_unlimited (w : World σ μ) : w.unlimited.published = w.published := by
  unfold published unlimited
  rw [List.filterMap_filter]
  congr 1
  funext e
  cases e <;> rfl

end World

/-- Does the same in worlds that are the same but for the limit, and leaves alone where the runner in front is and how
it goes on. -/
def Unhurried {α : Type} (x : Play σ μ α) : Prop :=
  ∀ ⦃w w' : World σ μ⦄, w.unlimited = w'.unlimited →
    Same (fun v v' => v.unlimited = v'.unlimited ∧ w.Unaltered v ∧ w'.Unaltered v') (x w) (x w')

structure Host.Unhurried (host : Host σ μ) : Prop where
  read : ∀ h, Parley.Unhurried (host.read h)
  write : ∀ h v, Parley.Unhurried (host.write h v)
  call : ∀ h args, Parley.Unhurried (host.call h args)
  callRaw : ∀ h args, Parley.Unhurried (host.callRaw h args)
  handle : ∀ seat h n, Parley.Unhurried (host.handle seat h n)

/-- Evaluating, publishing and unhurried host code tell no worlds apart that are the same but for the limit. -/
theorem Host.Unhurried.congruent {host : Host σ μ} (hh : host.Unhurried) {R : World σ μ → World σ μ → Prop}
    (ho : ∀ {w w'}, R w w' → w.unlimited = w'.unlimited)
    (hR : ∀ {w w' v v'}, R w w' → v.unlimited = v'.unlimited → w.Unaltered v → w'.Unaltered v' → R v v') :
    Congruent host R where
  vars h := (congrArg World.vars (ho h) :)
  functions h := (congrArg World.functions (ho h) :)
  seat h := (congrArg World.seat (ho h) :)
  bus h := (congrArg (·.runner.bus) (ho h) :)
  strictText h := (congrArg Config.strictText (World.runnerConfig_of_unlimited (ho h)) :)
  isLive h s := by
    have hhost := congrArg World.host (ho h)
    have hbus := congrArg (·.runner.bus) (ho h)
    have hwings := congrArg World.wings (ho h)
    simp only [World.unlimited, Runner.unlimited] at hhost hbus hwings
    simp only [World.isLive, World.keeps, hhost, hbus, hwings]
  noting h e _ := hR h (World.unlimited_noting_congr (ho h) e) ⟨rfl, rfl, rfl⟩ ⟨rfl, rfl, rfl⟩
  withVars h vs := hR h (congrArg (World.withVars · vs) (ho h)) ⟨rfl, rfl, rfl⟩ ⟨rfl, rfl, rfl⟩
  withBus h b := hR h (congrArg (World.withBus · b) (ho h)) ⟨rfl, rfl, rfl⟩ ⟨rfl, rfl, rfl⟩
  read hd _ _ h := (hh.read hd (ho h)).mono fun _ _ hv => hR h hv.1 hv.2.1 hv.2.2
  write hd v _ _ h := (hh.write hd v (ho h)).mono fun _ _ hv => hR h hv.1 hv.2.1 hv.2.2
  call hd args _ _ h := (hh.call hd args (ho h)).mono fun _ _ hv => hR h hv.1 hv.2.1 hv.2.2
  callRaw hd args _ _ h := (hh.callRaw hd args (ho h)).mono fun _ _ hv => hR h hv.1 hv.2.1 hv.2.2
  handle seat hd n _ _ h := (hh.handle seat hd n (ho h)).mono fun _ _ hv => hR h hv.1 hv.2.1 hv.2.2

namespace Code
variable {α : Type}

/-- Looks at neither the limit nor the log, and asks for nothing. -/
def Leisurely : Code σ μ α → Prop
  | pure _ | fail _ => True
  | look next => (∀ w w', w.unlimited = w'.unlimited → next w = next w') ∧ ∀ w, (next w).Leisurely
  | keep _ next => next.Leisurely
  | mark _ next => next.Leisurely
  | ask .. => False

theorem Leisurely.unhurried {c : Code σ μ α} (hc : c.Leisurely) (perform : Operation → Play σ μ Answer) :
    Unhurried (c.run perform) := by
  induction c with
  | pure a => exact fun w w' h => .ok a ⟨h, .refl w, .refl w'⟩
  | fail f => exact fun w w' h => .error f ⟨h, .refl w, .refl w'⟩
  | look next ih =>
    intro w w' h
    show Same _ ((next w).run perform w) ((next w').run perform w')
    rw [← hc.1 w w' h]
    exact ih w (hc.2 w) h
  | keep s next ih =>
    intro w w' h
    have hkept : ({ w with host := s } : World σ μ).unlimited = ({ w' with host := s } : World σ μ).unlimited :=
      congrArg (fun o : World σ μ => { o with host := s }) h
    exact (ih hc hkept).mono fun _ _ ⟨ho, hv, hv'⟩ =>
      ⟨ho, ⟨hv.place, hv.maxSteps, hv.autoChoices⟩, ⟨hv'.place, hv'.maxSteps, hv'.autoChoices⟩⟩
  | mark m next ih =>
    intro w w' h
    exact (ih hc (World.unlimited_noting_congr h (.marked m))).mono fun _ _ ⟨ho, hv, hv'⟩ =>
      ⟨ho, ⟨hv.place, hv.maxSteps, hv.autoChoices⟩, ⟨hv'.place, hv'.maxSteps, hv'.autoChoices⟩⟩
  | ask => exact hc.elim

end Code

structure Behaviour.Leisurely (b : Behaviour σ μ) : Prop where
  read : ∀ h, (b.read h).Leisurely
  write : ∀ h v, (b.write h v).Leisurely
  call : ∀ h args, (b.call h args).Leisurely
  callRaw : ∀ h args, (b.callRaw h args).Leisurely
  handle : ∀ seat h n, (b.handle seat h n).Leisurely

theorem Behaviour.Leisurely.unhurried {b : Behaviour σ μ} (hb : b.Leisurely) (patience depth : Nat) :
    (Host.ofBehaviour b patience depth).Unhurried := by
  cases depth with
  | zero =>
    have hfail {α : Type} : Unhurried (throw .exhausted : Play σ μ α) := fun w w' h => .error _ ⟨h, .refl w, .refl w'⟩
    exact ⟨fun _ => hfail, fun _ _ => hfail, fun _ _ => hfail, fun _ _ => hfail, fun _ _ _ => hfail⟩
  | succ depth =>
    exact ⟨fun h => (hb.read h).unhurried _, fun h v => (hb.write h v).unhurried _, fun h args => (hb.call h args).unhurried _,
      fun h args => (hb.callRaw h args).unhurried _, fun seat h n => (hb.handle seat h n).unhurried _⟩

theorem Behaviour.leisurely_attentive (m : μ) : (attentive m : Behaviour σ μ).Leisurely :=
  ⟨fun _ => trivial, fun _ _ => trivial, fun _ _ => trivial, fun _ _ => trivial, fun _ _ _ => trivial⟩

end Parley
