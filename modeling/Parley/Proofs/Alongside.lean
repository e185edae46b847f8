import Parley.Proofs.Aloof
import Parley.Proofs.Calls
import Parley.Proofs.HostOrder
import Parley.Proofs.Tales

/-! # A runner and a telling, side by side

`Here p` relates a world in which the runner has come to a place in the middle of a step with one in which the same has
been told. From such worlds a runner that is driven on and a telling come to the same if each does in turn what the other
does (`Follows.step`, `Enacts.step`), or if only the runner moves (`Follows.move`, `Enacts.move`). -/

namespace Parley
variable {σ μ : Type}

/-- The runner of the first world is in the middle of a step at the place and opens no menu by itself; the second
world has the same outline. -/
structure Abreast (p : Place) (w w' : World σ μ) : Prop where
  outline : w.outline = w'.outline
  place : w.runner.place = p
  busy : w.runner.busy = true
  off : w.runnerConfig.autoChoices = false

/-- And the first world is in order. -/
def Here (p : Place) (w w' : World σ μ) : Prop := Abreast p w w' ∧ w.InOrder fun _ => True

namespace Here
variable {host : Host σ μ} {p : Place} {w w' : World σ μ}

theorem congruent (hh : host.Aloof) (ht : host.Tends fun _ => True) :
    Congruent host (Here p : World σ μ → World σ μ → Prop) := by
  have habreast : Congruent host (Abreast p : World σ μ → World σ μ → Prop) := by
    refine hh.congruent (fun h => h.outline) ?_
    rintro w w' v v' h ⟨ho, hw, -⟩
    exact ⟨ho, hw.place.trans h.place, hw.busy.trans h.busy, hw.autoChoices.trans h.off⟩
  exact habreast.inOrder ht

/-- The runner moves. -/
theorem moved (h : Here p w w') (f : Place → Place) :
    Here (f p) (w.withRunner (w.runner.atPlace (f w.runner.place))) w' := by
  have hbusy : (w.runner.atPlace (f w.runner.place)).busy = true := h.1.busy
  refine ⟨⟨?_, congrArg f h.1.place, hbusy, h.1.off⟩, h.2.withRunner ?_⟩
  · exact (World.outline_withRunner h.1.outline rfl rfl rfl rfl : _ = (w'.withRunner w'.runner).outline)
  · intro hrests
    exact absurd hrests.2 (by simp [hbusy])

theorem noting (h : Here p w w') (n : Notice) :
    Here p (w.noting (.published w.seat n)) (w'.noting (.published w'.seat n)) := by
  have ht : w.Tends (fun _ => True) (w.noting (.published w.seat n)) :=
    h.2.tends.aside rfl (fun _ => rfl) rfl fun m hm => by simpa [World.noting] using hm
  exact ⟨⟨World.outline_publishing h.1.outline n, h.1.place, h.1.busy, h.1.off⟩, ht.order⟩

theorem skipped {f : Frame} {below : List Frame} {m : Memo} {menu : List Choice} {s : Option SessionId}
    {wait : Option Binary64} (h : Here ⟨f :: below, m, menu, s, wait⟩ w w') (count : Nat) :
    Here ⟨f.skip count :: below, m, menu, s, wait⟩ (w.withRunner (w.runner.skip count)) w' := by
  rw [Runner.skip_eq]
  exact h.moved fun p => { p with stack := skipTop count p.stack }

/-- The runner logs. -/
theorem logged (h : Here p w w') (r : LogRecord) : Here p (w.noting (.logged r)) w' := by
  have ht : w.Tends (fun _ => True) (w.noting (.logged r)) :=
    h.2.tends.aside rfl (fun _ => rfl) rfl fun m hm => by simpa [World.noting] using hm
  exact ⟨⟨(World.outline_quiet w rfl).trans h.1.outline, h.1.place, h.1.busy, h.1.off⟩, ht.order⟩

end Here

namespace Play
variable (host : Host σ μ)

/-- The rest of a step, and the calls after it. -/
def thenDrive (calls : Nat) (picks : List Int) (x : Play σ μ Unit) : Play σ μ Unit := do
  x.ensuring World.rested
  drive host calls picks

variable {host} {α : Type} {calls : Nat} {picks : List Int} {w v : World σ μ}

theorem thenDrive_congr {x y : Play σ μ Unit} (h : x w = y v) :
    thenDrive host calls picks x w = thenDrive host calls picks y v := by
  refine run_bind_congr ?_ _
  rw [ensuring, h, ensuring]

theorem thenDrive_bind_ok {x : Play σ μ α} {a : α} (hx : x w = .ok a v) (f : α → Play σ μ Unit) :
    thenDrive host calls picks (x >>= f) w = thenDrive host calls picks (f a) v :=
  thenDrive_congr (run_bind_ok hx)

theorem thenDrive_error {x : Play σ μ Unit} {e : Fault} (hx : x w = .error e v) :
    thenDrive host calls picks x w = .error e v.rested := by
  refine run_bind_error (e := e) ?_
  rw [ensuring, hx]

theorem thenDrive_pure (w : World σ μ) :
    thenDrive host calls picks (pure ()) w = drive host calls picks w.rested := rfl

end Play

/-- Comes to the same as a telling, as soon as that is allowed enough jumps. -/
def Follows (x : Play σ μ Unit) (t : Nat → Play σ μ Unit) (w w' : World σ μ) : Prop :=
  ∃ least, ∀ jumps, least ≤ jumps → Same (fun v v' => v.outline = v'.outline) (x w) (t jumps w')

namespace Follows
variable {host : Host σ μ} {α β : Type} {p : Place} {calls : Nat} {picks : List Int} {w w' : World σ μ}

theorem of_same {x y : Play σ μ Unit} (h : Same (fun v v' => v.outline = v'.outline) (x w) (y w')) :
    Follows x (fun _ => y) w w' :=
  ⟨0, fun _ _ => h⟩

theorem of_error {x : Play σ μ Unit} {t : Nat → Play σ μ Unit} {e : Fault} {v v' : World σ μ}
    (hx : x w = .error e v) (ht : ∀ jumps, t jumps w' = .error e v') (h : v.outline = v'.outline) :
    Follows x t w w' := by
  refine ⟨0, fun jumps _ => ?_⟩
  rw [hx, ht]
  exact .error e h

/-- One jump more is allowed. -/
theorem of_succ {x : Play σ μ Unit} {t : Nat → Play σ μ Unit}
    (h : Follows x (fun jumps => t (jumps + 1)) w w') :
    Follows x t w w' := by
  obtain ⟨least, h⟩ := h
  refine ⟨least + 1, fun jumps hjumps => ?_⟩
  obtain ⟨jumps, rfl⟩ := Nat.exists_eq_add_of_le' hjumps
  exact h (jumps + least) (Nat.le_add_left ..)

theorem congr {x y : Play σ μ Unit} {t u : Nat → Play σ μ Unit} {v v' : World σ μ} (h : Follows y u v v')
    (hx : x w = y v) (ht : ∀ jumps, t jumps w' = u jumps v') : Follows x t w w' := by
  obtain ⟨least, h⟩ := h
  refine ⟨least, fun jumps hjumps => ?_⟩
  rw [hx, ht]
  exact h jumps hjumps

/-- What both do alike. -/
theorem step {x : Play σ μ α} {x' : Play σ μ α} {f : α → Play σ μ Unit} {t : Nat → α → Play σ μ Unit}
    (hx : Same (Here p) (x w) (x' w'))
    (h : ∀ a v v', Here p v v' → x w = .ok a v →
      Follows (Play.thenDrive host calls picks (f a)) (fun jumps => t jumps a) v v') :
    Follows (Play.thenDrive host calls picks (x >>= f)) (fun jumps => x' >>= t jumps) w w' := by
  generalize hr : x w = r at hx
  generalize hr' : x' w' = r' at hx
  cases hx with
  | ok a hv =>
    refine (h a _ _ hv hr).congr (Play.thenDrive_bind_ok hr f) fun jumps => ?_
    exact run_bind_ok hr'
  | @error v v' e hv =>
    refine ⟨0, fun jumps _ => ?_⟩
    show Same _ _ ((x' >>= t jumps) w')
    rw [Play.thenDrive_error (run_bind_error hr), run_bind_error hr']
    exact .error e hv.1.outline

/-- What only the runner does. -/
theorem move {x : Play σ μ α} {f : α → Play σ μ Unit} {t : Nat → Play σ μ Unit} {a : α} {v : World σ μ}
    (hx : x w = .ok a v) (h : Follows (Play.thenDrive host calls picks (f a)) t v w') :
    Follows (Play.thenDrive host calls picks (x >>= f)) t w w' :=
  h.congr (Play.thenDrive_bind_ok hx f) fun _ => rfl

end Follows

/-- A step, with all that comes after it, comes to the same as a telling; `true` ends the call. -/
def Enacts (host : Host σ μ) (calls fuel steps : Nat) (picks : List Int) (x : Play σ μ Bool)
    (t : Nat → Play σ μ Unit) (w w' : World σ μ) : Prop :=
  Follows (Play.thenDrive host calls picks do
    if ← x then return () else Play.advanceFrom host fuel (steps + 1)) t w w'

namespace Enacts
variable {host : Host σ μ} {α : Type} {p : Place} {calls fuel steps : Nat} {picks : List Int}
  {t : Nat → Play σ μ Unit} {w w' : World σ μ}

theorem stop (h : Follows (Play.thenDrive host calls picks (pure ())) t w w') :
    Enacts host calls fuel steps picks (pure true) t w w' := h

theorem goOn
    (h : Follows (Play.thenDrive host calls picks (Play.advanceFrom host fuel (steps + 1))) t w w') :
    Enacts host calls fuel steps picks (pure false) t w w' := h

theorem congr {x y : Play σ μ Bool} {u : Nat → Play σ μ Unit} {v v' : World σ μ}
    (h : Enacts host calls fuel steps picks y u v v') (hx : x w = y v)
    (ht : ∀ jumps, t jumps w' = u jumps v') :
    Enacts host calls fuel steps picks x t w w' :=
  Follows.congr h (Play.thenDrive_congr (run_bind_congr hx _)) ht

theorem step {x x' : Play σ μ α} {f : α → Play σ μ Bool} {t : Nat → α → Play σ μ Unit}
    (hx : Same (Here p) (x w) (x' w'))
    (h : ∀ a v v', Here p v v' → x w = .ok a v →
      Enacts host calls fuel steps picks (f a) (fun jumps => t jumps a) v v') :
    Enacts host calls fuel steps picks (x >>= f) (fun jumps => x' >>= t jumps) w w' := by
  unfold Enacts
  rw [bind_assoc]
  exact .step hx h

theorem move {x : Play σ μ α} {f : α → Play σ μ Bool} {a : α} {v : World σ μ} (hx : x w = .ok a v)
    (h : Enacts host calls fuel steps picks (f a) t v w') :
    Enacts host calls fuel steps picks (x >>= f) t w w' :=
  h.congr (run_bind_ok hx) fun _ => rfl

end Enacts

end Parley
