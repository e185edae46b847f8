import Parley.Proofs.Guards

/-! # Host code that leaves the runner alone

`World.outline` is what host code gets to know of a world if it does not turn to the runner in front: all but
where that runner is, whether it is busy, whether it opens menus at once, and what went into the journal
unpublished. Code is `Aloof` if it does the same in worlds with the same outline and leaves alone what the outline
hides. -/

namespace Parley

/-- The configuration but for whether menus are opened at once. -/
def Config.outline (c : Config) : Config := { c with autoChoices := false }

variable {σ μ : Type}

namespace World

def outline (w : World σ μ) : World σ μ :=
  { w with
    config := w.config.outline
    runner := { config := w.runner.config.map Config.outline, bus := w.runner.bus }
    journal := w.journal.filter fun e => !e.isQuiet }

/-- How many lines have been displayed at the seat in front. -/
def shown (w : World σ μ) : Nat :=
  w.journal.countP fun
    | .published seat (.displayed ..) => seat == w.seat
    | _ => false

/-- What host code leaves alone that does not turn to the runner in front. -/
structure Untouched (w v : World σ μ) : Prop where
  place : v.runner.place = w.runner.place
  busy : v.runner.busy = w.runner.busy
  shared : v.config.autoChoices = w.config.autoChoices
  own : v.runner.config.map Config.autoChoices = w.runner.config.map Config.autoChoices
  shown : v.shown = w.shown

/-- The same outline, with the runner at the same place. -/
structure Beside (w v : World σ μ) : Prop where
  outline : w.outline = v.outline
  place : w.runner.place = v.runner.place

variable {w v u : World σ μ}

theorem Untouched.refl (w : World σ μ) : w.Untouched w := ⟨rfl, rfl, rfl, rfl, rfl⟩

theorem Untouched.trans (h : w.Untouched v) (h' : v.Untouched u) : w.Untouched u :=
  ⟨h'.place.trans h.place, h'.busy.trans h.busy, h'.shared.trans h.shared, h'.own.trans h.own, h'.shown.trans h.shown⟩

theorem Untouched.autoChoices (h : w.Untouched v) :
    v.runnerConfig.autoChoices = w.runnerConfig.autoChoices := by
  have hconfig (u : World σ μ) :
      u.runnerConfig.autoChoices = (u.runner.config.map Config.autoChoices).getD u.config.autoChoices := by
    unfold runnerConfig
    cases u.runner.config <;> rfl
  rw [hconfig, hconfig, h.own, h.shared]

theorem outline_runnerConfig (w : World σ μ) : w.outline.runnerConfig = w.runnerConfig.outline := by
  unfold runnerConfig outline
  cases w.runner.config <;> rfl

theorem runnerConfig_of_outline (h : w.outline = v.outline) :
    w.runnerConfig.outline = v.runnerConfig.outline := by
  rw [← outline_runnerConfig, ← outline_runnerConfig, h]

theorem published_outline (w : World σ μ) : w.outline.published = w.published := by
  unfold published outline
  rw [List.filterMap_filter]
  congr 1
  funext e
  cases e <;> rfl

theorem outline_quiet (w : World σ μ) {e : Entry μ} (he : e.isQuiet) :
    (w.noting e).outline = w.outline := by
  simp [outline, noting, he]

/-- A note that is not quiet shows in the outline. -/
theorem outline_noting (w : World σ μ) {e : Entry μ} (he : e.isQuiet = false) :
    (w.noting e).outline = w.outline.noting e := by
  simp [outline, noting, he]

theorem shown_noting (w : World σ μ) {e : Entry μ}
    (he : ∀ seat l text, e ≠ .published seat (.displayed l text)) :
    (w.noting e).shown = w.shown := by
  have hskip : ∀ rest : List (Entry μ), (e :: rest).countP (fun
      | .published seat (.displayed ..) => seat == w.seat
      | _ => false) = rest.countP fun
      | .published seat (.displayed ..) => seat == w.seat
      | _ => false := by
    intro rest
    rw [List.countP_cons_of_neg]
    cases e with
    | published seat notice => cases notice with
      | displayed l text => exact absurd rfl (he seat l text)
      | started | entered | menuOpened | selected | waiting | completed | custom => simp
    | _ => simp
  exact hskip w.journal

end World

/-- Does the same in worlds with the same outline, and leaves alone what the outline hides. -/
def Aloof {α : Type} (x : Play σ μ α) : Prop :=
  ∀ ⦃w w' : World σ μ⦄, w.outline = w'.outline →
    Same (fun v v' => v.outline = v'.outline ∧ w.Untouched v ∧ w'.Untouched v') (x w) (x w')

structure Host.Aloof (host : Host σ μ) : Prop where
  read : ∀ h, Parley.Aloof (host.read h)
  write : ∀ h v, Parley.Aloof (host.write h v)
  call : ∀ h args, Parley.Aloof (host.call h args)
  callRaw : ∀ h args, Parley.Aloof (host.callRaw h args)
  handle : ∀ seat h n, Parley.Aloof (host.handle seat h n)

/-- Worlds with the same outline, in which nothing has been touched since `w` and `w'`. -/
def Since (w w' v v' : World σ μ) : Prop := v.outline = v'.outline ∧ w.Untouched v ∧ w'.Untouched v'

namespace World
variable {w w' : World σ μ}

theorem shown_quiet (w : World σ μ) {e : Entry μ} (he : e.isQuiet) : (w.noting e).shown = w.shown :=
  shown_noting w (by rintro seat l text rfl; cases he)

theorem untouched_quiet (w : World σ μ) {e : Entry μ} (he : e.isQuiet) : w.Untouched (w.noting e) :=
  ⟨rfl, rfl, rfl, rfl, w.shown_quiet he⟩

theorem outline_noting_congr (h : w.outline = w'.outline) {e : Entry μ} (he : e.isQuiet) :
    (w.noting e).outline = (w'.noting e).outline := by
  rw [outline_quiet w he, outline_quiet w' he, h]

theorem outline_withRunner (h : w.outline = w'.outline) {r r' : Runner} (hr : r.config = w.runner.config)
    (hr' : r'.config = w'.runner.config) (hb : r.bus = w.runner.bus) (hb' : r'.bus = w'.runner.bus) :
    (w.withRunner r).outline = (w'.withRunner r').outline := by
  show { w.outline with runner := { config := r.config.map Config.outline, bus := r.bus } } =
    { w'.outline with runner := { config := r'.config.map Config.outline, bus := r'.bus } }
  rw [hr, hr', hb, hb', h]
  have hconfig := congrArg (·.runner.config) h
  have hbus := congrArg (·.runner.bus) h
  simp only [outline] at hconfig hbus
  rw [hconfig, hbus]

theorem outline_publishing (h : w.outline = w'.outline) (n : Notice) :
    (w.noting (.published w.seat n)).outline = (w'.noting (.published w'.seat n)).outline := by
  have hseat : w.seat = w'.seat := (congrArg World.seat h :)
  rw [outline_noting w rfl, outline_noting w' rfl, h, hseat]

theorem shown_publishing (w : World σ μ) {n : Notice} (hn : ∀ l text, n ≠ .displayed l text) :
    (w.noting (.published w.seat n)).shown = w.shown :=
  shown_noting w (by rintro seat l text h; cases h; exact hn l text rfl)

theorem shown_displayed (w : World σ μ) (l : Line) (text : String) :
    (w.noting (.published w.seat (.displayed l text))).shown = w.shown + 1 := by
  unfold shown noting
  rw [List.countP_cons_of_pos (by simp)]

end World

/-- Nothing that evaluating, publishing and aloof host code do or look at tells worlds apart that have the same
outline. -/
theorem Host.Aloof.congruent {host : Host σ μ} (hh : host.Aloof) {R : World σ μ → World σ μ → Prop}
    (ho : ∀ {w w'}, R w w' → w.outline = w'.outline)
    (hR : ∀ {w w' v v'}, R w w' → Since w w' v v' → R v v') :
    Congruent host R where
  vars h := (congrArg World.vars (ho h) :)
  functions h := (congrArg World.functions (ho h) :)
  seat h := (congrArg World.seat (ho h) :)
  bus h := (congrArg (·.runner.bus) (ho h) :)
  strictText h := (congrArg Config.strictText (World.runnerConfig_of_outline (ho h)) :)
  isLive h s := by
    have hhost := congrArg World.host (ho h)
    have hbus := congrArg (·.runner.bus) (ho h)
    have hwings := congrArg World.wings (ho h)
    simp only [World.outline] at hhost hbus hwings
    simp only [World.isLive, World.keeps, hhost, hbus, hwings]
  noting {w w'} h _ he := hR h ⟨World.outline_noting_congr (ho h) he, w.untouched_quiet he, w'.untouched_quiet he⟩
  withVars h vs := hR h ⟨congrArg (World.withVars · vs) (ho h), ⟨rfl, rfl, rfl, rfl, rfl⟩, ⟨rfl, rfl, rfl, rfl, rfl⟩⟩
  withBus h b := hR h ⟨congrArg (World.withBus · b) (ho h), ⟨rfl, rfl, rfl, rfl, rfl⟩, ⟨rfl, rfl, rfl, rfl, rfl⟩⟩
  read hd _ _ h := (hh.read hd (ho h)).mono fun _ _ => hR h
  write hd v _ _ h := (hh.write hd v (ho h)).mono fun _ _ => hR h
  call hd args _ _ h := (hh.call hd args (ho h)).mono fun _ _ => hR h
  callRaw hd args _ _ h := (hh.callRaw hd args (ho h)).mono fun _ _ => hR h
  handle seat hd n _ _ h := (hh.handle seat hd n (ho h)).mono fun _ _ => hR h

theorem Host.Aloof.congruent_since {host : Host σ μ} (hh : host.Aloof) (w w' : World σ μ) :
    Congruent host (Since w w') :=
  hh.congruent (fun h => h.1) fun h h' => ⟨h'.1, h.2.1.trans h'.2.1, h.2.2.trans h'.2.2⟩

end Parley
