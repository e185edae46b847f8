import Parley.Proofs.Midstep

/-! # A step is tidy where its queries are calm

An expression is `Calm` if its evaluation in the middle of a step does not end the session of that step. Tidy worlds
are a footing for stepping as soon as queries are calm: whatever the engine writes while the session is live leaves a
tidy runner, and so does whatever host code does. -/

namespace Parley
variable {σ μ : Type}

/-- Does not end the session of a step in the middle of which it is evaluated. -/
def Calm (host : Host σ μ) (e : Expr) : Prop :=
  ∀ ⦃w : World σ μ⦄, w.runner.busy = true → w.runner.session.isSome →
    wp (Play.evaluate host e) (fun _ w' => w'.runner.session.isSome) (fun _ _ => True) w

namespace Calm
variable {host : Host σ μ} {e : Expr} {w : World σ μ}

theorem wp_test (h : Calm host e) (what : String) (hbusy : w.runner.busy = true) (hlive : w.runner.session.isSome) :
    wp (Play.test host what e) (fun _ w' => w'.runner.session.isSome) (fun _ _ => True) w := by
  rw [Play.test, wp_bind]
  refine wp_mono (h hbusy hlive) (fun v w' h => ?_) fun _ _ h => h
  split
  · exact h
  · unfold wp
    split
    · next h' =>
      obtain ⟨_, _, _, h'⟩ := bind_ok h'
      cases h'
    · trivial

theorem wp_waitDuration (h : Calm host e) (line : Int) (hbusy : w.runner.busy = true)
    (hlive : w.runner.session.isSome) :
    wp (Play.waitDuration host e line) (fun _ w' => w'.runner.session.isSome) (fun _ _ => True) w := by
  rw [Play.waitDuration, wp_bind]
  refine wp_mono (h hbusy hlive) (fun v w' h => ?_) fun _ _ h => h
  split
  · exact h
  · trivial

end Calm

/-- Inside a step that the runner in front began in `w₀`, in a tidy world. -/
structure World.Amid (p : Expr → Prop) (P : μ → Prop) (w₀ w : World σ μ) : Prop where
  during : World.During (fun _ => True) w₀ (fun _ => True) w
  tidy : w.Tidy p P

namespace World.Amid
variable {p : Expr → Prop} {P : μ → Prop} {w₀ w w' : World σ μ}

theorem interrupted (h : w₀.Amid p P w) (ht : w.Tends (fun _ => True) w') (htidy : w'.Tidy p P) : w₀.Amid p P w' :=
  ⟨h.during.interrupted ht, htidy⟩

theorem withRunner (h : w₀.Amid p P w) {r : Runner} (hr : r.Tidy p) (hbusy : r.busy = w.runner.busy) :
    w₀.Amid p P (w.withRunner r) :=
  ⟨h.during.withRunner (hbusy.trans h.during.busy) (.inr trivial), h.tidy.withRunner hr⟩

theorem noting (h : w₀.Amid p P w) {e : Entry μ} (he : ∀ m, e ≠ .marked m) : w₀.Amid p P (w.noting e) :=
  h.interrupted (h.during.tends.order.tends.noting he) (h.tidy.noting he)

end World.Amid

/-- In the middle of a step that has failed with an ordinary fault. -/
def World.AmidFault (p : Expr → Prop) (P : μ → Prop) (w₀ : World σ μ) (f : Fault) (w : World σ μ) : Prop :=
  w₀.Amid p P w ∧ f.IsOrdinary

section
variable {p : Expr → Prop} {P : μ → Prop} {host : Host σ μ}

theorem Carries.tidying {α : Type} {A : Runner → Prop} {x : Play σ μ α} (hx : Tidying p P x) :
    Carries (World.Amid p P) (World.AmidFault p P) A x fun _ _ => True := by
  intro w₀ w hw hr
  refine wp_mono (hx.wp hw.during.tends.order hw.tidy) (fun _ _ h => ?_) fun _ _ h => ?_
  · exact ⟨hw.interrupted h.1 h.2, trivial⟩
  · exact ⟨hw.interrupted h.1.1 h.1.2, h.2⟩

namespace Tidying
variable (hh : host.Tidies p P)
include hh

theorem log (level : LogLevel) (channel : LogChannel) (message : String) :
    Tidying p P (Play.log level channel message : Play σ μ Unit) :=
  fun w₀ => Play.upholds_log (hh.upkeep w₀) ..

theorem publish (n : Notice) : Tidying p P (Play.publish host n) := fun w₀ =>
  Play.upholds_publish (hh.upkeep w₀) fun h => ⟨h.1.noting (Entry.published_ne_marked _ _), h.2.noting (Entry.published_ne_marked _ _)⟩

theorem complete : Tidying p P (Play.complete host) := by
  have hreset : Tidying p P (Play.modifyRunner Runner.reset : Play σ μ Unit) :=
    .of_tending (.modify fun w hw => hw.tends_withRunner (fun hr => by simp [Runner.IsResting, Runner.reset] at hr)
      fun hb => ⟨hb, .inl rfl⟩) fun w _ h => h.withRunner (.reset p _)
  refine .runner fun r => hreset.bind fun _ => (log hh _ _ _).bind fun _ => ?_
  exact (publish hh _).bind fun _ => .pure _

/-- A runner is somewhere, or without a session. -/
theorem failLimit {α : Type} (limit : Nat) : Tidying p P (Play.failLimit limit : Play σ μ α) := by
  intro w₀ w hw
  obtain ⟨name, hname⟩ := hw.2.front.currentNode
  have hnoted := (hh.upkeep w₀).noting hw (.logged ⟨.error, .runner, Fault.message (.limit limit name)⟩) rfl
  rw [Parley.wp, Play.failLimit_eq hname]
  exact ⟨hnoted, rfl⟩

end Tidying

/-- Tidy worlds bear a step whose queries are calm. -/
theorem Host.Tidies.footing (hh : host.Tidies p P) (hcalm : ∀ e, p e → Calm host e) :
    Footing host p (World.Amid p P) (World.AmidFault p P) Runner.Live where
  live h := h
  ready h _ := h
  congr h hs _ := by rwa [Runner.Live, hs]
  own hf hw := ⟨hw, hf⟩
  tidy hw := hw.tidy.front
  nodes hw := hw.tidy.nodes
  noting hw _ he := hw.noting (Entry.ne_marked he)
  withRunner hw _ hr hbusy _ _ := hw.withRunner hr hbusy
  upheld hx := .tidying fun w₀ => hx (hh.upkeep w₀)
  test what e he := .keeping (.tidying fun w₀ => Play.upholds_test (hh.upkeep w₀) what e) (fun hw => hw.during.busy)
    fun _ => (hcalm e he).wp_test what
  waitDuration e line he := .keeping (.tidying fun w₀ => Play.upholds_waitDuration (hh.upkeep w₀) e line)
    (fun hw => hw.during.busy) fun _ => (hcalm e he).wp_waitDuration line
  entered _ := .tidying (.publish hh _)
  displayed l := by
    have hshown : Tidying p P (Play.display host l) := fun w₀ => (Play.upholds_render (hh.upkeep w₀) l.text).bind fun _ =>
      (Tidying.publish hh _ w₀).bind fun _ => .pure _
    exact (Carries.tidying hshown).mono (fun _ h => h) fun _ _ _ h => h
  opened choices hchoices := by
    have hopened : Tidying p P (do let texts ← Play.renderAll host choices; Play.publish host (.menuOpened choices texts)) :=
      fun w₀ => (Play.upholds_renderAll (hh.upkeep w₀) choices).bind fun _ => Tidying.publish hh _ w₀
    refine .openMenu (fun hw hlive => ⟨?_, trivial⟩) (Carries.tidying (A := fun _ => True) hopened)
    exact hw.withRunner (.of_live hlive (hw.tidy.front.rooted hlive) hchoices) rfl
  waiting _ := .tidying (.publish hh _)
  complete := .tidying (.complete hh)

end
end Parley
