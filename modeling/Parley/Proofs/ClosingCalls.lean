import Parley.Proofs.Closings

/-! # Every call leaves closings

Rendering keeps a session live if all that it evaluates lets the session last, so worlds with closings are a footing
for stepping, and calls lead from one to another. Where a session starts, its name and that of its node are announced
one right after the other, without a look at the session in between: if a handler of the first has ended the session,
the second follows its completion at once. -/

namespace Parley
variable {σ μ : Type} {p : Expr → Prop} {P : μ → Prop} {q : Expr → Prop} {host : Host σ μ}

theorem Settling.complete (hh : host.Settles p P q) {w : World σ μ} (hw : w.InOrder fun _ => True) (htidy : w.Tidy p P)
    (h : w.Closing q) (hlive : w.runner.session.isSome) :
    Parley.wp (Play.complete host) (fun _ w' => w.Settles q w') (fun _ w' => w.Settles q w') w := by
  have hreset : w.Tends (fun _ => True) (w.withRunner w.runner.reset) :=
    hw.tends_withRunner (fun hr => by simp [Runner.IsResting, Runner.reset] at hr) fun hb => ⟨hb, .inl rfl⟩
  have htends : w.Tends (fun _ => True) w.completing :=
    (hreset.noting (Entry.ne_marked (e := .logged _) rfl)).noting (Entry.published_ne_marked _ _)
  have hcompleting : w.completing.Tidy p P :=
    ((htidy.withRunner (.reset p _)).noting (Entry.ne_marked (e := .logged _) rfl)).noting (Entry.published_ne_marked _ _)
  have hdeliver : Settling p P q (do let _ ← Play.deliver host (.completed w.runner.session); Pure.pure () : Play σ μ Unit) :=
    fun w₀ => (Play.upholds_deliver (hh.upkeep w₀) _).bind fun _ => .pure _
  have hdone := hdeliver w ⟨⟨htends, hcompleting⟩, h.completing hlive⟩
  exact wp_mono hdone (fun _ _ h => h.2) fun _ _ h => h.1.2

/-- A text keeps a session live if all that is in it lets the session last. -/
theorem Settling.render_live (hh : host.Settles p P q) (hlast : ∀ e, q e → Lasting host e) {text : List Segment}
    (h : ∀ e ∈ textExprs text, q e) (w₀ : World σ μ) :
    Upholds (fun w => w₀.Underway p P q w ∧ w.runner.Live) Fault.IsOrdinary (Play.render host text) := by
  refine Play.upholds_render_of (fun _ hf => hf) (fun message => ?_) fun e he => ?_
  · exact .modify fun w hw => ⟨hw.1.noting rfl, hw.2⟩
  · rintro w ⟨hw, hlive⟩
    have heval := Carries.settling (A := fun _ => True) (fun w₀ => Play.upholds_evaluate (hh.upkeep w₀).housekeeping.toBearing e) hw trivial
    refine wp_mono (wp_and heval (hlast e (h e he) hw.amid.during.busy hlive)) (fun _ _ h => ?_) fun _ _ h => ?_
    · exact ⟨h.1.1, h.2⟩
    · exact ⟨⟨h.1.1, h.2⟩, h.1.2⟩

theorem Settling.renderAll_live (hh : host.Settles p P q) (hlast : ∀ e, q e → Lasting host e) {choices : List Choice}
    (h : ∀ c ∈ choices, ∀ e ∈ textExprs c.text, q e) (w₀ : World σ μ) :
    Upholds (fun w => w₀.Underway p P q w ∧ w.runner.Live) Fault.IsOrdinary (Play.renderAll host choices) := by
  induction choices with
  | nil => exact .pure _
  | cons c rest ih =>
    obtain ⟨hc, hrest⟩ := List.forall_mem_cons.1 h
    exact (render_live hh hlast hc w₀).bind fun _ => (ih hrest).bind fun _ => .pure _

/-- Rendering ends the session only if what it is rendered for is late then. -/
theorem Carries.live_or_late {α : Type} {x : Play σ μ α} {n : α → Notice} (hx : Settling p P q x)
    (hlate : ∀ a b, (n a).texts = (n b).texts)
    (hlive : (∀ a, ∀ text ∈ (n a).texts, ∀ e ∈ textExprs text, q e) →
      ∀ w₀ : World σ μ, Upholds (fun w => w₀.Underway p P q w ∧ w.runner.Live) Fault.IsOrdinary x) :
    Carries (World.Underway p P q) (World.UnderwayFault p P q) Runner.Live x fun a r => r.Live ∨ (n a).IsLate q := by
  by_cases h : ∃ a, (n a).IsLate q
  · obtain ⟨a, text, htext, he⟩ := h
    exact (Carries.settling hx).mono (fun _ h => h) fun b _ _ => .inr ⟨text, hlate a b ▸ htext, he⟩
  · have hq : ∀ a, ∀ text ∈ (n a).texts, ∀ e ∈ textExprs text, q e := fun a text htext e he =>
      Classical.byContradiction fun hne => h ⟨a, text, htext, e, he, hne⟩
    intro w₀ w hw hr
    exact wp_mono (hlive hq w₀ ⟨hw, hr⟩) (fun _ _ h => ⟨h.1, .inl h.2⟩) fun _ _ h => ⟨h.1.1, h.2⟩

/-- A live session may announce what needs no rendering. -/
theorem Carries.telling (hh : host.Settles p P q) {n : Notice} (hcustom : n.isCustom = false)
    (hgoes : n.isCompleted = false) :
    Carries (World.Underway p P q) (World.UnderwayFault p P q) Runner.Live (Play.publish host n) fun _ _ => True := by
  have h := Carries.announcing hh (x := Pure.pure ()) (n := fun _ : Unit => n) (fun _ => .pure ()) (fun _ => hcustom)
    (fun _ => hgoes) (.pure fun _ => .inl)
  rwa [pure_bind] at h

/-- A step whose queries are calm may rely on closings. -/
theorem Host.Settles.footing (hh : host.Settles p P q) (hcalm : ∀ e, p e → Calm host e)
    (hlast : ∀ e, q e → Lasting host e) :
    Footing host p (World.Underway p P q) (World.UnderwayFault p P q) Runner.Live where
  live h := h
  ready h _ := h
  congr h hs _ := by rwa [Runner.Live, hs]
  own hf hw := ⟨hw, hf⟩
  tidy hw := hw.amid.tidy.front
  nodes hw := hw.amid.tidy.nodes
  noting hw _ he := hw.noting he
  withRunner hw _ hr hb hs _ := hw.withRunner hr hb hs
  upheld hx := .settling fun w₀ => hx (hh.upkeep w₀)
  test what e he := .keeping (.settling fun w₀ => Play.upholds_test (hh.upkeep w₀) what e)
    (fun hw => hw.amid.during.busy) fun _ => (hcalm e he).wp_test what
  waitDuration e line he := .keeping (.settling fun w₀ => Play.upholds_waitDuration (hh.upkeep w₀) e line)
    (fun hw => hw.amid.during.busy) fun _ => (hcalm e he).wp_waitDuration line
  entered _ := .telling hh rfl rfl
  displayed l := by
    have hx : Settling p P q (Play.render host l.text) := fun w₀ => Play.upholds_render (hh.upkeep w₀) l.text
    have hlive := Carries.live_or_late (n := fun text => .displayed l text) hx (fun _ _ => rfl) fun hq =>
      Settling.render_live hh hlast (hq "" l.text (List.mem_singleton_self _))
    have hshown := (Carries.announcing hh hx (n := fun text => .displayed l text) (fun _ => rfl) (fun _ => rfl) hlive).bind
      fun _ => .pure (B := fun _ _ => True) (a := ()) fun _ h => h
    simp only [bind_assoc] at hshown
    exact hshown.mono (fun _ h => h) fun _ _ _ h => h
  opened choices hchoices := by
    have hx : Settling p P q (Play.renderAll host choices) := fun w₀ => Play.upholds_renderAll (hh.upkeep w₀) choices
    have hlive := Carries.live_or_late (n := fun texts => .menuOpened choices texts) hx (fun _ _ => rfl) fun hq =>
      Settling.renderAll_live hh hlast fun c hc => hq [] c.text (List.mem_map_of_mem hc)
    refine .openMenu (fun hw hr => ⟨?_, hr⟩) (.announcing hh hx (fun _ => rfl) (fun _ => rfl) hlive)
    exact hw.withRunner (.of_live hr (hw.amid.tidy.front.rooted hr) hchoices) rfl rfl
  waiting _ := .telling hh rfl rfl
  complete := by
    intro w₀ w hw hlive
    have hcomplete := Settling.complete hh hw.amid.during.tends.order hw.amid.tidy hw.settles.closing hlive
    have htidy := (Tidying.complete hh.tidies).wp hw.amid.during.tends.order hw.amid.tidy
    refine wp_mono (wp_and htidy hcomplete) (fun _ _ h => ?_) fun _ _ h => ?_
    · exact ⟨hw.interrupted h, trivial⟩
    · exact ⟨hw.interrupted ⟨h.1.1, h.2⟩, h.1.2⟩

namespace World
variable (w : World σ μ) (n : Node) (name : String) (index : Nat)

theorem phase_opening (s : Nat) : (w.opening n name index).phase s =
    if s = w.seat then some (some (w.sessions + 1), true) else w.phase s :=
  phase_withRunner { w with sessions := w.sessions + 1 } _ s

variable {w}

theorem Closing.opening (h : w.Closing q) (hidle : w.runner.busy = false) : w.Settles q (w.opening n name index) := by
  refine ⟨⟨fun s => ?_, fun s id busy hs => ?_⟩, h.settles.hushed.front hidle rfl (fun s hs => ?_) fun s hs => ?_⟩
  · rw [told_opening]
    split
    · exact ⟨.inl rfl, h.final s⟩
    · exact h.final s
  · rw [told_opening]
    split
    · trivial
    · next hne =>
      rw [phase_opening, if_neg hne] at hs
      exact h.running s id busy hs
  · rw [phase_opening, if_neg hs]
  · rw [told_opening, if_neg hs]

end World

/-- Between calls, in a step, and after a call. -/
theorem World.landing_closing :
    Landing p (fun w : World σ μ => w.Tidy p P ∧ w.Closing q) (World.Underway p P q) (World.UnderwayFault p P q)
      (fun w w' => w'.Tidy p P ∧ w.Settles q w') fun w f w' => (w'.Tidy p P ∧ w.Settles q w') ∧ f.IsOrdinary where
  tidy h := h.1.front
  nodes h := h.1.nodes
  noting h _ he := ⟨h.1.noting (Entry.ne_marked he), (h.2.settles.quiet he).closing⟩
  begun {w} hw h hidle := by
    refine ⟨⟨hw.during hidle rfl (.inr trivial), h.1.withRunner (h.1.front.congr rfl)⟩, h.2.withRunner rfl, ?_⟩
    exact h.2.settles.hushed.front hidle rfl (fun s hs => by rw [begun, phase_withRunner, if_neg hs]) fun _ _ => rfl
  rested hw := hw.rested
  failed hw := ⟨hw.1.rested, hw.2⟩
  refused hf h _ he := ⟨⟨h.1.noting (Entry.ne_marked he), h.2.settles.quiet he⟩, hf⟩
  noted he h := ⟨h.1, h.2.of_quiet he⟩
  notedFault he h := ⟨⟨h.1.1, h.1.2.of_quiet he⟩, h.2⟩

theorem Settling.failLimit {α : Type} (hh : host.Settles p P q) (limit : Nat) :
    Settling p P q (Play.failLimit limit : Play σ μ α) := by
  refine .of_tidying (Tidying.failLimit hh.tidies limit) fun w _ htidy h => ?_
  obtain ⟨name, hname⟩ := htidy.front.currentNode
  rw [Parley.wp, Play.failLimit_eq hname]
  exact h.settles.quiet (e := .logged _) rfl

theorem Settling.of_landing {α : Type} {x : Play σ μ α} (ht : Tending (fun _ => True) x)
    (h : ∀ w : World σ μ, w.InOrder (fun _ => True) → w.Tidy p P ∧ w.Closing q →
      Parley.wp x (fun _ w' => w'.Tidy p P ∧ w.Settles q w')
        (fun f w' => (w'.Tidy p P ∧ w.Settles q w') ∧ f.IsOrdinary) w) : Settling p P q x := by
  rintro w₀ w ⟨⟨hw, htidy⟩, hsettles⟩
  refine wp_mono (wp_and (ht.wp hw.order) (h w hw.order ⟨htidy, hsettles.closing⟩)) (fun _ _ h => ?_) fun _ _ h => ?_
  · exact ⟨⟨hw.trans h.1, h.2.1⟩, hsettles.trans h.2.2⟩
  · exact ⟨⟨⟨hw.trans h.1, h.2.1.1⟩, hsettles.trans h.2.1.2⟩, h.2.2⟩

namespace Play
variable (hh : host.Settles p P q) (hcalm : ∀ e, p e → Calm host e) (hlast : ∀ e, q e → Lasting host e)
include hh hcalm hlast

theorem wp_startAt_closing {w : World σ μ} {n : Node} {name : String} {index : Nat} (hw : w.InOrder fun _ => True)
    (h : w.Tidy p P ∧ w.Closing q) (hidle : w.runner.busy = false) (hn : n.Asks p) :
    wp (startAt host n name index) (fun _ w' => w'.Tidy p P ∧ w.Settles q w')
      (fun f w' => (w'.Tidy p P ∧ w.Settles q w') ∧ f.IsOrdinary) w := by
  have hopening : w.Underway p P q (w.opening n name index) :=
    ⟨⟨hw.opening hidle n name index, h.1.opening hn⟩, h.2.opening n name index hidle⟩
  have hstarted : Settling p P q (deliver host (.started (w.sessions + 1) name)) := fun w₀ =>
    upholds_deliver (hh.upkeep w₀) _
  have hentered : Settling p P q (deliver host (.entered name)) := fun w₀ => upholds_deliver (hh.upkeep w₀) _
  rw [wp, startAt_eq]
  refine World.landing_closing.ensuring ?_
  rw [wp_bind]
  refine wp_mono (hstarted.wp hopening.amid.during.tends.order hopening.amid.tidy hopening.settles.closing)
    (fun _ w' h' => ?_) fun _ _ h' => ⟨hopening.interrupted h'.1, h'.2⟩
  have hw' := hopening.interrupted h'
  have htold := w.told_opening n name index w.seat
  have hphase := w.phase_opening n name index w.seat
  rw [if_pos rfl] at htold hphase
  -- a handler may have ended the session, and then this is the one that was announced to start
  have hfollows : (Notice.entered name).Follows (Notice.IsLate q) (w'.told w'.seat) := by
    rw [hw'.seat]
    rcases h'.2.hushed w.seat _ hphase with ⟨-, hsame⟩ | ⟨-, -, hcompleted⟩
    · rw [hsame, htold]
      exact .inr (.inl trivial)
    · rw [htold] at hcompleted
      exact .inr (.inr ⟨_, _, hcompleted, .inr ⟨_, _, _, rfl, rfl, rfl⟩⟩)
  have hnoted := hw'.announcing rfl hfollows rfl
  have hrest := (Carries.settling (A := fun _ => True) hentered).bind fun _ => (hh.footing hcalm hlast).advance
  exact wp_mono (hrest hnoted trivial) (fun _ _ h => h.1) fun _ _ h => h

theorem settling_start (name : Option String) (index : Int) (force : Bool) :
    Settling p P q (start host name index force) :=
  .of_landing (tending_start hh.tidies.tends name index force) fun _ =>
    World.landing_closing.start (wp_startAt_closing hh hcalm hlast) name index force

theorem settling_resume : Settling p P q (resume host) :=
  .of_landing (tending_resume hh.tidies.tends) fun _ => World.landing_closing.resume (hh.footing hcalm hlast)

theorem settling_jump (name : String) : Settling p P q (jump host name) :=
  .of_landing (tending_jump hh.tidies.tends name) fun _ => World.landing_closing.jump (hh.footing hcalm hlast) name

theorem settling_select (index : Int) : Settling p P q (select host index) :=
  .of_landing (tending_select hh.tidies.tends index) fun _ hw h => World.landing_closing.select (hh.footing hcalm hlast)
    (fun hidle hlive _ => wp_mono (Carries.telling hh rfl rfl (World.landing_closing.begun hw h hidle) hlive)
      (fun _ _ h => h.1) fun _ _ h => h) index h

omit hcalm hlast in
theorem settling_finish (force : Bool) : Settling p P q (finish host force) := by
  refine .of_tidying (tidying_finish hh.tidies force) fun w hw htidy h => ?_
  simp only [finish, wp_bind, wp_runner, wp_ite, wp_refuse]
  split
  · exact h.settles.quiet (e := .logged _) rfl
  · split
    · exact h.settles.quiet (e := .logged _) rfl
    · next hs => exact Settling.complete hh hw htidy h (by simpa [Option.isSome_iff_ne_none] using hs)

theorem settling_perform {op : Operation} (hop : op.Brings (Node.Asks p)) : Settling p P q (perform host op) := by
  have hdone {x : Play σ μ Unit} (hx : Settling p P q x) : Settling p P q (do x; return Answer.done) :=
    fun w₀ => (hx w₀).bind fun _ => .pure _
  refine fun w₀ => upholds_perform (hh.upkeep w₀) (op.brings_parsed.and hop) fun hsession => ?_
  have hcall : Settling p P q (perform host op) := by
    cases op with
    | start name index force => exact hdone (settling_start hh hcalm hlast name index force)
    | resume => exact hdone (settling_resume hh hcalm hlast)
    | select index => exact hdone (settling_select hh hcalm hlast index)
    | jump name => exact hdone (settling_jump hh hcalm hlast name)
    | finish force => exact hdone (settling_finish hh force)
    | nextContent =>
      exact fun w₀ => (upholds_nextContent (hh.upkeep w₀) fun limit => Settling.failLimit hh limit w₀).bind fun _ => .pure _
    | _ => cases hsession
  exact hcall w₀

end Play
end Parley
