import Parley.Proofs.NextContent
import Parley.Proofs.PlainGuards
import Parley.Proofs.Reserved
import Parley.Proofs.Shortcut

/-! # An early menu is the next one

A call that has displayed a line and opened the menu behind it at once ends as the same call and, if a menu comes
next, one more that goes on to it: the walk ahead stops where the second call does (`scan_meets`), so taking the
walk over leaves the runner where the silent steps of that call lead. -/

namespace Parley
variable {σ μ : Type}

namespace World

/-- The runner in front opens menus at once, or not. -/
def withAutoChoices (w : World σ μ) (b : Bool) :
    World σ μ := w.setRunnerConfig { w.runnerConfig with autoChoices := b }

section
variable (w : World σ μ) (b : Bool)

theorem runner_withAutoChoices : (w.withAutoChoices b).runner.place = w.runner.place ∧
    (w.withAutoChoices b).runner.busy = w.runner.busy := by
  unfold withAutoChoices setRunnerConfig
  cases w.runner.config <;> exact ⟨rfl, rfl⟩

theorem outline_withAutoChoices : (w.withAutoChoices b).outline = w.outline := by
  unfold withAutoChoices setRunnerConfig runnerConfig outline
  cases hc : w.runner.config <;> simp [hc, Config.outline]

theorem autoChoices_withAutoChoices : (w.withAutoChoices b).runnerConfig.autoChoices = b := by
  unfold withAutoChoices setRunnerConfig runnerConfig
  cases hc : w.runner.config <;> simp [hc]

theorem shown_withAutoChoices : (w.withAutoChoices b).shown = w.shown := by
  unfold withAutoChoices setRunnerConfig
  cases w.runner.config <;> rfl

/-- The setting is changed by a call. -/
theorem after_configure (host : Host σ μ) :
    after (Play.perform host (.configure "auto_advance_to_choices" (.boolean b))) w = w.withAutoChoices b := rfl

end

namespace Beside
variable {w v u : World σ μ}

theorem published (h : w.Beside v) : w.published = v.published := by
  rw [← w.published_outline, ← v.published_outline, h.outline]

theorem vars (h : w.Beside v) : w.vars = v.vars := (congrArg World.vars h.outline :)

end Beside

end World

theorem Config.eq_of_outline {c d : Config} (h : c.outline = d.outline)
    (ha : c.autoChoices = d.autoChoices) : c = d := by
  cases c; cases d
  simp only [outline, mk.injEq] at h ⊢
  simp_all

theorem World.Untouched.alike {w v : World σ μ} (h : w.Untouched v) (ho : w.outline = v.outline) :
    w.Alike v := by
  have hshared : v.config = w.config := Config.eq_of_outline (congrArg World.config ho :).symm h.shared
  have hown : v.runner.config = w.runner.config := by
    have hc : w.runner.config.map Config.outline = v.runner.config.map Config.outline := (congrArg (·.runner.config) ho :)
    have ha := h.own
    generalize w.runner.config = c at hc ha
    generalize v.runner.config = d at hc ha
    cases c <;> cases d
    · rfl
    · cases hc
    · cases hc
    · exact congrArg some (Config.eq_of_outline (Option.some.inj hc).symm (Option.some.inj ha))
  have hbus : v.runner.bus = w.runner.bus := (congrArg (·.runner.bus) ho :).symm
  have hplace := h.place
  have hbusy := h.busy
  refine ⟨?_, (congrArg World.vars ho :).symm, hshared, ?_⟩
  · cases hw : w.runner; cases hv : v.runner
    rw [hw, hv] at hown hbus hplace hbusy
    simp only [Runner.place, Place.mk.injEq] at hplace
    simp_all
  · rw [← v.published_outline, ← w.published_outline, ho]

/-- A guard that leaves the outline as it is in one world has one answer in all worlds with that outline. -/
theorem answering_of_aloof {host : Host σ μ} (hh : host.Aloof) {v : World σ μ} {what : String} {e : Expr}
    (h : (after (Play.test host what e) v).outline = v.outline) :
    Answering (fun w => w.outline = v.outline) (Play.test host what e) := by
  have hstay (w : World σ μ) (hw : w.outline = v.outline) :=
    Play.keeps_test (hh.congruent_since w v) what e (⟨hw, .refl w, .refl v⟩ : Since w v w v)
  unfold after at h
  generalize Play.test host what e v = r at h hstay
  cases r with
  | ok a v' =>
    refine ⟨.ok a, fun w hw => ?_⟩
    obtain ⟨w', hx, ho, hu, -⟩ := (hstay w hw).ok_right
    exact ⟨w', hx, ho.trans h, hu.alike (hw.trans (ho.trans h).symm)⟩
  | error f v' =>
    refine ⟨.error f, fun w hw => ?_⟩
    obtain ⟨w', hx, ho, hu, -⟩ := (hstay w hw).error_right
    exact ⟨w', hx, ho.trans h, hu.alike (hw.trans (ho.trans h).symm)⟩

/-- Where guards leave the outline as it is, they have an answer each as long as it is the same. -/
theorem Steady.of_aloof {host : Host σ μ} (hh : host.Aloof) {v : World σ μ} {n : Node}
    (h : contentGuarded (fun what e => (after (Play.test host what e) v).outline = v.outline) n.content) :
    Steady host (fun w => w.outline = v.outline) n where
  moved hw hconfig hbus := (World.outline_withRunner hw hconfig rfl hbus rfl : _ = (v.withRunner v.runner).outline)
  logged _ hw := (World.outline_quiet _ rfl).trans hw
  guards := contentGuarded_mono (fun _ _ he => answering_of_aloof hh he) h

/-- A guard that keeps to the script leaves the outline as it is. -/
theorem outline_of_plain (host : Host σ μ) {v : World σ μ} {e : Expr} (h : e.isPlain v.vars)
    (what : String) :
    (after (Play.test host what e) v).outline = v.outline := by
  have hS : Knowing v.vars fun w : World σ μ => w.outline = v.outline :=
    ⟨fun h => (congrArg World.vars h :), fun {w} {_} h he => (w.outline_quiet he).trans h⟩
  obtain ⟨a, ha⟩ : Answering _ (Play.test host what e) := Play.answering_test hS h what
  obtain ⟨w, hw, hS, -⟩ := ha v rfl
  rw [after, hw]
  cases a <;> exact hS

namespace Play
variable {host : Host σ μ}

theorem unbound_beside (hh : host.Aloof) :
    Unbound host (World.Beside : World σ μ → World σ μ → Prop) where
  toCongruent := hh.congruent (fun h => h.outline) fun h ⟨ho, hw, hw'⟩ => ⟨ho, by rw [hw.place, hw'.place, h.place]⟩
  place h := h.place
  limit h := (congrArg Config.maxSteps (World.runnerConfig_of_outline h.outline) :)
  roaming {w w'} h stack memo :=
    ⟨World.outline_withRunner h.outline rfl rfl rfl rfl, congrArg (fun p : Place => { p with stack, memo }) h.place⟩
  nodes h := (congrArg World.nodes h.outline :)
  moved h _ _ := ⟨World.outline_withRunner h.outline rfl rfl rfl rfl, rfl⟩
  publishing h n _ := ⟨World.outline_publishing h.outline n, h.place⟩

/-- At the end of a step no runner is busy. -/
theorem same_rested {x y : Play σ μ Unit} {w w' : World σ μ} (h : Same World.Beside (x w) (y w')) :
    Same (fun v v' => v.Beside v' ∧ v.runner.busy = v'.runner.busy) (x.ensuring World.rested w)
      (y.ensuring World.rested w') :=
  h.ensuring fun _ _ hv => ⟨⟨World.outline_withRunner hv.outline rfl rfl rfl rfl, hv.place⟩, rfl⟩

theorem advanceToChoices_eq {a : Lookahead} {w u : World σ μ} (h : scan host w = .ok a u) :
    advanceToChoices host w = (if a.kind = .choice then do
      modifyRunner fun r => r.adopt a
      openMenu host a.choices
    else pure () : Play σ μ Unit) u :=
  run_bind_ok h

/-- A call that comes to a menu opens it. -/
theorem resume_menu {w v : World σ μ} (hactive : w.runner.state = .active) (hidle : w.runner.busy = false)
    {live : List Choice} {run fuel steps : Nat}
    (h : approach host w.begun = .ok (some ⟨.menu live run, fuel, steps⟩) v) :
    resume host w = (do
      modifyRunner fun r => r.skip run
      openMenu host live : Play σ μ Unit).ensuring World.rested v := by
  rw [resume_eq host hactive hidle, busyStep_eq]
  refine ensuring_congr ((run_bind_ok h).trans ?_) _
  simp [proceed, carryOut]

end Play
theorem Sight.menu_of_next {s : Sight} (h : s.next = .choice) : ∃ live run, s = .menu live run := by
  cases s with
  | menu live run => exact ⟨live, run, rfl⟩
  | command c => cases c <;> cases h
  | finish | leave | enter | passBy | line => cases h

/-- Taking a walk over leaves a runner where the silent steps to the same menu, and the one past its choices, do. -/
theorem Lookahead.Meets.adopted {a : Lookahead} {live : List Choice} {run : Nat} {r r' q : Runner}
    (h : a.Meets (.menu live run) { r with wait := none } r') (hq : q.place = r.place)
    (hwait : r.wait = none) :
    (q.adopt a).place = (r'.skip run).place := by
  have hrun : a.run = run := h.run
  have hstack : (q.adopt a).stack = skipTop run a.stack := by
    unfold Runner.adopt skipTop
    cases a.stack <;> simp [hrun]
  have hmemo : (q.adopt a).memo = a.memo.filter fun entry => (stackKeys a.stack).contains entry.1 := rfl
  simp only [Runner.place, Place.mk.injEq] at hq ⊢
  rw [r'.skip_eq, h.runner, hstack, hmemo]
  exact ⟨rfl, rfl, hq.2.2.1, hq.2.2.2.1, hq.2.2.2.2.trans hwait⟩

/-- Behind a line: looking ahead at once, and the query and the call that it leads to. -/
theorem Play.advanceToChoices_shortcut {host : Host σ μ} (hh : host.Aloof) {v z u : World σ μ}
    (hv : v.Beside z) (hz : z.runner.place.Ready) (hidle : z.runner.busy = false) {n : Node}
    (hst : Steady host (fun w => w.outline = z.outline) n) (hp : Placed n z.runner.stack z.runner.memo)
    {next : NextContent} (hnext : nextContent host z = .ok next u) :
    Same (fun v v' => v.Beside v' ∧ v.runner.busy = v'.runner.busy) ((advanceToChoices host).ensuring World.rested v)
      ((if next = .choice then resume host else pure ()) u) := by
  have hbeside := unbound_beside hh
  obtain ⟨hlive, hmenu⟩ := Runner.state_active hz.active
  -- the walk ahead is the same in all three worlds
  rw [nextContent_eq host hz.active] at hnext
  obtain ⟨a, _, hscan, hkind⟩ := bind_ok hnext
  cases hkind
  obtain ⟨v₁, hscan₁, hv₁⟩ := (hscan ▸ keeps_scan hbeside.toParallel hv : Same _ (scan host v) (.ok a u)).ok_right
  obtain ⟨o, u', _, hscan', -, hu, -, halike, -⟩ := scan_meets hst rfl hlive hmenu hp
  obtain ⟨-, rfl⟩ := Except.inWorld_ok (hscan'.symm.trans hscan)
  have hzu : u'.Beside z := ⟨hu, congrArg Runner.place halike.runner⟩
  obtain ⟨u₁, hscan₂, -⟩ := (hscan ▸ keeps_scan hbeside.toParallel hzu : Same _ (scan host u') (.ok a u')).ok_right
  split
  · next hchoice =>
    obtain ⟨o, u₂, y, hscan₃, happroach, -, hy, -, -, hmeets⟩ := scan_meets (w := u') hst hu (by rw [halike.runner]; exact hlive)
      (by rw [halike.runner]; exact hmenu) (by rw [halike.runner]; exact hp)
    obtain ⟨ho, rfl⟩ := Except.inWorld_ok (hscan₃.symm.trans hscan₂)
    obtain ⟨s, fuel, steps, rfl⟩ : ∃ s fuel steps, o = .ok (a, ⟨s, fuel, steps⟩) := by
      cases o <;> cases ho
      exact ⟨_, _, _, rfl⟩
    have hmeet := hmeets _ _ rfl
    obtain ⟨live, run, rfl⟩ := Sight.menu_of_next (hmeet.kind.symm.trans hchoice)
    rw [resume_menu (by rw [halike.runner]; exact hz.active) (by rw [halike.runner]; exact hidle) happroach,
      ensuring_congr (advanceToChoices_eq hscan₁), if_pos hchoice, hmeet.choices]
    refine same_rested ?_
    -- the runners take the same place, one by adopting the walk and one by its steps
    have hready : u'.runner.place.Ready := by rw [halike.runner]; exact hz
    refine keeps_openMenu hbeside.toRoving live ⟨?_, hmeet.adopted hv₁.place hready.wait⟩
    exact World.outline_withRunner (hv₁.outline.trans (hu.trans hy.symm)) rfl (congrArg Runner.config (y.runner.skip_eq run) :)
      rfl (congrArg Runner.bus (y.runner.skip_eq run) :)
  · next hother =>
    rw [ensuring_congr (advanceToChoices_eq hscan₁), if_neg hother]
    refine .ok () ⟨⟨?_, hv₁.place⟩, ?_⟩
    · exact (World.outline_withRunner hv₁.outline rfl rfl rfl rfl : _ = (u'.withRunner u'.runner).outline)
    · show false = u'.runner.busy
      rw [halike.runner, hidle]

/-- The setting is only a shortcut: when a call displays a line without it, and the query for what comes next goes
well then, the call with the setting comes to the same as that call followed, if a menu comes next, by another one. -/
theorem autoChoices_shortcut {host : Host σ μ} (hhost : host.RunsCode) (hh : host.Aloof) {w : World σ μ}
    (hw : Reachable host w) {op : Operation} (hop : op.advances) {a : Answer} {v : World σ μ}
    (hrun : Play.perform host op (w.withAutoChoices false) = .ok a v) (hline : w.shown < v.shown)
    (hguards : ∀ f ∈ v.runner.stack.getLast?, f.container.Guarded fun what e => (after (Play.test host what e) v).outline = v.outline)
    {next : NextContent} {u : World σ μ} (hnext : Play.nextContent host v = .ok next u) :
    Same (fun x y => x.Beside y ∧ x.runner.busy = y.runner.busy ∧ x.published = y.published ∧ x.vars = y.vars)
      (Play.perform host op (w.withAutoChoices true))
      ((if next = .choice then Play.perform host .resume else return a) u) := by
  obtain ⟨hon, honBusy⟩ := w.runner_withAutoChoices true
  obtain ⟨hoff, hoffBusy⟩ := w.runner_withAutoChoices false
  have hpaired : Paired (fun _ => True) w.shown (w.withAutoChoices true) (w.withAutoChoices false) :=
    ⟨⟨(w.outline_withAutoChoices true).trans (w.outline_withAutoChoices false).symm, hon.trans hoff.symm⟩,
      w.autoChoices_withAutoChoices true, w.autoChoices_withAutoChoices false, w.shown_withAutoChoices false, trivial⟩
  obtain ⟨rfl, x, y, rfl, hxy, hx⟩ := Play.perform_splits hh hop hpaired (honBusy.trans hoffBusy.symm) hrun hline
  -- behind the line the runner stands in a node, as the world is reachable
  have hreach : Reachable host y.rested := by
    have h := (hw.called (.configure "auto_advance_to_choices" (.boolean false))).called op
    rw [World.after_configure, after, hrun] at h
    exact h
  obtain ⟨n, i, hn, hp⟩ := hreach.placed hhost (Place.Ready.active hxy.there) rfl
  have hbeside : x.Beside y.rested := ⟨hxy.outline, hxy.place⟩
  have hshort := Play.advanceToChoices_shortcut hh hbeside hxy.there rfl (Steady.of_aloof hh (hguards _ hn)) hp hnext
  have hanswer : ((if next = .choice then Play.perform host .resume else return .done) : Play σ μ Answer) =
      (do (if next = .choice then Play.resume host else pure ()); return .done) := by
    split <;> rfl
  rw [hx, hanswer]
  exact hshort.bind (fun _ _ _ h => .ok _ ⟨h.1, h.2, h.1.published, h.1.vars⟩) fun _ _ h => ⟨h.1, h.2, h.1.published, h.1.vars⟩

theorem autoChoices_shortcut_menu :
    ∃ (host : Host Unit Unit) (w v u : World Unit Unit) (a : Answer),
      Reachable host w ∧ Play.perform host (.start none 0 false) (w.withAutoChoices false) = .ok a v ∧
      w.shown < v.shown ∧ Play.nextContent host v = .ok .choice u ∧
      Same (fun x y => x.Beside y ∧ x.runner.busy = y.runner.busy ∧ x.published = y.published ∧ x.vars = y.vars)
        (Play.perform host (.start none 0 false) (w.withAutoChoices true)) (Play.perform host .resume u) := by
  let host : Host Unit Unit := Host.ofBehaviour (Behaviour.attentive ()) 0 1
  obtain ⟨w, v, hw, hrun, hline, hplain, hchoice⟩ : ∃ w v : World Unit Unit, Reachable host w ∧
      (∃ a, Play.perform host (.start none 0 false) (w.withAutoChoices false) = .ok a v) ∧ w.shown < v.shown ∧
      (∀ f ∈ v.runner.stack.getLast?, f.container.Guarded fun _ e => e.isPlain v.vars) ∧
      answer? (Play.nextContent host v) = some .choice := by
    let w := after (Play.perform host (.register menuScript)) { host := () }
    have hrun : (answer? (Play.perform host (.start none 0 false) (w.withAutoChoices false))).isSome := by decide +kernel
    obtain ⟨a, ha⟩ := Option.isSome_iff_exists.1 hrun
    exact ⟨w, after (Play.perform host (.start none 0 false)) (w.withAutoChoices false),
      (Reachable.opened (.alone _ ())).called _, ⟨a, ok_of_answer ha⟩, by decide +kernel, by decide +kernel, by decide +kernel⟩
  obtain ⟨a, hrun⟩ := hrun
  have hnext := ok_of_answer hchoice
  refine ⟨host, w, v, _, a, hw, hrun, hline, hnext, ?_⟩
  exact autoChoices_shortcut ⟨_, _, _, rfl⟩ ((Behaviour.reserved_attentive ()).aloof 0 1) hw rfl hrun hline
    (fun f hf => (hplain f hf).mono fun what _ he => outline_of_plain host he what) hnext

end Parley
