import Parley.Proofs.Aloof
import Parley.Proofs.HostOrder
import Parley.Proofs.Partings

/-! # Opening menus at once

With the setting on, a call that displays a line looks ahead and opens the menu that comes next, if one does. Two
runs, one with the setting on and one with it off, are `Paired` up to the line; then the first goes on by the walk
ahead, and the second by another call, which steps to the same place (`scan_meets`). -/

namespace Parley
variable {σ μ : Type}

/-- With the runner at the same place, where it has `Q`; menus are opened at once only in the first world, and in
the second one `k` lines have been displayed. -/
structure Paired (Q : Place → Prop) (k : Nat) (v v' : World σ μ) : Prop extends v.Beside v' where
  on : v.runnerConfig.autoChoices = true
  off : v'.runnerConfig.autoChoices = false
  shown : v'.shown = k
  there : Q v'.runner.place

theorem Paired.mono {Q Q' : Place → Prop} {k : Nat} {v v' : World σ μ} (h : Paired Q k v v')
    (hQ : ∀ p, Q p → Q' p) :
    Paired Q' k v v' :=
  ⟨h.toBeside, h.on, h.off, h.shown, hQ _ h.there⟩

section
variable {host : Host σ μ} {Q : Place → Prop} {k : Nat}

variable (hh : host.Aloof)
include hh

theorem parallel_paired (hQ : ∀ p stack memo, Q p → Q { p with stack, memo }) :
    Parallel host (Paired Q k : World σ μ → World σ μ → Prop) where
  toCongruent := hh.congruent (fun h => h.outline) fun h ⟨ho, hw, hw'⟩ =>
    ⟨⟨ho, by rw [hw.place, hw'.place, h.place]⟩, hw.autoChoices.trans h.on, hw'.autoChoices.trans h.off,
      hw'.shown.trans h.shown, hw'.place ▸ h.there⟩
  place h := h.place
  limit h := (congrArg Config.maxSteps (World.runnerConfig_of_outline h.outline) :)
  roaming {w w'} h stack memo := by
    have hplace := h.place
    refine ⟨⟨World.outline_withRunner h.outline rfl rfl rfl rfl, ?_⟩, h.on, h.off, h.shown, hQ _ stack memo h.there⟩
    exact congrArg (fun p : Place => { p with stack, memo }) hplace

theorem unbound_paired (hQ : ∀ p q : Place, Q p → q.wait = p.wait ∨ q.wait = none → Q q) :
    Unbound host (Paired Q k : World σ μ → World σ μ → Prop) where
  toParallel := parallel_paired hh fun p _ _ h => hQ p _ h (.inl rfl)
  nodes h := (congrArg World.nodes h.outline :)
  moved h p hp := by
    refine ⟨⟨World.outline_withRunner h.outline rfl rfl rfl rfl, rfl⟩, h.on, h.off, h.shown, hQ _ p h.there ?_⟩
    rw [← h.place]
    exact hp
  publishing {_ w'} h n hn := ⟨⟨World.outline_publishing h.outline n, h.place⟩, h.on, h.off,
    (w'.shown_publishing hn).trans h.shown, h.there⟩

theorem unbound_waiting :
    Unbound host (Paired (fun p => p.wait = none) k : World σ μ → World σ μ → Prop) :=
  unbound_paired hh fun _ _ hp hq => hq.elim (fun h => h.trans hp) id

theorem unbound_anywhere : Unbound host (Paired (fun _ => True) k : World σ μ → World σ μ → Prop) :=
  unbound_paired hh fun _ _ _ _ => trivial

namespace Play

/-- The line is one more of those displayed. -/
theorem display_paired (hQ : ∀ p stack memo, Q p → Q { p with stack, memo }) {l : Line}
    {w w' z : World σ μ} {u : Unit} (h : Paired Q k w w') (hrun : display host l w' = .ok u z) :
    ∃ v, display host l w = .ok () v ∧ Paired Q (k + 1) v z := by
  obtain ⟨text, v, v', hv, h, hrun⟩ := (keeps_render (parallel_paired hh hQ).toCongruent l.text).split h hrun
  have hnoted : Paired Q (k + 1) (v.noting (.published v.seat (.displayed l text)))
      (v'.noting (.published v'.seat (.displayed l text))) :=
    ⟨⟨World.outline_publishing h.outline _, h.place⟩, h.on, h.off, by rw [v'.shown_displayed, h.shown], h.there⟩
  obtain ⟨consumed, x, x', hx, h, hrun⟩ :=
    (keeps_deliver (parallel_paired hh hQ).toCongruent (.displayed l text)).split hnoted (f := fun _ => pure ()) hrun
  cases hrun
  exact ⟨x, (run_bind_ok hv).trans (run_bind_ok hx), h⟩

/-- At a line the runs part: the second one has something for the host to see, the first one looks ahead. -/
theorem carryOut_line {l : Line} {w w' z : World σ μ} {stop : Bool} (h : Paired Place.Ready k w w')
    (hrun : carryOut host (.line l) w' = .ok stop z) :
    stop = true ∧ ∃ v, Paired Place.Ready (k + 1) v z ∧
      carryOut host (.line l) w = (do advanceToChoices host; return true : Play σ μ Bool) v := by
  obtain ⟨_, v, v', hv, h, hrun⟩ := (keeps_skip (parallel_paired hh Place.Ready.roams).toInStep 1).split h hrun
  obtain ⟨_, y, hy, hrun⟩ := bind_ok hrun
  obtain ⟨x, hx, h⟩ := display_paired hh Place.Ready.roams h hy
  change (if y.runnerConfig.autoChoices ∧ y.runner.session.isSome then (do advanceToChoices host; return true)
    else return true : Play σ μ Bool) y = .ok stop z at hrun
  rw [if_neg (by simp [h.off])] at hrun
  cases hrun
  refine ⟨rfl, x, h, (run_bind_ok hv).trans ((run_bind_ok hx).trans ?_)⟩
  change (if x.runnerConfig.autoChoices ∧ x.runner.session.isSome then (do advanceToChoices host; return true)
    else return true : Play σ μ Bool) x = _
  rw [if_pos ⟨h.on, by rw [show x.runner.session = z.runner.session from congrArg Place.session h.place]; exact h.there.session⟩]

/-- If stepping in the second world ends with a line more, the first one is left to look ahead behind that line. -/
theorem advanceFrom_splits (fuel steps : Nat) {w w' z : World σ μ}
    (h : Paired (fun p => p.wait = none) k w w') (hrun : advanceFrom host fuel steps w' = .ok () z)
    (hz : k < z.shown) :
    ∃ v, Paired Place.Ready (k + 1) v z ∧ advanceFrom host fuel steps w = advanceToChoices host v := by
  induction fuel generalizing steps w w' with
  | zero => cases hrun
  | succ fuel ih =>
    rw [advanceFrom_succ] at hrun ⊢
    rw [show w.runner.session = w'.runner.session from congrArg Place.session h.place,
      show w.runner.menu = w'.runner.menu from congrArg Place.menu h.place,
      show w.runnerConfig.maxSteps = w'.runnerConfig.maxSteps from (unbound_waiting hh).limit h]
    split at hrun
    · cases hrun
      exact absurd hz (by rw [h.shown]; exact Nat.lt_irrefl k)
    · next hgo =>
      split at hrun
      · exact absurd hrun failLimit_ne_ok
      · next hlimit =>
        rw [if_neg hgo, if_neg hlimit]
        simp only [not_or, Bool.not_eq_true, Bool.not_eq_false', List.isEmpty_iff] at hgo
        have hsession : w'.runner.session.isSome := by simpa [Option.isSome_iff_ne_none] using hgo.1
        have hready : Paired Place.Ready k w w' := ⟨h.toBeside, h.on, h.off, h.shown, hsession, hgo.2, h.there⟩
        obtain ⟨s, v, v', hs, hv, hrun⟩ := (keeps_sight (parallel_paired hh Place.Ready.roams).toInStep).split hready hrun
        rw [run_bind_ok hs]
        obtain ⟨stop, y, hstop, hrest⟩ := bind_ok hrun
        by_cases hline : ∃ l, s = .line l
        · obtain ⟨l, rfl⟩ := hline
          obtain ⟨rfl, x, hx, hon⟩ := carryOut_line hh hv hstop
          cases hrest
          refine ⟨x, hx, (run_bind_congr hon _).trans ?_⟩
          rw [bind_assoc]
          exact congrFun bind_pure_unit x
        by_cases hwait : ∃ e pos, s = .command (.wait e) pos
        · obtain ⟨e, pos, rfl⟩ := hwait
          obtain rfl := carryOut_wait hstop
          cases hrest
          have hsame := keeps_wait (unbound_anywhere (k := k) hh).toRoving
            (fun h p => ⟨⟨World.outline_withRunner h.outline rfl rfl rfl rfl, rfl⟩, h.on, h.off, h.shown, trivial⟩) e pos
            (hv.mono fun _ _ => trivial)
          rw [hstop] at hsame
          obtain ⟨x, -, hx⟩ := hsame.ok_right
          exact absurd hz (by rw [hx.shown]; exact Nat.lt_irrefl k)
        · have hcarry := keeps_carryOut (unbound_waiting (k := k) hh).toRoving (s := s) (fun l hl => hline ⟨l, hl⟩)
            (fun e pos he => hwait ⟨e, pos, he⟩)
          obtain ⟨stop, x, x', hx, hxx, hrest⟩ := hcarry.split (hv.mono fun _ h => h.wait) hrun
          rw [run_bind_ok hx]
          cases stop with
          | true =>
            cases hrest
            exact absurd hz (by rw [hxx.shown]; exact Nat.lt_irrefl k)
          | false => exact ih (steps + 1) hxx hrest

end Play
end

/-- If the second run goes well and displays a line, then the first one comes behind that line and is left to look
ahead; `fin` is what is done at the end of both. -/
def Split (host : Host σ μ) (k : Nat) (fin : World σ μ → World σ μ) (r r' : Ending σ μ) : Prop :=
  ∀ ⦃z : World σ μ⦄, r' = .ok () z → k < z.shown →
    ∃ v y, z = fin y ∧ Paired Place.Ready (k + 1) v y ∧ r = (Play.advanceToChoices host).ensuring fin v

namespace Split
variable {host : Host σ μ} {k : Nat} {fin : World σ μ → World σ μ} {r r' : Ending σ μ}

/-- As long as the runs have come to the same, no line has been displayed. -/
theorem of_same (h : Same (Paired (fun _ => True) k) r r') : Split host k fin r r' := by
  rintro z rfl hz
  obtain ⟨w, -, hw⟩ := h.ok_right
  exact absurd hz (by rw [hw.shown]; exact Nat.lt_irrefl k)

theorem rested {x y : Play σ μ Unit} {w w' : World σ μ} (h : Split host k id (x w) (y w')) :
    Split host k World.rested (x.ensuring World.rested w) (y.ensuring World.rested w') := by
  intro z hrun hz
  obtain ⟨u, hy, rfl⟩ := Play.ensuring_ok hrun
  obtain ⟨v, _, rfl, hv, hx⟩ := h hy hz
  rw [Play.ensuring_id] at hx
  exact ⟨v, u, rfl, hv, Play.ensuring_congr hx _⟩

theorem advance (hh : host.Aloof) : Parting (Paired (fun _ => True) k) (Split host k id) (Play.advance host) := by
  intro w w' h z hrun hz
  have hgo : Paired (fun p => p.wait = none) k (w.withRunner { w.runner with wait := none })
      (w'.withRunner { w'.runner with wait := none }) :=
    ⟨⟨World.outline_withRunner h.outline rfl rfl rfl rfl, congrArg (fun p : Place => { p with wait := none }) h.place⟩,
      h.on, h.off, h.shown, rfl⟩
  obtain ⟨v, hv, hx⟩ := Play.advanceFrom_splits hh _ 0 hgo hrun hz
  refine ⟨v, z, rfl, hv, ?_⟩
  have hlimit : w.runnerConfig.maxSteps = w'.runnerConfig.maxSteps :=
    (congrArg Config.maxSteps (World.runnerConfig_of_outline h.outline) :)
  show Play.advanceFrom host (host.patience + w.runnerConfig.maxSteps + 2) 0 _ = _
  rw [hlimit, Play.ensuring_id]
  exact hx

theorem partings (hh : host.Aloof) :
    Partings host (Paired (fun _ => True) k) (Split host k id) (Split host k World.rested) where
  toRoving := (unbound_anywhere hh).toRoving
  same := of_same
  same' := of_same
  startNode h := (congrArg Config.startNode (World.runnerConfig_of_outline h.outline) :)
  sessions h := (congrArg World.sessions h.outline :)
  begun h := ⟨⟨World.outline_withRunner h.outline rfl rfl rfl rfl, h.place⟩, h.on, h.off, h.shown, trivial⟩
  joined {w w'} h n index := by
    have hsessions : w.sessions = w'.sessions := (congrArg World.sessions h.outline :)
    refine ⟨⟨?_, ?_⟩, h.on, h.off, h.shown, trivial⟩
    · show { w.outline with sessions := w.sessions + 1 } = { w'.outline with sessions := w'.sessions + 1 }
      rw [h.outline, hsessions]
    · rw [World.joined, World.joined, hsessions]
      exact congrArg (fun p : Place => { p with session := some (w'.sessions + 1), stack := ⟨.node n, index⟩ :: p.stack }) h.place
  advance := advance hh
  rested := rested

end Split

/-- A call that steps on to a line, with the setting on: it is left to look ahead behind the line. -/
theorem Play.perform_splits {host : Host σ μ} (hh : host.Aloof) {k : Nat} {op : Operation}
    (hop : op.advances) {w w' z : World σ μ} {a : Answer} (h : Paired (fun _ => True) k w w')
    (hbusy : w.runner.busy = w'.runner.busy) (hrun : perform host op w' = .ok a z) (hz : k < z.shown) :
    a = .done ∧ ∃ v y, z = y.rested ∧ Paired Place.Ready (k + 1) v y ∧
      perform host op w = (do (advanceToChoices host).ensuring World.rested; return .done : Play σ μ Answer) v := by
  obtain ⟨action, x, hperform, hx⟩ := (Split.partings (k := k) hh).perform hop
  rw [hperform] at hrun ⊢
  obtain ⟨_, y, hy, hdone⟩ := bind_ok hrun
  cases hdone
  obtain ⟨_, _, hstep, hrest⟩ := bind_ok hy
  obtain ⟨hidle, rfl⟩ := requireIdleStep_ok hstep
  obtain ⟨v, y, rfl, hv, hx⟩ := hx h hrest hz
  exact ⟨rfl, v, y, rfl, hv, run_bind_congr ((run_bind_ok (requireIdleStep_eq (hbusy.trans hidle) action)).trans hx) _⟩

end Parley
