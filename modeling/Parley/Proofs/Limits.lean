import Parley.Proofs.Foresight
import Parley.Proofs.HostOrder
import Parley.Proofs.Partings
import Parley.Proofs.Unhurried

/-! # Limits lose nothing

Two runs of a call under two limits are `Limited` up to the point where the lower one strikes; there the run under it
fails, and the other has some more rounds to go (`Overrun`). The place where it failed is one to go on from, and going
on leads into those rounds again, of which there are fewer each time (`persist_resume`). -/

namespace Parley
variable {σ μ : Type}

/-- The same but for the limits, with the runner at a place where it has `Q`; no menu is opened early. -/
structure Limited (Q : Place → Prop) (L L' : Nat) (w w' : World σ μ) : Prop where
  alike : w.unlimited = w'.unlimited
  limit : w.runnerConfig.maxSteps = L
  limit' : w'.runnerConfig.maxSteps = L'
  off : w.runnerConfig.autoChoices = false
  there : Q w.runner.place

namespace Limited
variable {Q Q' : Place → Prop} {L L' : Nat} {w w' : World σ μ}

theorem mono (h : Limited Q L L' w w') (hQ : ∀ p, Q p → Q' p) : Limited Q' L L' w w' :=
  ⟨h.alike, h.limit, h.limit', h.off, hQ _ h.there⟩

theorem place (h : Limited Q L L' w w') : w.runner.place = w'.runner.place := World.place_of_unlimited h.alike

theorem off' (h : Limited Q L L' w w') : w'.runnerConfig.autoChoices = false :=
  (congrArg Config.autoChoices (World.runnerConfig_of_unlimited h.alike) :).symm.trans h.off

/-- Both runners move to a place. -/
theorem moved (h : Limited Q L L' w w') {p : Place} (hp : Q' p) :
    Limited Q' L L' (w.withRunner (w.runner.atPlace p)) (w'.withRunner (w'.runner.atPlace p)) := by
  refine ⟨World.unlimited_withRunner h.alike ?_, h.limit, h.limit', h.off, hp⟩
  exact congrArg (fun r : Runner => r.atPlace p) (congrArg World.runner h.alike)

/-- Whether a step is going on does not matter. -/
theorem withBusy (h : Limited Q L L' w w') (b b' : Bool) :
    Limited Q L L' (w.withRunner { w.runner with busy := b }) (w'.withRunner { w'.runner with busy := b' }) :=
  ⟨World.unlimited_withRunner h.alike (congrArg World.runner h.alike :), h.limit, h.limit', h.off, h.there⟩

end Limited

section
variable {host : Host σ μ} (hh : host.Unhurried) {Q : Place → Prop} {L L' : Nat}
include hh

theorem inStep_limited (hQ : ∀ p stack memo, Q p → Q { p with stack, memo }) :
    InStep host (Limited Q L L' : World σ μ → World σ μ → Prop) where
  toCongruent := hh.congruent Limited.alike fun h ho hv hv' =>
    ⟨ho, hv.maxSteps.trans h.limit, hv'.maxSteps.trans h.limit', hv.autoChoices.trans h.off, hv.place ▸ h.there⟩
  place := Limited.place
  roaming h stack memo := by
    refine ⟨World.unlimited_withRunner h.alike ?_, h.limit, h.limit', h.off, hQ _ stack memo h.there⟩
    exact congrArg (fun r : Runner => { r with stack, memo }) (congrArg World.runner h.alike)

theorem roving_limited (hQ : ∀ p q : Place, Q p → q.wait = p.wait ∨ q.wait = none → Q q) :
    Roving host (Limited Q L L' : World σ μ → World σ μ → Prop) where
  toInStep := inStep_limited hh fun p _ _ h => hQ p _ h (.inl rfl)
  nodes h := (congrArg World.nodes h.alike :)
  moved h p hp := h.moved (hQ _ p h.there hp)
  publishing h n _ := ⟨World.unlimited_publishing h.alike n, h.limit, h.limit', h.off, h.there⟩

theorem roving_waiting :
    Roving host (Limited (fun p => p.wait = none) L L' : World σ μ → World σ μ → Prop) :=
  roving_limited hh fun _ _ hp hq => hq.elim (fun h => h.trans hp) id

theorem roving_anywhere : Roving host (Limited (fun _ => True) L L' : World σ μ → World σ μ → Prop) :=
  roving_limited hh fun _ _ _ _ => trivial

namespace Play

/-- No menu is opened behind a line. -/
theorem keeps_line (hQ : ∀ p stack memo, Q p → Q { p with stack, memo }) (l : Line) :
    Keeps (Limited Q L L' : World σ μ → World σ μ → Prop) (carryOut host (.line l)) := by
  have hR : InStep host (Limited Q L L' : World σ μ → World σ μ → Prop) := inStep_limited hh hQ
  have hshow : Keeps (Limited Q L L') (display host l) :=
    (keeps_render hR.toCongruent l.text).bind fun text => (keeps_publish hR.toCongruent _ fun h =>
      ⟨World.unlimited_publishing h.alike _, h.limit, h.limit', h.off, h.there⟩).bind fun _ => .pure _
  refine (keeps_skip hR 1).bind fun _ => hshow.bind fun _ w w' h => ?_
  change Same _ ((if w.runnerConfig.autoChoices ∧ w.runner.session.isSome then (do advanceToChoices host; return true)
    else return true : Play σ μ Bool) w) ((if w'.runnerConfig.autoChoices ∧ w'.runner.session.isSome then
      (do advanceToChoices host; return true) else return true : Play σ μ Bool) w')
  rw [if_neg (by simp [h.off]), if_neg (by simp [h.off'])]
  exact .ok _ h

/-- A wait ends the call and leaves a duration behind; whatever else is done leaves none. -/
theorem carryOut_limited (s : Sight) {w w' : World σ μ} (h : Limited (fun p => p.wait = none) L L' w w') :
    Same (Limited (fun _ => True) L L') (carryOut host s w) (carryOut host s w') ∧ ∀ v v',
      carryOut host s w = .ok false v → carryOut host s w' = .ok false v' → Limited (fun p => p.wait = none) L L' v v' := by
  by_cases hwait : ∃ e pos, s = .command (.wait e) pos
  · obtain ⟨e, pos, rfl⟩ := hwait
    refine ⟨keeps_wait (roving_anywhere hh) (fun h p => h.moved trivial) e pos (h.mono fun _ _ => trivial), fun v v' hv => ?_⟩
    cases carryOut_wait hv
  · have hsame : Same (Limited (fun p => p.wait = none) L L') (carryOut host s w) (carryOut host s w') := by
      by_cases hline : ∃ l, s = .line l
      · obtain ⟨l, rfl⟩ := hline
        exact keeps_line hh (fun _ _ _ h => h) l h
      · exact keeps_carryOut (roving_waiting hh) (fun l hl => hline ⟨l, hl⟩) (fun e pos he => hwait ⟨e, pos, he⟩) h
    refine ⟨hsame.mono fun _ _ h => h.mono fun _ _ => trivial, fun v v' hv hv' => ?_⟩
    rw [hv, hv'] at hsame
    cases hsame with
    | ok _ h => exact h

/-- A round of the loop leads both runs on to the next one, or ends both. -/
theorem round_limited {w w' : World σ μ} (h : Limited (fun p => p.wait = none) L L' w w') :
    (∃ v v', Limited (fun p => p.wait = none) L L' v v' ∧ ∀ k : Play σ μ Unit,
      (do let s ← sight host; if ← carryOut host s then pure () else k) w = k v ∧
        (do let s ← sight host; if ← carryOut host s then pure () else k) w' = k v') ∨
    ∀ k k' : Play σ μ Unit, Same (Limited (fun _ => True) L L')
      ((do let s ← sight host; if ← carryOut host s then pure () else k) w)
      ((do let s ← sight host; if ← carryOut host s then pure () else k') w') := by
  have hsight := keeps_sight (roving_waiting hh).toInStep h
  generalize hx : sight host w = x at hsight
  generalize hx' : sight host w' = x' at hsight
  cases hsight with
  | error f hv =>
    refine .inr fun k k' => ?_
    rw [run_bind_error hx, run_bind_error hx']
    exact .error f (hv.mono fun _ _ => trivial)
  | @ok v v' s hv =>
    obtain ⟨hsame, hon⟩ := carryOut_limited hh s hv
    generalize hy : carryOut host s v = y at hsame
    generalize hy' : carryOut host s v' = y' at hsame
    cases hsame with
    | error f hu =>
      refine .inr fun k k' => ?_
      rw [run_bind_ok hx, run_bind_ok hx', run_bind_error hy, run_bind_error hy']
      exact .error f hu
    | ok stop hu =>
      cases stop with
      | true =>
        refine .inr fun k k' => ?_
        rw [run_bind_ok hx, run_bind_ok hx', run_bind_ok hy, run_bind_ok hy']
        exact .ok () hu
      | false =>
        refine .inl ⟨_, _, hon _ _ hy hy', fun k => ?_⟩
        rw [run_bind_ok hx, run_bind_ok hx', run_bind_ok hy, run_bind_ok hy']
        exact ⟨rfl, rfl⟩

/-- The run under the lower limit ends like the other one, or it fails where the other one has rounds left to go: no
more than at first, and fewer if there was room for a round. The other one has the room that it needs: because it goes
well, or because both runs have just begun. -/
theorem advanceFrom_limited (hL : L ≤ L') (fuel steps fuel' steps' : Nat) {w w' : World σ μ}
    (h : Limited (fun p => p.wait = none) L L' w w') (hsteps : steps ≤ L) (hroom : L < steps + fuel)
    (hroom' : (∃ z, advanceFrom host fuel' steps' w' = .ok () z) ∨ steps' = steps ∧ L' < steps' + fuel') :
    Same (Limited (fun _ => True) L L') (advanceFrom host fuel steps w) (advanceFrom host fuel' steps' w') ∨
    ∃ u x rest done, Limited Place.Ready L L' u x ∧ advanceFrom host fuel steps w = failLimit L u ∧
      advanceFrom host fuel' steps' w' = advanceFrom host rest done x ∧ rest ≤ fuel' ∧ (steps < L → rest < fuel') := by
  induction fuel' generalizing fuel steps steps' w w' with
  | zero =>
    rcases hroom' with ⟨z, hz⟩ | hroom'
    · cases hz
    · omega
  | succ fuel' ih =>
    obtain ⟨fuel, rfl⟩ : ∃ k, fuel = k + 1 := ⟨fuel - 1, by omega⟩
    rw [advanceFrom_succ host fuel, h.limit]
    by_cases hgo : w.runner.session.isNone ∨ !w.runner.menu.isEmpty
    · left
      rw [advanceFrom_succ, show w'.runner.session = w.runner.session from (congrArg Place.session h.place).symm,
        show w'.runner.menu = w.runner.menu from (congrArg Place.menu h.place).symm, if_pos hgo, if_pos hgo]
      exact .ok () (h.mono fun _ _ => trivial)
    · rw [if_neg hgo]
      by_cases hlimit : L ≤ steps
      · rw [if_pos hlimit]
        simp only [not_or, Bool.not_eq_true, Bool.not_eq_false', List.isEmpty_iff] at hgo
        have hlive : w.runner.session.isSome := by simpa [Option.isSome_iff_ne_none] using hgo.1
        exact .inr ⟨w, w', fuel' + 1, steps', ⟨h.alike, h.limit, h.limit', h.off, hlive, hgo.2, h.there⟩, rfl, rfl,
          Nat.le_refl _, by omega⟩
      · rw [if_neg hlimit]
        have hgo' : ¬(w'.runner.session.isNone ∨ !w'.runner.menu.isEmpty) := by
          rwa [show w'.runner.session = w.runner.session from (congrArg Place.session h.place).symm,
            show w'.runner.menu = w.runner.menu from (congrArg Place.menu h.place).symm]
        have hlimit' : ¬L' ≤ steps' := by
          rcases hroom' with ⟨z, hz⟩ | hroom'
          · intro hle
            rw [advanceFrom_succ, if_neg hgo', h.limit', if_pos hle] at hz
            exact failLimit_ne_ok hz
          · omega
        have hround' := advanceFrom_succ host fuel' steps' w'
        rw [if_neg hgo', h.limit', if_neg hlimit'] at hround'
        rw [hround'] at hroom' ⊢
        rcases round_limited hh h with ⟨v, v', hv, hk⟩ | hsame
        · rw [(hk _).1, (hk _).2]
          rw [(hk _).2] at hroom'
          rcases ih fuel (steps + 1) (steps' + 1) hv (by omega) (by omega)
            (hroom'.imp_right fun _ => by omega) with hsame | ⟨u, x, rest, done, hux, hu, hx, hrest, -⟩
          · exact .inl hsame
          · exact .inr ⟨u, x, rest, done, hux, hu, hx, by omega, fun _ => by omega⟩
        · exact .inl (hsame _ _)

end Play
end

/-- The run under the lower limit ends like the other one, or fails where the other one goes on; `fin` is what is done at
the end of both. -/
def Overrun (host : Host σ μ) (L L' : Nat) (fin : World σ μ → World σ μ) (r r' : Ending σ μ) : Prop :=
  Same (Limited (fun _ => True) L L') r r' ∨
  ∃ u x rest done, Limited Place.Ready L L' u x ∧ r = (Play.failLimit L).ensuring fin u ∧
    r' = (Play.advanceFrom host rest done).ensuring fin x

namespace Overrun
variable {host : Host σ μ} {L L' : Nat}

theorem rested {x y : Play σ μ Unit} {w w' : World σ μ} (h : Overrun host L L' id (x w) (y w')) :
    Overrun host L L' World.rested (x.ensuring World.rested w) (y.ensuring World.rested w') := by
  rcases h with h | ⟨u, v, rest, done, huv, hx, hy⟩
  · exact .inl (h.ensuring fun _ _ h => h.withBusy false false)
  · rw [Play.ensuring_id] at hx hy
    exact .inr ⟨u, v, rest, done, huv, Play.ensuring_congr hx _, Play.ensuring_congr hy _⟩

theorem advance (hh : host.Unhurried) (hL : L ≤ L') :
    Parting (Limited (fun _ => True) L L') (Overrun host L L' id) (Play.advance host) := by
  intro w w' h
  have hgo : Limited (fun p => p.wait = none) L L' (w.withRunner { w.runner with wait := none })
      (w'.withRunner { w'.runner with wait := none }) := by
    refine ⟨World.unlimited_withRunner h.alike ?_, h.limit, h.limit', h.off, rfl⟩
    exact congrArg (fun r : Runner => { r with wait := none }) (congrArg World.runner h.alike)
  change Overrun host L L' id (Play.advanceFrom host (host.patience + w.runnerConfig.maxSteps + 2) 0 _)
    (Play.advanceFrom host (host.patience + w'.runnerConfig.maxSteps + 2) 0 _)
  rw [h.limit, h.limit']
  rcases Play.advanceFrom_limited hh hL (host.patience + L + 2) 0 (host.patience + L' + 2) 0 hgo
    (Nat.zero_le L) (by omega) (.inr ⟨rfl, by omega⟩) with
    hsame | ⟨u, x, rest, done, hux, hu, hx, -⟩
  · exact .inl hsame
  · refine .inr ⟨u, x, rest, done, hux, ?_, ?_⟩ <;> rw [Play.ensuring_id]
    · exact hu
    · exact hx

theorem partings (hh : host.Unhurried) (hL : L ≤ L') :
    Partings host (Limited (fun _ => True) L L') (Overrun host L L' id) (Overrun host L L' World.rested) where
  toRoving := roving_anywhere hh
  same := .inl
  same' := .inl
  startNode h := (congrArg Config.startNode (World.runnerConfig_of_unlimited h.alike) :)
  sessions h := (congrArg World.sessions h.alike :)
  begun h := h.withBusy true true
  joined h n index := ⟨congrArg (World.joined · n index) h.alike, h.limit, h.limit', h.off, trivial⟩
  advance := advance hh hL
  rested := rested

end Overrun

namespace Play

/-- Makes a call, and goes on as long as a call has come to its limit, up to `n` times. -/
def persist (host : Host σ μ) : Nat → Play σ μ Answer → Play σ μ Answer
  | 0, x => x
  | n + 1, x => tryCatch x fun
    | .limit .. => persist host n (perform host .resume)
    | f => throw f

section
variable {P : μ → Prop} {host : Host σ μ} {L L' : Nat}

theorem persist_limit {x : Play σ μ Answer} {w v : World σ μ} {node : Option String} (h : x w = .error (.limit L node) v)
    (n : Nat) : persist host (n + 1) x w = persist host n (perform host .resume) v := by
  change EStateM.tryCatch x _ w = _
  unfold EStateM.tryCatch
  rw [h]
  rfl

/-- Whatever is to be reported of the limit, the runner stays where it is. -/
theorem failLimit_runner (limit : Nat) (u : World σ μ) :
    ∃ f v, (failLimit limit : Play σ μ Unit) u = .error f v ∧ v.runner = u.runner := by
  cases hnode : u.runner.currentNode with
  | ok node => exact ⟨_, _, failLimit_eq hnode limit, rfl⟩
  | error f =>
    refine ⟨f, u, ?_, rfl⟩
    rw [failLimit, run_bind_ok (show runner u = .ok u.runner u from rfl), hnode]
    rfl

/-- A call that comes to its limit fails with just that, at a place to go on from. -/
theorem stops {x : Play σ μ Answer} (hx : Tending P x) {w u y : World σ μ} (hw : w.InOrder P)
    (hrun : x w = (do (failLimit L).ensuring World.rested; return .done : Play σ μ Answer) u)
    (h : Limited Place.Ready L L' u y) :
    ∃ node v, x w = .error (.limit L node) v ∧ v.InOrder P ∧ v.runner.busy = false ∧ Limited Place.Ready L L' v y := by
  have hstop {f : Fault} {v : World σ μ} (hfail : (failLimit L : Play σ μ Unit) u = .error f v) :
      x w = .error f v.rested ∧ v.rested.InOrder P := by
    have hfailed : x w = .error f v.rested := by
      rw [hrun]
      refine run_bind_error ?_
      rw [ensuring, hfail]
    have horder := (hx.after hw).order
    rw [after, hfailed] at horder
    exact ⟨hfailed, horder⟩
  -- a runner that rests in a session stands in a node, which has a name to report
  obtain ⟨f, v, hfail, hrunner⟩ := failLimit_runner L u
  have hlive : ¬v.rested.runner.session.isNone := by
    have hsession : u.runner.session.isSome := h.there.session
    simp [World.rested, World.withRunner, hrunner, Option.isSome_iff_ne_none.1 hsession]
  obtain ⟨n, hn, -⟩ := (hstop hfail).2.stands_front hlive rfl
  have hnode : u.runner.currentNode = .ok (some n.name) := by
    rw [← hrunner]
    exact currentNode_of_placed hn
  obtain ⟨hfailed, horder⟩ := hstop (failLimit_eq hnode L)
  exact ⟨_, _, hfailed, horder, rfl, (World.unlimited_logged u _).trans h.alike, h.limit, h.limit', h.off, h.there⟩

/-- Going on as long as the limit strikes leads to where the other run gets, by induction on the rounds that it has left. -/
theorem persist_resume (hhost : host.Tends P) (hh : host.Unhurried) (hpos : 1 ≤ L) (hL : L ≤ L') (rest : Nat) :
    ∀ (done : Nat) {u x z : World σ μ}, Limited Place.Ready L L' u x → u.runner.busy = false → u.InOrder P →
      advanceFrom host rest done x = .ok () z →
      ∃ n v, persist host n (perform host .resume) u = .ok .done v ∧ Limited (fun _ => True) L L' v z.rested := by
  induction rest using Nat.strongRecOn with
  | _ rest ih =>
    intro done u x z h hidle horder hrun
    have hbegun : Limited (fun p => p.wait = none) L L' u.begun x := (h.withBusy true x.runner.busy).mono fun _ h => h.wait
    have hwait : u.begun.withRunner { u.begun.runner with wait := none } = u.begun := by
      show u.withRunner { u.runner with wait := none, busy := true } = u.withRunner { u.runner with busy := true }
      rw [← show u.runner.wait = none from h.there.wait]
    have hresume : perform host .resume u = (do
        (advanceFrom host (host.patience + L + 2) 0).ensuring World.rested
        return .done : Play σ μ Answer) u.begun := by
      refine run_bind_congr ?_ _
      rw [resume_eq host h.there.active hidle, ← advance_eq, busyStep_eq]
      refine ensuring_congr ?_ _
      show advanceFrom host (host.patience + u.begun.runnerConfig.maxSteps + 2) 0 (u.begun.withRunner _) = _
      rw [hwait, hbegun.limit]
    rcases advanceFrom_limited hh hL (host.patience + L + 2) 0 rest done hbegun (Nat.zero_le L) (by omega) (.inl ⟨z, hrun⟩) with
      hsame | ⟨u₁, x₁, rest₁, done₁, h₁, hu, hx, -, hless⟩
    · rw [hrun] at hsame
      obtain ⟨v, hv, hvz⟩ := hsame.ok_right
      refine ⟨0, v.rested, ?_, hvz.withBusy false false⟩
      have hdone : (advanceFrom host (host.patience + L + 2) 0).ensuring World.rested u.begun = .ok () v.rested := by
        rw [ensuring, hv]
      exact hresume.trans (run_bind_ok hdone)
    · obtain ⟨node, v, hv, horder', hidle', h'⟩ := stops (tending_perform hhost .resume) horder
        (hresume.trans (run_bind_congr (ensuring_congr hu _) _)) h₁
      obtain ⟨n, y, hy, hyz⟩ := ih rest₁ (hless hpos) done₁ h' hidle' horder' (hx.symm.trans hrun)
      exact ⟨n + 1, y, (persist_limit hv n).trans hy, hyz⟩

end
end Play

namespace World

/-- The runner in front may take so many steps in a call. -/
def withMaxSteps (w : World σ μ) (limit : Nat) : World σ μ := w.setRunnerConfig { w.runnerConfig with maxSteps := limit }

/-- The same but for the limit and the log: where the runner in front is, the variables, all that has been published,
and whatever else there is. -/
structure Agrees (w v : World σ μ) : Prop where
  place : w.runner.place = v.runner.place
  vars : w.vars = v.vars
  published : w.published = v.published
  rest : w.unlimited = v.unlimited

theorem Agrees.of_unlimited {w v : World σ μ} (h : w.unlimited = v.unlimited) : w.Agrees v := by
  refine ⟨place_of_unlimited h, (congrArg World.vars h :), ?_, h⟩
  rw [← w.published_unlimited, ← v.published_unlimited, h]

section
variable (w : World σ μ) (limit : Nat)

theorem busy_withMaxSteps : (w.withMaxSteps limit).runner.busy = w.runner.busy := by
  unfold withMaxSteps setRunnerConfig
  cases w.runner.config <;> rfl

theorem unlimited_withMaxSteps : (w.withMaxSteps limit).unlimited = w.unlimited := by
  unfold withMaxSteps setRunnerConfig runnerConfig unlimited Runner.unlimited
  cases hc : w.runner.config <;> simp [hc, Config.unlimited]

theorem runnerConfig_withMaxSteps : (w.withMaxSteps limit).runnerConfig = { w.runnerConfig with maxSteps := limit } := by
  unfold withMaxSteps setRunnerConfig runnerConfig
  cases hc : w.runner.config <;> simp [hc]

/-- The limit is set by a call. -/
theorem after_setLimit (host : Host σ μ) (hpos : 0 < limit) :
    after (Play.perform host (.configure "max_steps" (.integer limit))) w = w.withMaxSteps limit := by
  have hcount : Config.readCount (.integer limit) = .ok limit := by
    show (if (0 : Int) < limit then Except.ok (limit : Int).toNat else .error _) = _
    rw [if_pos (by omega), Int.toNat_natCast]
  have hset (c : Config) : c.set "max_steps" (.integer limit) = .ok { c with maxSteps := limit } := by
    simp [Config.set, Config.assign?, hcount, Except.map]
  show after (do Play.configure "max_steps" (.integer limit); return Answer.done) w = _
  rw [after, run_bind_ok (show Play.configure "max_steps" (.integer limit) w = .ok () (w.withMaxSteps limit) from ?_)]
  · rfl
  · rw [Play.configure, run_bind_ok (show Play.runnerConfig w = .ok w.runnerConfig w from rfl), hset]
    rfl

end
end World

/-- Coming to the limit loses nothing: when a call goes well under some limit, it comes to the same under a lower one,
if the host goes on as long as a call stops at the limit; and when it goes well under the lower limit right away, it does
the same under the other one. -/
theorem limit_loses_nothing {host : Host σ μ} (hhost : host.RunsCode) (hh : host.Unhurried) {w : World σ μ}
    (hw : Reachable host w) (hoff : w.runnerConfig.autoChoices = false) {op : Operation} (hop : op.advances) {L L' : Nat}
    (hpos : 1 ≤ L) (hL : L ≤ L') :
    (∀ a z, Play.perform host op (w.withMaxSteps L') = .ok a z →
      ∃ n v, Play.persist host n (Play.perform host op) (w.withMaxSteps L) = .ok a v ∧ v.Agrees z) ∧
    ∀ a v, Play.perform host op (w.withMaxSteps L) = .ok a v →
      ∃ z, Play.perform host op (w.withMaxSteps L') = .ok a z ∧ v.Agrees z := by
  have hlimited : Limited (fun _ => True) L L' (w.withMaxSteps L) (w.withMaxSteps L') := by
    refine ⟨(w.unlimited_withMaxSteps L).trans (w.unlimited_withMaxSteps L').symm, ?_, ?_, ?_, trivial⟩ <;>
      rw [w.runnerConfig_withMaxSteps]
    exact hoff
  have horder : (w.withMaxSteps L).InOrder fun _ => True := ((hw.inOrder hhost.tends).tends.configured _).order
  have htending := Play.tending_perform hhost.tends op
  obtain ⟨action, x, hperform, hx⟩ := (Overrun.partings hh hL).perform hop
  have hboth := hx hlimited
  have hstep {k : Nat} (hidle : w.runner.busy = false) :
      Play.perform host op (w.withMaxSteps k) = (do x; return .done : Play σ μ Answer) (w.withMaxSteps k) := by
    rw [hperform]
    exact run_bind_congr (run_bind_ok (Play.requireIdleStep_eq ((w.busy_withMaxSteps k).trans hidle) action)) _
  have hbegun {k : Nat} {a : Answer} {z : World σ μ} (hrun : Play.perform host op (w.withMaxSteps k) = .ok a z) :
      w.runner.busy = false ∧ a = .done ∧ x (w.withMaxSteps k) = .ok () z := by
    rw [hperform] at hrun
    obtain ⟨_, y, hy, hdone⟩ := bind_ok hrun
    cases hdone
    obtain ⟨_, u, hcheck, hgo⟩ := bind_ok hy
    obtain ⟨hidle, rfl⟩ := Play.requireIdleStep_ok hcheck
    exact ⟨(w.busy_withMaxSteps k).symm.trans hidle, rfl, hgo⟩
  refine ⟨fun a z hrun => ?_, fun a v hrun => ?_⟩
  · obtain ⟨hidle, rfl, hz⟩ := hbegun hrun
    rcases hboth with hsame | ⟨u, y, rest, done, huy, hu, hy⟩
    · rw [hz] at hsame
      obtain ⟨v, hv, hvz⟩ := hsame.ok_right
      exact ⟨0, v, (hstep hidle).trans (run_bind_ok hv), .of_unlimited hvz.alike⟩
    · obtain ⟨z, hrest, rfl⟩ := Play.ensuring_ok (hy.symm.trans hz)
      obtain ⟨node, v, hv, hvOrder, hvIdle, hvy⟩ := Play.stops htending horder ((hstep hidle).trans (run_bind_congr hu _)) huy
      obtain ⟨n, v', hv', hagree⟩ := Play.persist_resume hhost.tends hh hpos hL rest done hvy hvIdle hvOrder hrest
      exact ⟨n + 1, v', (Play.persist_limit hv n).trans hv', .of_unlimited hagree.alike⟩
  · obtain ⟨hidle, rfl, hv⟩ := hbegun hrun
    rcases hboth with hsame | ⟨u, y, rest, done, -, hu, -⟩
    · rw [hv] at hsame
      obtain ⟨z, hz, hvz⟩ := hsame.ok_left
      exact ⟨z, (hstep hidle).trans (run_bind_ok hz), .of_unlimited hvz.alike⟩
    · obtain ⟨_, hfail, -⟩ := Play.ensuring_ok (hu.symm.trans hv)
      exact absurd hfail Play.failLimit_ne_ok

/-- Six steps to the first line. -/
def errandScript : String :=
  ":: start\nset $n 1\nif $n == 1\n    add $n 1\nendif\n=> end\n:: end\nA: done\n"

theorem limit_loses_nothing_errand :
    ∃ (host : Host Unit Unit) (w z : World Unit Unit) (a : Answer), Reachable host w ∧
      Play.perform host (.start none 0 false) (w.withMaxSteps 10) = .ok a z ∧
      answer? (Play.perform host (.start none 0 false) (w.withMaxSteps 2)) = none ∧
      ∃ n v, Play.persist host n (Play.perform host (.start none 0 false)) (w.withMaxSteps 2) = .ok a v ∧ v.Agrees z := by
  let host : Host Unit Unit := Host.ofBehaviour (Behaviour.attentive ()) 0 1
  obtain ⟨w, hw, hoff, hrun, hfail⟩ : ∃ w : World Unit Unit, Reachable host w ∧ w.runnerConfig.autoChoices = false ∧
      (answer? (Play.perform host (.start none 0 false) (w.withMaxSteps 10))).isSome ∧
      (answer? (Play.perform host (.start none 0 false) (w.withMaxSteps 2))).isNone :=
    ⟨after (Play.perform host (.register errandScript)) { config := { autoChoices := false }, host := () },
      (Reachable.opened (.alone _ ())).called _, by decide +kernel, by decide +kernel, by decide +kernel⟩
  obtain ⟨a, ha⟩ := Option.isSome_iff_exists.1 hrun
  have hz := ok_of_answer ha
  refine ⟨host, w, _, a, hw, hz, Option.isNone_iff_eq_none.1 hfail, ?_⟩
  exact (limit_loses_nothing ⟨_, _, _, rfl⟩ ((Behaviour.leisurely_attentive ()).unhurried 0 1) hw hoff rfl (by decide)
    (by decide)).1 a _ hz

end Parley
