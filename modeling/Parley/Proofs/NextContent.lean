import Parley.Proofs.Calls
import Parley.Proofs.Foresight
import Parley.Proofs.HostOrder
import Parley.Proofs.PlainGuards

/-! # What comes next comes next

For a runner that waits to go on: the query for what comes next and the call that goes on (`resume_eq`) find the
same. -/

namespace Parley
variable {σ μ : Type}

/-- A runner that waits to go on is inside a node. -/
theorem Reachable.placed {host : Host σ μ} (hhost : host.RunsCode) {w : World σ μ} (hw : Reachable host w)
    (hactive : w.runner.state = .active) (hidle : w.runner.busy = false) :
    ∃ n i, w.runner.stack.getLast? = some ⟨.node n, i⟩ ∧ Placed n w.runner.stack w.runner.memo := by
  obtain ⟨hlive, -⟩ := Runner.state_active hactive
  obtain ⟨n, hp, -⟩ := (hw.inOrder hhost.tends).stands_front (by simp [Option.isSome_iff_ne_none.1 hlive]) hidle
  obtain ⟨inner, i, hs, -⟩ := hp.stacked.node_below
  refine ⟨n, i, ?_, hp⟩
  rw [show w.runner.stack = inner ++ [⟨.node n, i⟩] from hs, List.getLast?_concat]

/-- With steady guards, the query walks to exactly the place where the call first acts, and finds there what the
call does there; or it fails, and the call fails alike before it acts. The query leaves everything as it was. -/
theorem nextContent_agrees {host : Host σ μ} (hhost : host.RunsCode) {w : World σ μ}
    (hw : Reachable host w) (hactive : w.runner.state = .active) (hidle : w.runner.busy = false)
    {n : Node} {i : Nat} (hn : w.runner.stack.getLast? = some ⟨.node n, i⟩) {S : World σ μ → Prop}
    (hsteady : Steady host S n) (hS : S w) :
    Play.resume host w = Play.busyStep (Play.approach host >>= Play.proceed host) w ∧
    ∃ (o : Except Fault (Lookahead × Halt)) (u v : World σ μ),
      Play.nextContent host w = Except.inWorld (o.map fun p => p.2.sight.next) u ∧ w.Alike u ∧
      Play.scan host w = Except.inWorld (o.map Prod.fst) u ∧
      Play.approach host w.begun = Except.inWorld (o.map fun p => some p.2) v ∧ (w.withRunner v.runner).Alike v ∧
      (∀ a h, o = .ok (a, h) → a.Meets h.sight { w.begun.runner with wait := none } v.runner) ∧
      ∀ f, o = .error f → ∃ v', Play.resume host w = .error f v' ∧ v'.published = w.published := by
  obtain ⟨hlive, hmenu⟩ := Runner.state_active hactive
  have hresume := Play.resume_eq host hactive hidle
  obtain ⟨n', i', hn', hp⟩ := hw.placed hhost hactive hidle
  obtain rfl : n' = n := by rw [hn] at hn'; cases hn'; rfl
  obtain ⟨o, u, v, hscan, happroach, -, -, hu, hv, hmeets⟩ := Play.scan_meets hsteady hS hlive hmenu hp
  refine ⟨hresume, o, u, v, ?_, hu, hscan, happroach, hv, hmeets, ?_⟩
  · rw [Play.nextContent_eq host hactive]
    cases o with
    | error f => exact run_bind_error hscan
    | ok p =>
      have hkind := (hmeets p.1 p.2 rfl).kind
      rw [run_bind_ok hscan]
      show EStateM.Result.ok p.1.kind u = _
      rw [hkind]
      rfl
  · rintro f rfl
    exact ⟨v.rested, hresume.trans (Play.busyStep_error (run_bind_error happroach)), hv.published⟩

/-- A line, and a menu behind it whose second choice is dead. -/
def menuScript : String := ":: start\nA: hi\nif true\n    -> a\n    -> b [if false]\nendif\n"

theorem nextContent_agrees_menu :
    ∃ (host : Host Unit Unit) (w u v : World Unit Unit) (o : Except Fault (Lookahead × Halt)),
      Reachable host w ∧ w.runner.state = .active ∧ answer? (Play.nextContent host w) = some .choice ∧
      Play.nextContent host w = Except.inWorld (o.map fun p => p.2.sight.next) u ∧
      Play.approach host w.begun = Except.inWorld (o.map fun p => some p.2) v := by
  let host : Host Unit Unit := Host.ofBehaviour Behaviour.silent 0 1
  obtain ⟨w, hw, hactive, hidle, hplain, hchoice⟩ : ∃ w : World Unit Unit, Reachable host w ∧ w.runner.state = .active ∧
      w.runner.busy = false ∧ (∀ f ∈ w.runner.stack.getLast?, f.container.Guarded fun _ e => e.isPlain w.vars) ∧
      answer? (Play.nextContent host w) = some .choice :=
    ⟨after (Play.perform host (.start none 0 false)) (after (Play.perform host (.register menuScript))
      { config := { autoChoices := false }, host := () }),
      ((Reachable.opened (.alone _ ())).called _).called _, by decide +kernel, by decide +kernel, by decide +kernel,
      by decide +kernel⟩
  obtain ⟨n, i, hn, -⟩ := hw.placed ⟨_, _, _, rfl⟩ hactive hidle
  obtain ⟨-, o, u, v, hnext, -, -, happroach, -⟩ := nextContent_agrees ⟨_, _, _, rfl⟩ hw hactive hidle hn
    (Steady.of_plain host (hplain _ hn)) rfl
  exact ⟨host, w, u, v, o, hw, hactive, hchoice, hnext, happroach⟩

end Parley
