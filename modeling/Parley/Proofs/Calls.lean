import Parley.Proofs.Placement
import Parley.Proofs.Sight

/-! # Calls that are allowed

What the calls that step on come to where the state of the runner allows them. -/

namespace Parley
variable {σ μ : Type}

theorem Runner.state_active {r : Runner} (h : r.state = .active) : r.session.isSome ∧ r.menu = [] := by
  unfold Runner.state at h
  split at h
  · cases h
  · next hs =>
    split at h
    · next hm => exact ⟨by simpa [Option.isSome_iff_ne_none] using hs, List.isEmpty_iff.1 hm⟩
    · cases h

/-- Goes on with a session, with no menu open and nothing to wait for. -/
structure Place.Ready (p : Place) : Prop where
  session : p.session.isSome
  menu : p.menu = []
  wait : p.wait = none

theorem Place.Ready.roams (p : Place) (stack : List Frame) (memo : Memo) (h : p.Ready) :
    { p with stack, memo }.Ready :=
  ⟨h.session, h.menu, h.wait⟩

theorem Place.Ready.active {r : Runner} (h : r.place.Ready) : r.state = .active := by
  have hsession : r.session.isSome := h.session
  unfold Runner.state
  rw [if_neg (by simpa [Option.isSome_iff_ne_none] using hsession), show r.menu = [] from h.menu]
  rfl

namespace Play
variable (host : Host σ μ) {w : World σ μ}

theorem requireIdleStep_eq (hidle : w.runner.busy = false) (action : String) :
    (requireIdleStep action : Play σ μ Unit) w = .ok () w := by
  rw [requireIdleStep, run_bind_ok (show runner w = .ok w.runner w from rfl), hidle]
  rfl

theorem requireIdleStep_ok {action : String} {w v : World σ μ} {u : Unit}
    (h : (requireIdleStep action : Play σ μ Unit) w = .ok u v) : w.runner.busy = false ∧ v = w := by
  cases hidle : w.runner.busy with
  | false =>
    rw [requireIdleStep_eq hidle] at h
    cases h
    exact ⟨rfl, rfl⟩
  | true =>
    rw [requireIdleStep, run_bind_ok (show runner w = .ok w.runner w from rfl), hidle] at h
    cases h

theorem requireRunning_eq (hlive : w.runner.session.isSome) :
    (requireRunning : Play σ μ Unit) w = .ok () w := by
  rw [requireRunning, run_bind_ok (show runner w = .ok w.runner w from rfl),
    if_neg (by simp [Option.isSome_iff_ne_none.1 hlive])]
  rfl

/-- A first session, at an item of a node. -/
theorem start_eq (hidle : w.runner.busy = false) (hnone : w.runner.session = none) {name : Option String}
    {n : Node} (hn : w.nodes.get? (startName name w.runnerConfig.startNode) = some n) {index : Nat}
    (hindex : index < n.content.length) (force : Bool) :
    start host name index force w = startAt host n (startName name w.runnerConfig.startNode) index w := by
  have hget : getNode (startName name w.runnerConfig.startNode) w = .ok n w := by
    rw [getNode, run_bind_ok (show (get : Play σ μ (World σ μ)) w = .ok w w from rfl), hn]
    rfl
  rw [start, run_bind_ok (requireIdleStep_eq hidle _), run_bind_ok (show runner w = .ok w.runner w from rfl), hnone]
  dsimp only
  rw [if_neg (by simp), run_bind_ok (show runnerConfig w = .ok w.runnerConfig w from rfl),
    run_bind_ok hget, if_neg (by omega), if_neg (by simp), Int.toNat_natCast]

/-- Going on, with the stretch before the first action apart. -/
theorem resume_eq (hactive : w.runner.state = .active) (hidle : w.runner.busy = false) :
    resume host w = busyStep (approach host >>= proceed host) w := by
  obtain ⟨hlive, hmenu⟩ := Runner.state_active hactive
  rw [resume, run_bind_ok (requireIdleStep_eq hidle _), run_bind_ok (requireRunning_eq hlive),
    run_bind_ok (show runner w = .ok w.runner w from rfl), hmenu, advance_eq]
  rfl

/-- What a pick does. -/
def follow (choice : Choice) (i : Nat) : Play σ μ Unit := do
  let _ ← publish host (.selected choice i)
  if (← runner).session.isNone then return ()
  modifyRunner fun r => { r with menu := [] }
  if !choice.content.isEmpty then modifyRunner fun r => r.push (.choice choice)
  advance host

theorem select_eq (hidle : w.runner.busy = false) (hmenu : w.runner.menu.isEmpty = false) (i : Int) :
    select host i w = (match if i < 0 then none else w.runner.menu[i.toNat]? with
      | none => refuse (.choiceRange i w.runner.menu.length)
      | some choice => busyStep (follow host choice i.toNat) : Play σ μ Unit) w := by
  rw [select, run_bind_ok (requireIdleStep_eq hidle _), run_bind_ok (show runner w = .ok w.runner w from rfl)]
  dsimp only
  rw [if_neg (by simp [hmenu])]
  cases (if i < 0 then none else w.runner.menu[i.toNat]?) <;> rfl

theorem nextContent_eq (hactive : w.runner.state = .active) :
    nextContent host w = (do return (← scan host).kind : Play σ μ NextContent) w := by
  obtain ⟨hlive, hmenu⟩ := Runner.state_active hactive
  rw [nextContent, run_bind_ok (show runner w = .ok w.runner w from rfl), hmenu,
    if_neg (by simp [Option.isSome_iff_ne_none.1 hlive])]

end Play

end Parley
