import Parley.Proofs.Conduct

/-! # Every call is a stretch

Calls begin and end steps, and refuse or make moves of their own before and after. Host code makes calls one level
deeper, so that they are stretches at any depth follows by induction on it (`Host.nesting`), as long as the functions of
the host drive no runner. -/

namespace Parley
variable {σ μ : Type}

namespace World
variable {hosts : Nat → Host σ μ} {w₀ w : World σ μ}

theorem Going.begun (h : w₀.Going hosts w) : w₀.Afoot hosts w.begun := ⟨h.stay rfl, rfl⟩

theorem Going.rested (h : w₀.Going hosts w) : w₀.Going hosts w.rested := h.stay rfl

end World

namespace Nesting
variable {hosts : Nat → Host σ μ} {depth : Nat} (hn : Nesting hosts depth) {w₀ : World σ μ} {A : Place → Prop}

/-- A step, with the runner at a place with `A`. -/
theorem busyStep {x : Play σ μ Unit} (hx : Goes hosts A x fun _ _ => True) {w : World σ μ} (hw : w₀.Going hosts w)
    (hA : A w.runner.place) :
    wp (Play.busyStep x) (fun _ => w₀.Going hosts) (fun _ w' => w₀.Going hosts w' ∧ True) w := by
  rw [wp, Play.busyStep_eq]
  refine wp_ensuring.2 (wp_mono (hx hw.begun hA) (fun _ _ h => ?_) fun _ _ h => ?_)
  · exact h.1.toGoing.rested
  · exact ⟨h.toGoing.rested, trivial⟩

include hn

theorem refuse {α : Type} (f : SessionFault) :
    Upholds (w₀.Going hosts) (fun _ => True) (Play.refuse f : Play σ μ α) :=
  Play.upholds_failOn (hn.upkeep w₀) _ rfl

/-- A call that needs a runner at rest. -/
theorem requireIdleStep {action : String} {x : Play σ μ Unit} (hx : Upholds (w₀.Going hosts) (fun _ => True) x) :
    Upholds (w₀.Going hosts) (fun _ => True) (Play.requireIdleStep action >>= fun _ => x) :=
  .bind (.runner fun _ => .ite (hn.refuse _) (.pure _)) fun _ => hx

theorem resume : Upholds (w₀.Going hosts) (fun _ => True) (Play.resume (hosts depth)) := by
  have hstep : Upholds (w₀.Going hosts) (fun _ => True) (Play.busyStep (Play.advance (hosts depth))) := fun _ hw =>
    busyStep (A := fun _ => True) hn.advance hw trivial
  refine hn.requireIdleStep (.bind (.runner fun _ => .ite (hn.refuse _) (.pure _)) fun _ => .runner fun r => ?_)
  exact .ite ((hn.refuse _).bind fun _ => hstep) hstep

theorem jump (name : String) : Upholds (w₀.Going hosts) (fun _ => True) (Play.jump (hosts depth) name) := by
  refine hn.requireIdleStep fun w hw => ?_
  rw [wp_bind]
  simp only [Play.requireRunning, wp_bind, wp_runner, wp_ite, wp_pure]
  split
  · exact hn.refuse (α := Unit) _ hw
  · next hs =>
    have hlive : w.runner.session.isSome := by simpa [Option.isSome_iff_ne_none] using hs
    have hget := Play.upholds_getNode (hn.upkeep w₀).housekeeping.toRecording name hw
    unfold wp at hget ⊢
    cases hnode : Play.getNode name w with
    | error f v => rw [hnode] at hget; exact hget
    | ok n v =>
      obtain ⟨hnode, rfl⟩ := getNode_ok hnode
      exact busyStep ((hn.enterNode (hw.sound.parsed _ n hnode).nodup).bind fun _ => hn.advance) hw hlive

/-- What a pick from the open menu does. -/
theorem follow {choice : Choice} {i : Nat} :
    Goes hosts (fun p => choice ∈ p.menu) (Play.follow (hosts depth) choice i) fun _ _ => True := by
  have hselected : Goes hosts (fun p => choice ∈ p.menu) (Play.publish (hosts depth) (.selected choice i))
      fun _ p => p.session.isSome → choice ∈ p.menu :=
    (hn.publish (A := fun p => p.session.isSome → choice ∈ p.menu) _ fun p h hs => by
      rw [h.session] at hs; cases hs).mono (fun _ h _ => h) fun _ _ h => h
  refine hselected.bind fun _ => .runner fun r hsettled hr => .ite (fun _ => .pure fun _ _ => trivial) fun hs => ?_
  have hlive : r.session.isSome := by simpa [Option.isSome_iff_ne_none] using hs
  obtain ⟨n, -, hmenu⟩ := hsettled.stands hlive
  obtain ⟨f, below, hstack, hheld⟩ := hmenu choice (hr hlive)
  have hclose : Goes hosts (fun p => (p.session.isSome → choice ∈ p.menu) ∧ p = r.place)
      (Play.modifyRunner fun r => { r with menu := [] } : Play σ μ Unit)
      fun _ p => (p.stack = f :: below ∧ p.menu = []) ∧ f.Holds p.memo (.choice choice) :=
    .move (fun _ => rfl) fun r' hr' => ⟨.opened nofun, ⟨(congrArg Place.stack hr'.2).trans hstack, rfl⟩,
      (show r'.memo = r.memo from congrArg Place.memo hr'.2) ▸ hheld⟩
  have hpush : Goes hosts (fun p => (p.stack = f :: below ∧ p.menu = []) ∧ f.Holds p.memo (.choice choice))
      (Play.modifyRunner fun r => r.push (.choice choice) : Play σ μ Unit) fun _ _ => True :=
    .move (fun _ => rfl) fun r' hr' => by
      rw [Runner.push, show r'.stack = _ from hr'.1.1]
      exact ⟨.picked hr'.1.1 hr'.1.2 hr'.2, trivial⟩
  exact hclose.bind fun _ => .ite (fun _ => hpush.bind fun _ => hn.advance) fun _ => hn.advance

theorem select (index : Int) : Upholds (w₀.Going hosts) (fun _ => True) (Play.select (hosts depth) index) := by
  refine hn.requireIdleStep fun w hw => ?_
  simp only [wp_bind, wp_runner, wp_ite]
  split
  · exact hn.refuse (α := Unit) _ hw
  · split
    · exact hn.refuse (α := Unit) _ hw
    · next choice hchoice =>
      have hmem : choice ∈ w.runner.menu := by
        split at hchoice
        · cases hchoice
        · exact List.mem_of_getElem? hchoice
      exact busyStep hn.follow hw hmem

theorem startAt {n : Node} {index : Nat} (hnode : (contentKeys n.content).Nodup) (hindex : index ≤ n.content.length)
    (name : String) : Upholds (w₀.Going hosts) (fun _ => True) (Play.startAt (hosts depth) n name index) := by
  have hopen : Goes hosts (fun p => p = ⟨[], [], [], none, none⟩) (Play.openSession n index : Play σ μ SessionId)
      fun _ _ => True := by
    have hnumber : Goes hosts (fun p => p = ⟨[], [], [], none, none⟩)
        (modify fun w => { w with sessions := w.sessions + 1 } : Play σ μ Unit)
        fun _ p => p = ⟨[], [], [], none, none⟩ :=
      fun _ _ hw hp => ⟨⟨hw.still (fun _ => rfl) hw.sound.parsed, hw.busy⟩, hp⟩
    refine hnumber.bind fun _ => .get fun w => ?_
    have hbegin : Goes hosts (fun p => p = ⟨[], [], [], none, none⟩)
        (Play.modifyRunner fun r =>
          { r with session := some w.sessions, stack := ⟨.node n, index⟩ :: r.stack } : Play σ μ Unit)
        fun _ _ => True := by
      refine .move (fun _ => rfl) fun r hr => ⟨?_, trivial⟩
      obtain ⟨config, stack, memo, menu, session, wait, busy, bus⟩ := r
      cases hr
      exact .began hnode hindex
    exact hbegin.bind fun _ => .pure fun _ h => h
  have hstep : Goes hosts (fun p => p = ⟨[], [], [], none, none⟩) (do
      let id ← Play.openSession n index
      Play.log .debug .runner s!"Session {sessionName (some id)} started at '{name}'"
      let _ ← Play.publish (hosts depth) (.started id name)
      let _ ← Play.publish (hosts depth) (.entered name)
      Play.advance (hosts depth)) fun _ _ => True :=
    hopen.bind fun _ => (Goes.log _ _ _).bind fun _ => (hn.announce _).bind fun _ =>
      (hn.announce _).bind fun _ => hn.advance
  intro w hw
  exact busyStep hstep (w := w.withRunner w.runner.reset) (hw.move .ended) rfl

theorem start (name : Option String) (index : Int) (force : Bool) :
    Upholds (w₀.Going hosts) (fun _ => True) (Play.start (hosts depth) name index force) := by
  refine hn.requireIdleStep fun w hw => ?_
  simp only [wp_bind, wp_runner, wp_runnerConfig, wp_ite]
  split
  · exact hn.refuse (α := Unit) _ hw
  · have hget := Play.upholds_getNode (hn.upkeep w₀).housekeeping.toRecording (Play.startName name w.runnerConfig.startNode) hw
    unfold wp at hget
    cases hnode : Play.getNode (Play.startName name w.runnerConfig.startNode) w with
    | error f v => rw [hnode] at hget; rw [wp_error hnode]; exact hget
    | ok n v =>
      obtain ⟨hnode', rfl⟩ := getNode_ok hnode
      rw [wp_ok hnode]
      split
      · exact hn.refuse (α := Unit) _ hw
      · next hindex =>
        have hbegin (name : String) :
            Upholds (w₀.Going hosts) (fun _ => True) (Play.startAt (hosts depth) n name index.toNat) :=
          hn.startAt (hw.sound.parsed _ n hnode').nodup (by omega) name
        split
        · exact hbegin _ (hw.still (fun _ => rfl) hw.sound.parsed)
        · exact hbegin _ hw

theorem finish (force : Bool) : Upholds (w₀.Going hosts) (fun _ => True) (Play.finish (hosts depth) force) := by
  have hend (r : Runner) : Upholds (w₀.Going hosts) (fun _ => True) (if r.session.isNone then
      Play.log .debug .runner "end() called with no dialogue running" else Play.complete (hosts depth)) :=
    .ite (Play.upholds_log (hn.upkeep w₀) ..) (hn.going_complete w₀)
  exact .runner fun r => .ite ((hn.refuse _).bind fun _ => hend r) (hend r)

/-- Looking ahead moves nothing. -/
theorem nextContent : Upholds (w₀.Going hosts) (fun _ => True) (Play.nextContent (hosts depth)) :=
  Play.upholds_nextContent (hn.upkeep w₀) fun limit =>
    (Play.staying_failLimit (hn.modest depth) limit).going (Play.tending_failLimit (hn.tends depth) limit) hosts w₀

theorem perform (op : Operation) : Upholds (w₀.Going hosts) (fun _ => True) (Play.perform (hosts depth) op) := by
  have hdone {x : Play σ μ Unit} (hx : Upholds (w₀.Going hosts) (fun _ => True) x) :
      Upholds (w₀.Going hosts) (fun _ => True) (do x; return Answer.done) :=
    hx.bind fun _ => .pure _
  refine Play.upholds_perform (hn.upkeep w₀) op.brings_parsed fun hsession => ?_
  cases op with
  | start name index force => exact hdone (hn.start name index force)
  | resume => exact hdone hn.resume
  | select index => exact hdone (hn.select index)
  | jump name => exact hdone (hn.jump name)
  | finish force => exact hdone (hn.finish force)
  | nextContent => exact hn.nextContent.bind fun _ => .pure _
  | _ => cases hsession

end Nesting

/-- What code asks for at another seat is a stretch too. -/
theorem Code.going_run {α : Type} {hosts : Nat → Host σ μ} {perform : Operation → Play σ μ Answer}
    (hp : ∀ (w₀ : World σ μ) op, Upholds (w₀.Going hosts) (fun _ => True) (perform op)) (c : Code σ μ α)
    (w₀ : World σ μ) : Upholds (w₀.Going hosts) (fun _ => True) (c.run perform) := by
  induction c with
  | pure a => exact .pure a
  | fail f => exact .throw trivial
  | look next ih => exact .get fun w => ih w
  | keep s next ih => exact .bind (.modify fun w hw => hw.still (fun _ => rfl) hw.sound.parsed) fun _ => ih
  | mark m next ih => exact .bind (.modify fun w hw => hw.still (fun _ => rfl) hw.sound.parsed) fun _ => ih
  | ask seat op next ih =>
    refine fun w hw => wp_run_ask.2 (wp_onSeat.2 ?_)
    exact wp_mono (hp w₀ op (hw.turnTo seat)) (fun _ _ h => ih _ (h.turnTo w.seat)) fun _ _ h => ih _ (h.1.turnTo w.seat)

theorem Host.nesting {b : Behaviour σ μ} {patience : Nat} (hm : ∀ depth, (Host.ofBehaviour b patience depth).Modest)
    (depth : Nat) : Nesting (Host.ofBehaviour b patience) depth := by
  have htends (depth : Nat) := b.vouches_true.tends patience depth
  induction depth with
  | zero => exact ⟨hm, htends, fun _ _ _ _ => .throw trivial⟩
  | succ depth ih =>
    exact ⟨hm, htends, fun w₀ seat h n => Code.going_run (fun _ op => ih.perform op) (b.handle seat h n) w₀⟩

theorem World.Fresh.sound {w : World σ μ} (h : w.Fresh) : w.Sound := by
  refine ⟨fun name n hn => ?_, fun s p hp => ?_⟩
  · rw [h.nodes] at hn; cases hn
  · obtain ⟨r, hr, rfl⟩ := Option.map_eq_some_iff.1 hp
    rw [h.runners s r hr]
    exact .inl ⟨rfl, rfl, rfl, rfl⟩

end Parley
