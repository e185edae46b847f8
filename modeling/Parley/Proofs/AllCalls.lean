import Parley.Proofs.Chores

/-! # Calls and what does not look at sessions

An invariant that looks at the runners' buses and the journal only does not see the sessions come and go. All that calls
about a session do to it is publish, so as long as publishing upholds it, they all do (`Indifferent`). One that looks at
whether runners are busy is upheld by all that happens within a step (`Stepping`), but not by the call around it. -/

namespace Parley
variable {σ μ : Type}

theorem Runner.untouched_skip (r : Runner) (count : Nat) :
    (r.skip count).bus = r.bus ∧ (r.skip count).busy = r.busy := by
  unfold Runner.skip
  split <;> exact ⟨rfl, rfl⟩

/-- What `I` has to bear for that. -/
structure Indifferent (host : Host σ μ) (I : World σ μ → Prop) : Prop
    extends Housekeeping host (fun _ => True) I (fun _ => True) where
  withRunner : ∀ {w : World σ μ}, I w → ∀ r : Runner, r.bus = w.runner.bus → I { w with runner := r }
  numbered : ∀ {w : World σ μ}, I w → ∀ sessions, I { w with sessions }
  publish : ∀ n, Upholds I (fun _ => True) (Play.publish host n)

/-- What it has to bear of a single step, which leaves the runner as busy as it is. -/
structure Stepping (host : Host σ μ) (I : World σ μ → Prop) : Prop
    extends Housekeeping host (fun _ => True) I (fun _ => True) where
  moved : ∀ {w : World σ μ}, I w → ∀ r : Runner, r.bus = w.runner.bus → r.busy = w.runner.busy → I { w with runner := r }
  numbered : ∀ {w : World σ μ}, I w → ∀ sessions, I { w with sessions }
  publish : ∀ n, Upholds I (fun _ => True) (Play.publish host n)

theorem Indifferent.stepping {host : Host σ μ} {I : World σ μ → Prop} (hi : Indifferent host I) : Stepping host I :=
  { hi with moved := fun hw r hbus _ => hi.withRunner hw r hbus }

namespace Stepping
variable {host : Host σ μ} {I : World σ μ → Prop} (hi : Stepping host I)
include hi

theorem modifyRunner {f : Runner → Runner} (hf : ∀ r, (f r).bus = r.bus ∧ (f r).busy = r.busy) :
    Upholds I (fun _ => True) (Play.modifyRunner f : Play σ μ Unit) :=
  .modify fun w hw => hi.moved hw (f w.runner) (hf _).1 (hf _).2

theorem log (level : LogLevel) (channel : LogChannel) (message : String) :
    Upholds I (fun _ => True) (Play.log level channel message : Play σ μ Unit) :=
  Play.upholds_log hi.toRecording ..

theorem getNode (name : String) : Upholds I (fun _ => True) (Play.getNode name : Play σ μ Node) :=
  Play.upholds_getNode hi.toRecording name

/-! ### Stepping -/

theorem complete : Upholds I (fun _ => True) (Play.complete host) := by
  refine .runner fun r => .bind (hi.modifyRunner fun _ => ⟨rfl, rfl⟩) fun _ => .bind (hi.log ..) fun _ => ?_
  exact .bind (hi.publish _) fun _ => .pure _

theorem enterNode (n : Node) : Upholds I (fun _ => True) (Play.enterNode host n) := by
  refine .bind (hi.modifyRunner fun _ => ⟨rfl, rfl⟩) fun _ => .bind (hi.log ..) fun _ => ?_
  exact .bind (hi.publish _) fun _ => .pure _

theorem popFrame : Upholds I (fun _ => True) (Play.popFrame : Play σ μ Unit) := by
  refine .runner fun r => ?_
  split
  · exact .throw trivial
  · exact hi.modifyRunner fun _ => ⟨rfl, rfl⟩

theorem frameItems (f : Frame) : Upholds I (fun _ => True) (Play.frameItems host f) := by
  unfold Play.frameItems
  split
  · exact .pure _
  · exact .pure _
  · refine .runner fun r => ?_
    split
    · exact .pure _
    · refine .bind (Play.upholds_selectBranch hi.toBearing _) fun _ => ?_
      exact .bind (hi.modifyRunner fun _ => ⟨rfl, rfl⟩) fun _ => .pure _

theorem openMenu (choices : List Choice) : Upholds I (fun _ => True) (Play.openMenu host choices) := by
  refine .bind (hi.modifyRunner fun _ => ⟨rfl, rfl⟩) fun _ => .bind (Play.upholds_renderAll hi.toBearing _) fun _ => ?_
  exact .bind (hi.publish _) fun _ => .pure _

theorem display (l : Line) : Upholds I (fun _ => True) (Play.display host l) :=
  .bind (Play.upholds_render hi.toBearing _) fun _ => .bind (hi.publish _) fun _ => .pure _

theorem failLimit {α : Type} (limit : Nat) : Upholds I (fun _ => True) (Play.failLimit limit : Play σ μ α) :=
  .runner fun _ => .bind (.ofExcept fun _ _ => trivial) fun _ => Play.upholds_failOn hi.toRecording _ rfl

theorem advanceToChoices : Upholds I (fun _ => True) (Play.advanceToChoices host) := by
  have hscan : Upholds I (fun _ => True) (Play.scan host) :=
    .get fun _ => .runner fun _ => Play.upholds_scanFrom hi.toBearing (fun limit => hi.failLimit limit) ..
  refine .bind hscan fun ahead => .ite ?_ (.pure _)
  exact .bind (hi.modifyRunner fun _ => ⟨rfl, rfl⟩) fun _ => hi.openMenu _

theorem obey (c : Command) (line : Int) : Upholds I (fun _ => True) (Play.obey host c line) := by
  refine .bind (Play.upholds_execute hi.toBearing c line) fun target => ?_
  cases target with
  | some name => exact .bind (hi.getNode name) fun n => .bind (hi.enterNode n) fun _ => .pure _
  | none => exact .bind (hi.modifyRunner fun r => r.untouched_skip 1) fun _ => .pure _

theorem act (item : Content) (following : List Content) : Upholds I (fun _ => True) (Play.act host item following) := by
  cases item with
  | condition c => exact .bind (hi.modifyRunner fun r => r.untouched_skip 1) fun _ => .pure _
  | choice c =>
    refine .bind (Play.upholds_collectChoices hi.toBearing following) fun found => ?_
    refine .bind (hi.modifyRunner fun r => r.untouched_skip found.2) fun _ => .ite ?_ ?_
    · exact .bind (hi.log ..) fun _ => .pure _
    · exact .bind (hi.openMenu _) fun _ => .pure _
  | line l =>
    refine .bind (hi.modifyRunner fun r => r.untouched_skip 1) fun _ => .bind (hi.display l) fun _ => ?_
    exact .get fun w => .runner fun r => .ite (.bind hi.advanceToChoices fun _ => .pure _) (.pure _)
  | command c pos =>
    cases c with
    | wait e =>
      refine .bind (Play.upholds_waitDuration hi.toBearing e pos.line) fun _ => ?_
      exact .bind (hi.modifyRunner fun r => r.untouched_skip 1) fun _ => .bind (hi.publish _) fun _ => .pure _
    | assign | call | jump => exact hi.obey _ _

theorem stepOnce : Upholds I (fun _ => True) (Play.stepOnce host) := by
  refine .runner fun r => ?_
  split
  · exact .bind hi.complete fun _ => .pure _
  · refine .bind (hi.frameItems _) fun items => ?_
    unfold Play.actIn
    split
    · refine .runner fun r => .ite ?_ ?_
      · exact .bind hi.complete fun _ => .pure _
      · exact .bind hi.popFrame fun _ => .pure _
    · exact hi.act _ _

theorem advance : Upholds I (fun _ => True) (Play.advance host) := by
  have hfrom (fuel steps : Nat) : Upholds I (fun _ => True) (Play.advanceFrom host fuel steps) := by
    induction fuel generalizing steps with
    | zero => exact .throw trivial
    | succ fuel ih =>
      refine .runner fun r => .ite (.pure _) (.get fun w => .ite (hi.failLimit _) ?_)
      exact .bind hi.stepOnce fun stop => .ite (.pure _) (ih _)
  exact .bind (hi.modifyRunner fun _ => ⟨rfl, rfl⟩) fun _ => .get fun _ => hfrom _ _

/-! ### Sessions -/

theorem refuse {α : Type} (f : SessionFault) : Upholds I (fun _ => True) (Play.refuse f : Play σ μ α) :=
  Play.upholds_failOn hi.toRecording _ rfl

theorem requireIdleStep (action : String) : Upholds I (fun _ => True) (Play.requireIdleStep action : Play σ μ Unit) :=
  .runner fun _ => .ite (hi.refuse _) (.pure _)

theorem requireRunning : Upholds I (fun _ => True) (Play.requireRunning : Play σ μ Unit) :=
  .runner fun _ => .ite (hi.refuse _) (.pure _)

/-- The step that begins a session. -/
theorem begin (n : Node) (name : String) (index : Nat) :
    Upholds I (fun _ => True) (do
      let id ← Play.openSession n index
      Play.log .debug .runner s!"Session {sessionName (some id)} started at '{name}'"
      let _ ← Play.publish host (.started id name)
      let _ ← Play.publish host (.entered name)
      Play.advance host) := by
  have hopen : Upholds I (fun _ => True) (Play.openSession n index : Play σ μ SessionId) := by
    refine .bind (.modify fun w hw => hi.numbered hw _) fun _ => .get fun w => ?_
    exact .bind (hi.modifyRunner fun _ => ⟨rfl, rfl⟩) fun _ => .pure _
  refine .bind hopen fun _ => .bind (hi.log ..) fun _ => ?_
  exact .bind (hi.publish _) fun _ => .bind (hi.publish _) fun _ => hi.advance

/-- The step that follows a choice. -/
theorem follow (choice : Choice) (i : Nat) :
    Upholds I (fun _ => True) (do
      let _ ← Play.publish host (.selected choice i)
      if (← Play.runner).session.isNone then return ()
      Play.modifyRunner fun r => { r with menu := [] }
      if !choice.content.isEmpty then Play.modifyRunner fun r => r.push (.choice choice)
      Play.advance host) := by
  refine .bind (hi.publish _) fun _ => .runner fun r => .ite (.pure _) ?_
  refine .bind (hi.modifyRunner fun _ => ⟨rfl, rfl⟩) fun _ => .ite ?_ hi.advance
  exact .bind (hi.modifyRunner fun _ => ⟨rfl, rfl⟩) fun _ => hi.advance

end Stepping

namespace Indifferent
variable {host : Host σ μ} {I : World σ μ → Prop} (hi : Indifferent host I)
include hi

theorem modifyRunner {f : Runner → Runner} (hf : ∀ r, (f r).bus = r.bus) :
    Upholds I (fun _ => True) (Play.modifyRunner f : Play σ μ Unit) :=
  .modify fun w hw => hi.withRunner hw (f w.runner) (hf _)

theorem busyStep {x : Play σ μ Unit} (hx : Upholds I (fun _ => True) x) :
    Upholds I (fun _ => True) (Play.busyStep x) := by
  refine .bind (hi.modifyRunner fun _ => rfl) fun _ w hw => wp_ensuring.2 ?_
  exact wp_mono (hx hw) (fun _ _ h => hi.withRunner h _ rfl) fun _ _ h => ⟨hi.withRunner h.1 _ rfl, trivial⟩

theorem startAt (n : Node) (name : String) (index : Nat) :
    Upholds I (fun _ => True) (Play.startAt host n name index) :=
  .bind (hi.modifyRunner fun _ => rfl) fun _ => hi.busyStep (hi.stepping.begin n name index)

theorem start (name : Option String) (index : Int) (force : Bool) :
    Upholds I (fun _ => True) (Play.start host name index force) := by
  refine .bind (hi.stepping.requireIdleStep _) fun _ => .runner fun r => ?_
  extract_lets running begin
  have hbegin : Upholds I (fun _ => True) (begin ()) := by
    refine .get fun w => .bind (hi.stepping.getNode _) fun n => ?_
    extract_lets name' go
    have hgo : Upholds I (fun _ => True) (go ()) :=
      .ite (.bind (hi.stepping.log ..) fun _ => hi.startAt ..) (hi.startAt ..)
    exact .ite (.bind (hi.stepping.refuse _) fun _ => hgo) hgo
  exact .ite (.bind (hi.stepping.refuse _) fun _ => hbegin) hbegin

theorem resume : Upholds I (fun _ => True) (Play.resume host) := by
  have hstep := hi.busyStep hi.stepping.advance
  refine .bind (hi.stepping.requireIdleStep _) fun _ => .bind hi.stepping.requireRunning fun _ => .runner fun r => ?_
  exact .ite (.bind (hi.stepping.refuse _) fun _ => hstep) hstep

theorem select (index : Int) : Upholds I (fun _ => True) (Play.select host index) := by
  refine .bind (hi.stepping.requireIdleStep _) fun _ => .runner fun r => ?_
  extract_lets menu go pick
  have hpick : Upholds I (fun _ => True) (pick ()) := by
    unfold pick
    split
    · exact hi.stepping.refuse _
    · next choice _ => exact hi.busyStep (hi.stepping.follow choice _)
  exact .ite (.bind (hi.stepping.refuse _) fun _ => hpick) hpick

theorem jump (name : String) : Upholds I (fun _ => True) (Play.jump host name) := by
  refine .bind (hi.stepping.requireIdleStep _) fun _ => .bind hi.stepping.requireRunning fun _ => ?_
  refine .bind (hi.stepping.getNode name) fun n => ?_
  exact hi.busyStep (.bind (hi.stepping.enterNode n) fun _ => hi.stepping.advance)

theorem finish (force : Bool) : Upholds I (fun _ => True) (Play.finish host force) := by
  refine .runner fun r => ?_
  have hend : Upholds I (fun _ => True) (if r.session.isNone then
      Play.log .debug .runner "end() called with no dialogue running" else Play.complete host) :=
    .ite (hi.stepping.log ..) hi.stepping.complete
  exact .ite (.bind (hi.stepping.refuse _) fun _ => hend) hend

/-- What calls about a bus uphold, all calls do. -/
theorem perform {op : Operation} (hbus : op.aboutBus = true → Upholds I (fun _ => True) (Play.perform host op)) :
    Upholds I (fun _ => True) (Play.perform host op) := by
  have hdone {x : Play σ μ Unit} (hx : Upholds I (fun _ => True) x) :
      Upholds I (fun _ => True) (do x; return Answer.done) :=
    .bind hx fun _ => .pure _
  refine Play.upholds_perform_of hi.toHousekeeping op.brings_true fun hother => hother.elim (fun hsession => ?_) hbus
  cases op with
  | start name index force => exact hdone (hi.start name index force)
  | resume => exact hdone hi.resume
  | select index => exact hdone (hi.select index)
  | jump name => exact hdone (hi.jump name)
  | finish force => exact hdone (hi.finish force)
  | nextContent =>
    exact .bind (Play.upholds_nextContent hi.toBearing fun limit => hi.stepping.failLimit limit) fun _ => .pure _
  | _ => cases hsession

end Indifferent
end Parley
