import Parley.Proofs.AllCalls
import Parley.Proofs.HostOrder
import Parley.Proofs.Refusals

/-! # Who is busy

A call that makes its runner busy is admitted only while that is not so already, and makes it idle again however the step
ends. So every call leaves each runner as busy as it was, and so does host code with the calls that it makes from within a
step: those on the busy runner are turned away, or end its session without touching the flag. -/

namespace Parley
variable {σ μ α β : Type}

namespace World

/-- The runners are at their seats as in `w₀`, with the same one in front, and each is as busy as there. -/
structure AsBusy (w₀ w : World σ μ) : Prop where
  seat : w.seat = w₀.seat
  flags : ∀ t, (w.at? t).map Runner.busy = (w₀.at? t).map Runner.busy

namespace AsBusy
variable {w₀ w v : World σ μ}

theorem refl (w : World σ μ) : w.AsBusy w := ⟨rfl, fun _ => rfl⟩

theorem trans (h : w₀.AsBusy w) (h' : w.AsBusy v) : w₀.AsBusy v :=
  ⟨h'.seat.trans h.seat, fun t => (h'.flags t).trans (h.flags t)⟩

theorem front (h : w₀.AsBusy w) : w.runner.busy = w₀.runner.busy := by
  have hflag := h.flags w.seat
  rw [at?_seat, h.seat, at?_seat] at hflag
  exact Option.some.inj hflag

/-- What leaves all runners alone. -/
theorem same (h : w₀.AsBusy w) (hseat : v.seat = w.seat) (hat : ∀ t, v.at? t = w.at? t) : w₀.AsBusy v :=
  ⟨hseat.trans h.seat, fun t => by rw [hat, h.flags]⟩

theorem withRunner (h : w₀.AsBusy w) {r : Runner} (hr : r.busy = w.runner.busy) : w₀.AsBusy (w.withRunner r) := by
  refine ⟨h.seat, fun t => ?_⟩
  rw [at?_withRunner]
  split
  · next ht => rw [← h.flags, ht, at?_seat, Option.map_some, Option.map_some, hr]
  · exact h.flags t

theorem configured (h : w₀.AsBusy w) (c : Config) : w₀.AsBusy (w.setRunnerConfig c) := by
  unfold setRunnerConfig
  split
  · exact h.withRunner rfl
  · exact h.same rfl fun _ => rfl

theorem turnTo_back {seat : Nat} (h : (w.turnTo seat).AsBusy v) : w.AsBusy (v.turnTo w.seat) := by
  have hflags (t : Nat) : (v.at? t).map Runner.busy = (w.at? t).map Runner.busy := by rw [h.flags, at?_turnTo]
  refine ⟨seat_turnTo ?_, fun t => by rw [at?_turnTo, hflags]⟩
  have hfront := congrArg Option.isSome (hflags w.seat)
  rw [at?_seat] at hfront
  simpa using hfront

/-- A runner that becomes busy, and idle again. -/
theorem release (hidle : w.runner.busy = false) (h : (w.withRunner { w.runner with busy := true }).AsBusy v) :
    w.AsBusy (v.withRunner { v.runner with busy := false }) := by
  refine ⟨h.seat, fun t => ?_⟩
  rw [at?_withRunner]
  split
  · next ht =>
    have hfront : t = w.seat := ht.trans h.seat
    rw [hfront, at?_seat, Option.map_some, Option.map_some, hidle]
  · next ht =>
    have hother : t ≠ w.seat := fun heq => ht (heq.trans h.seat.symm)
    rw [h.flags, at?_withRunner, if_neg hother]

end AsBusy
end World

/-- Leaves every runner as busy as it was. -/
def Releases (x : Play σ μ α) : Prop := ∀ w₀ : World σ μ, Upholds w₀.AsBusy (fun _ => True) x

/-- The same, as long as the runner in front is idle. -/
def ReleasesIdle (x : Play σ μ α) : Prop :=
  ∀ w : World σ μ, w.runner.busy = false → wp x (fun _ => w.AsBusy) (fun _ => w.AsBusy) w

structure Host.Releases (host : Host σ μ) : Prop where
  read : ∀ h, Parley.Releases (host.read h)
  write : ∀ h v, Parley.Releases (host.write h v)
  call : ∀ h args, Parley.Releases (host.call h args)
  callRaw : ∀ h args, Parley.Releases (host.callRaw h args)
  handle : ∀ seat h n, Parley.Releases (host.handle seat h n)

theorem Releases.wp {x : Play σ μ α} (hx : Releases x) (w : World σ μ) :
    wp x (fun _ => w.AsBusy) (fun _ => w.AsBusy) w :=
  wp_mono (hx w (.refl w)) (fun _ _ h => h) fun _ _ h => h.1

theorem Releases.of_wp {x : Play σ μ α} (hx : ∀ w, Parley.wp x (fun _ => w.AsBusy) (fun _ => w.AsBusy) w) :
    Releases x :=
  fun _ w hw => wp_mono (hx w) (fun _ _ h => hw.trans h) fun _ _ h => ⟨hw.trans h, trivial⟩

theorem ReleasesIdle.bind {x : Play σ μ α} {f : α → Play σ μ β} (hx : Releases x) (hf : ∀ a, ReleasesIdle (f a)) :
    ReleasesIdle (x >>= f) := by
  intro w hidle
  rw [wp_bind]
  refine wp_mono (hx.wp w) (fun a v hv => ?_) fun _ _ h => h
  exact wp_mono (hf a v (hv.front.trans hidle)) (fun _ _ h => hv.trans h) fun _ _ h => hv.trans h

/-- A step makes its runner busy for as long as it lasts. -/
theorem ReleasesIdle.busyStep {x : Play σ μ Unit} (hx : Releases x) : ReleasesIdle (Play.busyStep x) := fun w hidle =>
  wp_ensuring.2 (wp_mono (hx.wp (w.withRunner { w.runner with busy := true }))
    (fun _ _ h => h.release hidle) fun _ _ h => h.release hidle)

section
variable {host : Host σ μ} (hh : host.Releases)
include hh

theorem Host.Releases.delivering (w₀ : World σ μ) : Delivering host w₀.AsBusy fun _ => True where
  exhausted := trivial
  noting h _ _ := h.same rfl fun _ => rfl
  handled h _ _ := h.same rfl fun _ => rfl
  withBus h _ := h.withRunner rfl
  handle seat h n := hh.handle seat h n w₀

theorem Host.Releases.stepping (w₀ : World σ μ) : Stepping host w₀.AsBusy where
  own _ _ := trivial
  noting h _ _ := h.same rfl fun _ => rfl
  withVars h _ := h.same rfl fun _ => rfl
  read h := hh.read h w₀
  write h v := hh.write h v w₀
  call h args := hh.call h args w₀
  callRaw h args := hh.callRaw h args w₀
  withFunctions h _ := h.same rfl fun _ => rfl
  configured h c := h.configured c
  putNode h _ _ := h.same rfl fun _ => rfl
  noNodes h := h.same rfl fun _ => rfl
  moved h _ _ hr := h.withRunner hr
  numbered h _ := h.same rfl fun _ => rfl
  publish _ := Play.upholds_publish (hh.delivering w₀) fun h => h.same rfl fun _ => rfl

namespace Play

theorem releases_startAt (n : Node) (name : String) (index : Nat) : ReleasesIdle (startAt host n name index) :=
  .bind (fun w₀ => (hh.stepping w₀).modifyRunner fun _ => ⟨rfl, rfl⟩) fun _ =>
    .busyStep fun w₀ => (hh.stepping w₀).begin n name index

/-- A call that is admitted. -/
theorem releases_admitted {w : World σ μ} {op : Operation} {x : Play σ μ Unit} (h : Admitted host w op x) :
    wp x (fun _ => w.AsBusy) (fun _ => w.AsBusy) w := by
  have hlog (message : String) : Releases (log .debug .runner message : Play σ μ Unit) := fun w₀ =>
    (hh.stepping w₀).log ..
  rcases h with ⟨hidle, -, -, -⟩ | ⟨⟨hidle, -⟩, -, -⟩ | ⟨⟨hidle, -⟩, -⟩ | ⟨hidle, -⟩ | ⟨⟨hidle, -⟩, -⟩ | - | -
  · exact releases_startAt hh _ _ _ w hidle
  · exact ReleasesIdle.bind (hlog _) (fun _ => releases_startAt hh _ _ _) w hidle
  · exact ReleasesIdle.busyStep (fun w₀ => (hh.stepping w₀).advance) w hidle
  · exact ReleasesIdle.busyStep (fun w₀ => (hh.stepping w₀).follow _ _) w hidle
  · exact ReleasesIdle.busyStep (fun w₀ => .bind ((hh.stepping w₀).enterNode _) fun _ => (hh.stepping w₀).advance) w hidle
  · exact Releases.wp (fun w₀ => (hh.stepping w₀).complete) w
  · exact (hlog _).wp w

theorem releases_drive {op : Operation} (hop : op.drives) : Releases (perform host op) := by
  refine .of_wp fun w => ?_
  rcases refused_or_admitted host w hop with ⟨f, hf⟩ | ⟨x, hx⟩
  · exact (wp_error (perform_refused hf)).2 ((World.AsBusy.refl w).same rfl fun _ => rfl)
  · have hdone : wp (do x; return Answer.done) (fun _ => w.AsBusy) (fun _ => w.AsBusy) w :=
      (wp_bind _ _).2 (releases_admitted hh hx)
    unfold wp at hdone ⊢
    rwa [perform_admitted hx]

/-- Every call leaves every runner as busy as it was. -/
theorem releases_perform (op : Operation) : Releases (perform host op) := by
  by_cases hop : op.drives
  · exact releases_drive hh hop
  · intro w₀
    have hk := hh.stepping w₀
    have hdone {x : Play σ μ Unit} (hx : Upholds w₀.AsBusy (fun _ => True) x) :
        Upholds w₀.AsBusy (fun _ => True) (do x; return Answer.done) :=
      hx.bind fun _ => .pure _
    refine upholds_perform_of hk.toHousekeeping op.brings_true fun hother => ?_
    cases op with
    | nextContent => exact .bind (upholds_nextContent hk.toBearing fun limit => hk.failLimit limit) fun _ => .pure _
    | subscribe | unsubscribe | clearBus => exact hdone (upholds_modifyBus (hh.delivering w₀).withBus _)
    | consume => exact hdone (upholds_modifyDispatch (hh.delivering w₀).withBus _)
    | publish kind data => exact (hk.publish _).bind fun _ => .pure _
    | start | resume | select | jump | finish => exact absurd rfl hop
    | _ => exact absurd hother (by rintro (h | h) <;> cases h)

end Play

/-- And so does host code, with all the calls that it makes. -/
theorem Code.releases (c : Code σ μ α) : Releases (c.run fun op => Play.perform host op) := by
  induction c with
  | pure a => exact fun _ => .pure a
  | fail f => exact fun _ => .throw trivial
  | look next ih => exact fun w₀ => .get fun w => ih w w₀
  | keep k next ih => exact fun w₀ => .bind (.modify fun _ hw => hw.same rfl fun _ => rfl) fun _ => ih w₀
  | mark m next ih => exact fun w₀ => .bind (.modify fun _ hw => hw.same rfl fun _ => rfl) fun _ => ih w₀
  | ask seat op next ih =>
    refine .of_wp fun w => ?_
    have hask : wp (Play.onSeat seat (Play.perform host op)) (fun _ => w.AsBusy) (fun _ => w.AsBusy) w :=
      wp_onSeat.2 (wp_mono ((Play.releases_perform hh op).wp _) (fun _ _ h => h.turnTo_back) fun _ _ h => h.turnTo_back)
    refine Code.wp_run_ask.2 (wp_mono hask (fun a v hv => ?_) fun f v hv => ?_)
    · exact wp_mono ((ih _).wp v) (fun _ _ h => hv.trans h) fun _ _ h => hv.trans h
    · exact wp_mono ((ih _).wp v) (fun _ _ h => hv.trans h) fun _ _ h => hv.trans h

end

theorem Behaviour.releases (b : Behaviour σ μ) (patience depth : Nat) : (Host.ofBehaviour b patience depth).Releases := by
  induction depth with
  | zero =>
    have hfail {α : Type} : Releases (throw .exhausted : Play σ μ α) := fun _ => .throw trivial
    exact ⟨fun _ => hfail, fun _ _ => hfail, fun _ _ => hfail, fun _ _ => hfail, fun _ _ _ => hfail⟩
  | succ depth ih =>
    exact ⟨fun h => (b.read h).releases ih, fun h v => (b.write h v).releases ih, fun h args => (b.call h args).releases ih,
      fun h args => (b.callRaw h args).releases ih, fun seat h n => (b.handle seat h n).releases ih⟩

/-- A call that is refused changes nothing but the log, any other goes on to what it is for; and however a call ends that
found the runner idle, it leaves it idle. -/
theorem perform_checked (b : Behaviour σ μ) (patience depth : Nat) (op : Operation) (w : World σ μ) :
    (∀ f, Refused w op f → Play.perform (Host.ofBehaviour b patience depth) op w = .error f (w.refusing f)) ∧
      (op.drives → (∀ f, ¬Refused w op f) → ∃ x, Admitted (Host.ofBehaviour b patience depth) w op x ∧
        Play.perform (Host.ofBehaviour b patience depth) op w = (do x; return Answer.done : Play σ μ Answer) w) ∧
      (w.runner.busy = false → (after (Play.perform (Host.ofBehaviour b patience depth) op) w).runner.busy = false) := by
  refine ⟨fun f hf => Play.perform_refused hf, fun hop hnot => ?_, fun hidle => ?_⟩
  · rcases Play.refused_or_admitted (Host.ofBehaviour b patience depth) w hop with ⟨f, hf⟩ | ⟨x, hx⟩
    · exact absurd hf (hnot f)
    · exact ⟨x, hx, Play.perform_admitted hx⟩
  · have hkept := (Play.releases_perform (b.releases patience depth) op).wp w
    exact (wp_after hkept).front.trans hidle

/-- A host whose handlers ask to go on in the middle of a step. -/
def Behaviour.insistent : Behaviour σ μ :=
  { Behaviour.silent with handle := fun seat _ _ => .ask seat .resume fun _ => .pure () }

/-- Two lines, the first of which has been shown. -/
def twoLines : String := ":: start\nA: one\nA: two\n"

theorem perform_checked_insistent :
    ∃ (host : Host Unit Unit) (w : World Unit Unit),
      host = Host.ofBehaviour Behaviour.insistent 0 1 ∧ Reachable host w ∧ w.runner.busy = false ∧
      Play.perform host (.start none 2 true) w =
        .error (.session (.contentRange 2 "start" 2)) (w.refusing (.session (.contentRange 2 "start" 2))) ∧
      (∃ x, Admitted host w .resume x ∧
        Play.perform host .resume w = (do x; return Answer.done : Play Unit Unit Answer) w) ∧
      (after (Play.perform host .resume) w).runner.busy = false := by
  let host : Host Unit Unit := Host.ofBehaviour Behaviour.insistent 0 1
  obtain ⟨w, hw, hidle, hlive, hmenu, hname, hnode⟩ : ∃ w : World Unit Unit, Reachable host w ∧
      w.runner.busy = false ∧ w.runner.session.isSome ∧ w.runner.menu.isEmpty ∧ w.startName none = "start" ∧
      (w.nodes.get? "start").map (fun n => n.content.length) = some 2 :=
    ⟨after (Play.perform host (.start none 0 false)) (after (Play.perform host (.subscribe .contentDisplayed
      ⟨0, 0, false, false⟩)) (after (Play.perform host (.register twoLines)) { host := () })),
      (((Reachable.opened (.alone _ ())).called _).called _).called _, by decide +kernel, by decide +kernel,
      by decide +kernel, by decide +kernel, by decide +kernel⟩
  obtain ⟨n, hn, hlength⟩ := Option.map_eq_some_iff.1 hnode
  have hbeyond : Refused w (.start none 2 true) (.session (.contentRange 2 "start" 2)) := by
    rw [← hname] at hn ⊢
    have hrefused : Refused w (.start none 2 true) (.session (.contentRange 2 (w.startName none) n.content.length)) :=
      .startBeyond ⟨hidle, fun _ => rfl⟩ hn (.inr (by omega))
    rwa [hlength] at hrefused
  have hallowed (f : Fault) : ¬Refused w .resume f := by
    intro hf
    cases hf with
    | resumeBusy hbusy => exact absurd hidle (by simp [hbusy])
    | resumeIdle _ hnone => exact absurd hlive (by simp [hnone])
    | resumeMenu _ hopen => exact hopen (List.isEmpty_iff.1 hmenu)
  obtain ⟨hrefused, -, -⟩ := perform_checked Behaviour.insistent 0 1 (.start none 2 true) w
  obtain ⟨-, hadmitted, hrests⟩ := perform_checked Behaviour.insistent 0 1 .resume w
  exact ⟨host, w, rfl, hw, hidle, hrefused _ hbeyond, hadmitted rfl hallowed, hrests hidle⟩

end Parley
