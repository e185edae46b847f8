import Parley.Host.Operation
import Parley.Proofs.Calls

/-! # Calls that are turned away

The calls that drive a dialogue check the state of the runner before they do anything. `Refused w op f`: in `w`, the call
`op` is turned away with the fault `f`; all that this leaves behind is a line in the log. `Admitted host w op x`: it goes
on as `x`. A call is either refused or admitted. -/

namespace Parley
variable {σ μ : Type}

/-- Begins, continues, moves or ends a dialogue. -/
def Operation.drives : Operation → Bool
  | .start .. | .resume | .select _ | .jump _ | .finish _ => true
  | _ => false

/-- The channel that a call is turned away on. -/
def Fault.refusalChannel : Fault → LogChannel
  | .session _ => .runner
  | _ => .context

/-- The world after a call has been turned away. -/
def World.refusing (w : World σ μ) (f : Fault) : World σ μ :=
  w.noting (.logged ⟨.error, f.refusalChannel, f.message⟩)

/-- The node that a start is for. -/
def World.startName (w : World σ μ) (name : Option String) : String := Play.startName name w.runnerConfig.startNode

/-- No session is running, or it may be replaced. -/
def Runner.Startable (r : Runner) (force : Bool) : Prop := r.busy = false ∧ (r.session.isSome → force = true)

/-- A session is running, and no step of it. -/
def Runner.InSession (r : Runner) : Prop := r.busy = false ∧ r.session.isSome

theorem Runner.situation (r : Runner) : r.busy = true ∨ (r.busy = false ∧ r.session = none) ∨ r.InSession := by
  cases hidle : r.busy with
  | true => exact .inl rfl
  | false =>
    cases hs : r.session with
    | none => exact .inr (.inl ⟨rfl, rfl⟩)
    | some id => exact .inr (.inr ⟨hidle, by rw [hs]; rfl⟩)

inductive Refused (w : World σ μ) : Operation → Fault → Prop
  | startBusy {name index force} (hbusy : w.runner.busy = true) :
    Refused w (.start name index force) (.session (.busy "start"))
  | startRunning {name index} (hidle : w.runner.busy = false) (hlive : w.runner.session.isSome) :
    Refused w (.start name index false) (.session .running)
  | startNowhere {name index force} (hfree : w.runner.Startable force)
    (hnone : w.nodes.get? (w.startName name) = none) :
    Refused w (.start name index force) (.undefinedNode (w.startName name))
  | startBeyond {name force} {n : Node} {index : Int} (hfree : w.runner.Startable force)
    (hn : w.nodes.get? (w.startName name) = some n)
    (hindex : index < 0 ∨ n.content.length ≤ index) :
    Refused w (.start name index force)
      (.session (.contentRange index (w.startName name) n.content.length))
  | resumeBusy (hbusy : w.runner.busy = true) : Refused w .resume (.session (.busy "continue"))
  | resumeIdle (hidle : w.runner.busy = false) (hnone : w.runner.session = none) :
    Refused w .resume (.session .notRunning)
  | resumeMenu (hlive : w.runner.InSession) (hmenu : w.runner.menu ≠ []) : Refused w .resume (.session .menuOpen)
  | selectBusy {index} (hbusy : w.runner.busy = true) :
    Refused w (.select index) (.session (.busy "select a choice"))
  | selectNone {index} (hidle : w.runner.busy = false) (hmenu : w.runner.menu = []) :
    Refused w (.select index) (.session .noMenu)
  | selectBeyond {index : Int} (hidle : w.runner.busy = false) (hmenu : w.runner.menu ≠ [])
    (hindex : index < 0 ∨ w.runner.menu.length ≤ index) :
    Refused w (.select index) (.session (.choiceRange index w.runner.menu.length))
  | jumpBusy {name} (hbusy : w.runner.busy = true) : Refused w (.jump name) (.session (.busy "jump"))
  | jumpIdle {name} (hidle : w.runner.busy = false) (hnone : w.runner.session = none) :
    Refused w (.jump name) (.session .notRunning)
  | jumpNowhere {name} (hlive : w.runner.InSession) (hnone : w.nodes.get? name = none) :
    Refused w (.jump name) (.undefinedNode name)
  | finishBusy (hbusy : w.runner.busy = true) : Refused w (.finish false) (.session .endWhileBusy)

open Play in
inductive Admitted (host : Host σ μ) (w : World σ μ) : Operation → Play σ μ Unit → Prop
  | start {name force} {n : Node} {index : Nat} (hidle : w.runner.busy = false) (hnone : w.runner.session = none)
    (hn : w.nodes.get? (w.startName name) = some n) (hindex : index < n.content.length) :
    Admitted host w (.start name index force) (startAt host n (w.startName name) index)
  | restart {name} {n : Node} {index : Nat} (hlive : w.runner.InSession)
    (hn : w.nodes.get? (w.startName name) = some n) (hindex : index < n.content.length) :
    Admitted host w (.start name index true) (do
      log .debug .runner s!"Discarding session {sessionName w.runner.session} for a forced start"
      startAt host n (w.startName name) index)
  | resume (hlive : w.runner.InSession) (hmenu : w.runner.menu = []) :
    Admitted host w .resume (busyStep (advance host))
  | select {choice : Choice} {i : Nat} (hidle : w.runner.busy = false) (hpick : w.runner.menu[i]? = some choice) :
    Admitted host w (.select i) (busyStep (follow host choice i))
  | jump {name} {n : Node} (hlive : w.runner.InSession) (hn : w.nodes.get? name = some n) :
    Admitted host w (.jump name) (busyStep (do enterNode host n; advance host))
  | finish {force} (hfree : w.runner.busy = true → force = true) (hlive : w.runner.session.isSome) :
    Admitted host w (.finish force) (complete host)
  | rest {force} (hfree : w.runner.busy = true → force = true) (hnone : w.runner.session = none) :
    Admitted host w (.finish force) (log .debug .runner "end() called with no dialogue running")

namespace Play
variable {host : Host σ μ} {w : World σ μ}

/-! ### The checks -/

theorem run_refuse {α : Type} (f : SessionFault) (w : World σ μ) :
    (refuse f : Play σ μ α) w = .error (.session f) (w.refusing (.session f)) := rfl

theorem requireIdleStep_busy (hbusy : w.runner.busy = true) (action : String) :
    (requireIdleStep action : Play σ μ Unit) w = .error (.session (.busy action)) (w.refusing (.session (.busy action))) := by
  rw [requireIdleStep, run_bind_ok (show runner w = .ok w.runner w from rfl), if_pos hbusy, run_refuse]

theorem requireRunning_none (hnone : w.runner.session = none) :
    (requireRunning : Play σ μ Unit) w = .error (.session .notRunning) (w.refusing (.session .notRunning)) := by
  rw [requireRunning, run_bind_ok (show runner w = .ok w.runner w from rfl), if_pos (by rw [hnone]; rfl), run_refuse]

theorem getNode_eq {name : String} {n : Node} (hn : w.nodes.get? name = some n) :
    (getNode name : Play σ μ Node) w = .ok n w := by
  rw [getNode, run_bind_ok (run_get w), hn]
  rfl

theorem getNode_none {name : String} (hnone : w.nodes.get? name = none) :
    (getNode name : Play σ μ Node) w = .error (.undefinedNode name) (w.refusing (.undefinedNode name)) := by
  rw [getNode, run_bind_ok (run_get w), hnone]
  rfl

/-! ### The calls after their first checks -/

theorem start_running (hidle : w.runner.busy = false) (hlive : w.runner.session.isSome) (name : Option String)
    (index : Int) : start host name index false w = .error (.session .running) (w.refusing (.session .running)) := by
  rw [start, run_bind_ok (requireIdleStep_eq hidle _), run_bind_ok (show runner w = .ok w.runner w from rfl)]
  dsimp only
  rw [if_pos ⟨hlive, rfl⟩, run_bind_error (run_refuse _ w)]

/-- A start that may be, up to where it is to begin. -/
theorem start_free {force : Bool} (hfree : w.runner.Startable force) (name : Option String) (index : Int) :
    start host name index force w = (do
      let n ← getNode (w.startName name)
      if index < 0 ∨ n.content.length ≤ index then
        refuse (.contentRange index (w.startName name) n.content.length)
      if w.runner.session.isSome then
        log .debug .runner s!"Discarding session {sessionName w.runner.session} for a forced start"
      startAt host n (w.startName name) index.toNat : Play σ μ Unit) w := by
  obtain ⟨hidle, hforce⟩ := hfree
  rw [start, run_bind_ok (requireIdleStep_eq hidle _), run_bind_ok (show runner w = .ok w.runner w from rfl)]
  dsimp only
  rw [if_neg (by simpa using hforce), run_bind_ok (show runnerConfig w = .ok w.runnerConfig w from rfl)]
  rfl

theorem resume_live (hlive : w.runner.InSession) :
    resume host w = (do
      if !w.runner.menu.isEmpty then refuse .menuOpen
      busyStep (advance host) : Play σ μ Unit) w := by
  rw [resume, run_bind_ok (requireIdleStep_eq hlive.1 _), run_bind_ok (requireRunning_eq hlive.2),
    run_bind_ok (show runner w = .ok w.runner w from rfl)]

theorem jump_live (hlive : w.runner.InSession) (name : String) :
    jump host name w = (do
      let n ← getNode name
      busyStep do
        enterNode host n
        advance host : Play σ μ Unit) w := by
  rw [jump, run_bind_ok (requireIdleStep_eq hlive.1 _), run_bind_ok (requireRunning_eq hlive.2)]

theorem finish_free {force : Bool} (hfree : w.runner.busy = true → force = true) :
    finish host force w = (if w.runner.session.isNone then log .debug .runner "end() called with no dialogue running"
      else complete host : Play σ μ Unit) w := by
  rw [finish, run_bind_ok (show runner w = .ok w.runner w from rfl)]
  dsimp only
  rw [if_neg (by simpa using hfree)]

/-! ### Refused and admitted -/

/-- A call that is turned away changes nothing. -/
theorem perform_refused {op : Operation} {f : Fault} (h : Refused w op f) :
    perform host op w = .error f (w.refusing f) := by
  have hfail {x : Play σ μ Unit} {g : Fault} (hx : x w = .error g (w.refusing g)) :
      (do x; return Answer.done : Play σ μ Answer) w = .error g (w.refusing g) :=
    run_bind_error hx
  rcases h with hbusy | ⟨hidle, hlive⟩ | ⟨hfree, hnone⟩ | ⟨hfree, hn, hindex⟩ | hbusy | ⟨hidle, hnone⟩ | ⟨hlive, hmenu⟩ |
    hbusy | ⟨hidle, hmenu⟩ | ⟨hidle, hmenu, hindex⟩ | hbusy | ⟨hidle, hnone⟩ | ⟨hlive, hnone⟩ | hbusy <;> apply hfail
  · rw [start, run_bind_error (requireIdleStep_busy hbusy _)]
  · exact start_running hidle hlive _ _
  · rw [start_free hfree, run_bind_error (getNode_none hnone)]
  · rw [start_free hfree, run_bind_ok (getNode_eq hn), if_pos hindex, run_bind_error (run_refuse _ w)]
  · rw [resume, run_bind_error (requireIdleStep_busy hbusy _)]
  · rw [resume, run_bind_ok (requireIdleStep_eq hidle _), run_bind_error (requireRunning_none hnone)]
  · rw [resume_live hlive, if_pos (by simpa using hmenu), run_bind_error (run_refuse _ w)]
  · rw [select, run_bind_error (requireIdleStep_busy hbusy _)]
  · rw [select, run_bind_ok (requireIdleStep_eq hidle _), run_bind_ok (show runner w = .ok w.runner w from rfl)]
    dsimp only
    rw [if_pos (by simp [hmenu]), run_bind_error (run_refuse _ w)]
  · have hpick (i : Int) (hi : i < 0 ∨ w.runner.menu.length ≤ i) :
        (if i < 0 then none else w.runner.menu[i.toNat]?) = none := by
      split
      · rfl
      · exact List.getElem?_eq_none (by omega)
    rw [select_eq host hidle (by simpa using hmenu), hpick _ hindex]
    exact run_refuse _ w
  · rw [jump, run_bind_error (requireIdleStep_busy hbusy _)]
  · rw [jump, run_bind_ok (requireIdleStep_eq hidle _), run_bind_error (requireRunning_none hnone)]
  · rw [jump_live hlive, run_bind_error (getNode_none hnone)]
  · rw [finish, run_bind_ok (show runner w = .ok w.runner w from rfl)]
    dsimp only
    rw [if_pos ⟨hbusy, rfl⟩, run_bind_error (run_refuse _ w)]

theorem perform_admitted {op : Operation} {x : Play σ μ Unit} (h : Admitted host w op x) :
    perform host op w = (do x; return Answer.done : Play σ μ Answer) w := by
  have hsame {x y : Play σ μ Unit} (hxy : x w = y w) :
      (do x; return Answer.done : Play σ μ Answer) w = (do y; return Answer.done : Play σ μ Answer) w :=
    run_bind_congr hxy _
  rcases h with ⟨hidle, hnone, hn, hindex⟩ | ⟨hlive, hn, hindex⟩ | ⟨hlive, hmenu⟩ | ⟨hidle, hpick⟩ | ⟨hlive, hn⟩ |
    ⟨hfree, hlive⟩ | ⟨hfree, hnone⟩ <;> apply hsame
  · exact start_eq host hidle hnone hn hindex _
  · rw [start_free ⟨hlive.1, fun _ => rfl⟩, run_bind_ok (getNode_eq hn), if_neg (by omega), if_pos hlive.2,
      Int.toNat_natCast]
  · rw [resume_live hlive, if_neg (by simp [hmenu])]
  · have hmenu : w.runner.menu.isEmpty = false := by
      cases hm : w.runner.menu with
      | nil => rw [hm] at hpick; cases hpick
      | cons => rfl
    rw [select_eq host hidle hmenu, if_neg (by omega), Int.toNat_natCast, hpick]
  · rw [jump_live hlive, run_bind_ok (getNode_eq hn)]
  · rw [finish_free hfree, if_neg (by simp [Option.isSome_iff_ne_none.1 hlive])]
  · rw [finish_free hfree, if_pos (by rw [hnone]; rfl)]

/-- There is no third way. -/
theorem refused_or_admitted (host : Host σ μ) (w : World σ μ) {op : Operation} (hop : op.drives) :
    (∃ f, Refused w op f) ∨ ∃ x, Admitted host w op x := by
  cases op with
  | start name index force =>
    cases hidle : w.runner.busy with
    | true => exact .inl ⟨_, .startBusy hidle⟩
    | false =>
      by_cases hfree : w.runner.session.isSome → force = true
      · cases hn : w.nodes.get? (w.startName name) with
        | none => exact .inl ⟨_, .startNowhere ⟨hidle, hfree⟩ hn⟩
        | some n =>
          by_cases hindex : index < 0 ∨ n.content.length ≤ index
          · exact .inl ⟨_, .startBeyond ⟨hidle, hfree⟩ hn hindex⟩
          · obtain ⟨i, rfl⟩ := Int.eq_ofNat_of_zero_le (show 0 ≤ index by omega)
            have hi : i < n.content.length := by omega
            cases hs : w.runner.session with
            | none => exact .inr ⟨_, .start hidle hs hn hi⟩
            | some id =>
              have hlive : w.runner.InSession := ⟨hidle, by rw [hs]; rfl⟩
              obtain rfl := hfree hlive.2
              exact .inr ⟨_, .restart hlive hn hi⟩
      · obtain ⟨hlive, hforce⟩ := Classical.not_imp.1 hfree
        rw [Bool.not_eq_true] at hforce
        subst hforce
        exact .inl ⟨_, .startRunning hidle hlive⟩
  | resume =>
    rcases w.runner.situation with hbusy | ⟨hidle, hnone⟩ | hlive
    · exact .inl ⟨_, .resumeBusy hbusy⟩
    · exact .inl ⟨_, .resumeIdle hidle hnone⟩
    · by_cases hmenu : w.runner.menu = []
      · exact .inr ⟨_, .resume hlive hmenu⟩
      · exact .inl ⟨_, .resumeMenu hlive hmenu⟩
  | select index =>
    cases hidle : w.runner.busy with
    | true => exact .inl ⟨_, .selectBusy hidle⟩
    | false =>
      by_cases hmenu : w.runner.menu = []
      · exact .inl ⟨_, .selectNone hidle hmenu⟩
      · by_cases hindex : index < 0 ∨ w.runner.menu.length ≤ index
        · exact .inl ⟨_, .selectBeyond hidle hmenu hindex⟩
        · obtain ⟨i, rfl⟩ := Int.eq_ofNat_of_zero_le (show 0 ≤ index by omega)
          exact .inr ⟨_, .select hidle (List.getElem?_eq_getElem (show i < w.runner.menu.length by omega))⟩
  | jump name =>
    rcases w.runner.situation with hbusy | ⟨hidle, hnone⟩ | hlive
    · exact .inl ⟨_, .jumpBusy hbusy⟩
    · exact .inl ⟨_, .jumpIdle hidle hnone⟩
    · cases hn : w.nodes.get? name with
      | none => exact .inl ⟨_, .jumpNowhere hlive hn⟩
      | some n => exact .inr ⟨_, .jump hlive hn⟩
  | finish force =>
    by_cases hfree : w.runner.busy = true → force = true
    · cases hs : w.runner.session with
      | none => exact .inr ⟨_, .rest hfree hs⟩
      | some id => exact .inr ⟨_, .finish hfree (by rw [hs]; rfl)⟩
    · obtain ⟨hbusy, hforce⟩ := Classical.not_imp.1 hfree
      rw [Bool.not_eq_true] at hforce
      subst hforce
      exact .inl ⟨_, .finishBusy hbusy⟩
  | _ => cases hop

end Play
end Parley
