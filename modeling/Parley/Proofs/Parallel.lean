import Parley.Proofs.Agreement
import Parley.Proofs.Sight
import Parley.Proofs.Placement

/-! # Runners side by side

Two runs whose runners are at the same place, under settings that may differ in how lines are followed up or in how far
a call may go, go through the same steps. `InStep host R` is what finding out what comes next needs of `R` beyond
`Congruent`, and `Roving host R` what doing it needs, displaying a line and asking to wait left out. `Parallel` and
`Unbound` are the same with one limit for both runs, which walking ahead needs too. -/

namespace Parley
variable {σ μ : Type}

/-- The runner, moved to a place. -/
def Runner.atPlace (r : Runner) (p : Place) : Runner :=
  { r with stack := p.stack, memo := p.memo, menu := p.menu, session := p.session, wait := p.wait }

/-- A stack with the innermost frame moved on. -/
def skipTop (count : Nat) : List Frame → List Frame
  | [] => []
  | f :: below => f.skip count :: below

theorem Runner.skip_eq (r : Runner) (count : Nat) :
    r.skip count = { r with stack := skipTop count r.stack } := by
  obtain ⟨config, stack, memo, menu, session, wait, busy, bus⟩ := r
  cases stack <;> rfl

/-- Where the runner is does not tell the worlds apart, and its stack and memo may be changed in both. -/
structure InStep (host : Host σ μ) (R : World σ μ → World σ μ → Prop) :
    Prop extends Congruent host R where
  place : ∀ {w w'}, R w w' → w.runner.place = w'.runner.place
  roaming : ∀ {w w'}, R w w' → ∀ stack memo, R (w.withRunner { w.runner with stack, memo })
    (w'.withRunner { w'.runner with stack, memo })

/-- Nor does how far the runner may go. -/
structure Parallel (host : Host σ μ) (R : World σ μ → World σ μ → Prop) :
    Prop extends InStep host R where
  limit : ∀ {w w'}, R w w' → w.runnerConfig.maxSteps = w'.runnerConfig.maxSteps

/-- Jumps and notices are made in both, and all moves of the runner but one that asks to wait. -/
structure Roving (host : Host σ μ) (R : World σ μ → World σ μ → Prop) :
    Prop extends InStep host R where
  nodes : ∀ {w w'}, R w w' → w.nodes = w'.nodes
  moved : ∀ {w w'}, R w w' → ∀ p : Place, p.wait = w.runner.wait ∨ p.wait = none →
    R (w.withRunner (w.runner.atPlace p)) (w'.withRunner (w'.runner.atPlace p))
  publishing : ∀ {w w'}, R w w' → ∀ n : Notice, (∀ l text, n ≠ .displayed l text) →
    R (w.noting (.published w.seat n)) (w'.noting (.published w'.seat n))

structure Unbound (host : Host σ μ) (R : World σ μ → World σ μ → Prop) : Prop extends Parallel host R, Roving host R

namespace Play
variable {host : Host σ μ} {R : World σ μ → World σ μ → Prop}

theorem keeps_getNode (hR : Congruent host R) (hnodes : ∀ {w w'}, R w w' → w.nodes = w'.nodes)
    (name : String) :
    Keeps R (getNode name : Play σ μ Node) := by
  refine .get (fun w w' h => by rw [hnodes h]) fun w => ?_
  split
  · exact .pure _
  · exact keeps_failOn hR _ _

section
variable (hR : InStep host R)
include hR

theorem keeps_runner {α : Type} {f : Runner → Play σ μ α}
    (hf : ∀ r r' : Runner, r.place = r'.place → f r = f r') (hk : ∀ r, Keeps R (f r)) :
    Keeps R (runner >>= f) :=
  .get (fun _ _ h => hf _ _ (hR.place h)) fun w => hk w.runner

theorem keeps_roam {f : Runner → Runner} (stack : Place → List Frame) (memo : Place → Memo)
    (hf : ∀ r, f r = { r with stack := stack r.place, memo := memo r.place }) :
    Keeps R (modifyRunner f : Play σ μ Unit) :=
  .modify fun w w' h => by
    show R (w.withRunner (f w.runner)) (w'.withRunner (f w'.runner))
    rw [hf, hf, ← hR.place h]
    exact hR.roaming h _ _

theorem keeps_skip (count : Nat) : Keeps R (modifyRunner fun r => r.skip count : Play σ μ Unit) :=
  keeps_roam hR (fun p => skipTop count p.stack) Place.memo fun r => r.skip_eq count

theorem keeps_popFrame : Keeps R (popFrame : Play σ μ Unit) := by
  refine keeps_runner hR (fun r r' h => by rw [show r.stack = r'.stack from congrArg Place.stack h]) fun r => ?_
  split
  · exact .throw _
  · next f below _ => exact keeps_roam hR (fun _ => below) (fun p => (f.key?.map p.memo.forget).getD p.memo) fun _ => rfl

theorem keeps_failLimit {α : Type} (limit : Nat) : Keeps R (failLimit limit : Play σ μ α) := by
  refine keeps_runner hR (fun r r' h => ?_) fun r => (keeps_ofExcept _).bind fun _ => keeps_failOn hR.toCongruent _ _
  rw [Runner.currentNode, Runner.currentNode, show r.stack = r'.stack from congrArg Place.stack h]

theorem keeps_frameItems (f : Frame) : Keeps R (frameItems host f) := by
  unfold frameItems
  split
  · exact .pure _
  · exact .pure _
  · next c _ =>
    refine keeps_runner hR (fun r r' h => by rw [show r.memo = r'.memo from congrArg Place.memo h]) fun r => ?_
    split
    · exact .pure _
    · refine (keeps_selectBranch hR.toCongruent c).bind fun b => ?_
      exact (keeps_roam hR Place.stack (fun p => p.memo.record c.key b) fun _ => rfl).bind fun _ => .pure _

theorem keeps_seen (f : Frame) (isLast : Bool) (items : Option (List Content)) :
    Keeps R (seen host f isLast items) := by
  unfold seen
  split
  · exact .pure _
  · exact .pure _
  · exact (keeps_collectChoices hR.toCongruent _).bind fun _ => .pure _
  · exact .pure _
  · exact .pure _

theorem keeps_sight : Keeps R (sight host) := by
  refine keeps_runner hR (fun r r' h => by rw [show r.stack = r'.stack from congrArg Place.stack h]) fun r => ?_
  split
  · exact .pure _
  · next f below _ =>
    refine (keeps_frameItems hR f).bind fun items => ?_
    exact keeps_runner hR (fun r r' h => by rw [show r.stack = r'.stack from congrArg Place.stack h]) fun r =>
      keeps_seen hR f _ items

theorem keeps_frameItemsIn (memo : Memo) (f : Frame) : Keeps R (frameItemsIn host memo f) := by
  unfold frameItemsIn
  split
  · exact .pure _
  · exact .pure _
  · split
    · exact .pure _
    · exact (keeps_selectBranch hR.toCongruent _).bind fun _ => .pure _

end

section
variable (hR : Parallel host R)
include hR

theorem keeps_scanFrom (fuel steps : Nat) (stack : List Frame) (memo : Memo) :
    Keeps R (scanFrom host fuel steps stack memo) := by
  induction fuel generalizing steps stack memo with
  | zero => exact .throw _
  | succ fuel ih =>
    cases stack with
    | nil => exact .pure _
    | cons f below =>
      refine .get (fun w w' h => by simp only [hR.limit h]) fun w => .ite (keeps_failLimit hR.toInStep _) ?_
      refine (keeps_frameItemsIn hR.toInStep memo f).bind fun r => ?_
      dsimp only
      split
      · exact .ite (.pure _) (ih _ _ _)
      · exact ih _ _ _
      · exact (keeps_collectChoices hR.toCongruent _).bind fun r => .ite (ih _ _ _) (.pure _)
      · exact .pure _
      · exact .pure _

theorem keeps_scan : Keeps R (scan host) := by
  refine .get (fun w w' h => by simp only [hR.limit h]) fun w =>
    keeps_runner hR.toInStep (fun r r' h => ?_) fun r => keeps_scanFrom hR _ _ _ _
  rw [show r.stack = r'.stack from congrArg Place.stack h, show r.memo = r'.memo from congrArg Place.memo h]

end

section
variable (hR : Roving host R)
include hR

theorem keeps_move {f : Runner → Runner} (g : Place → Place) (hf : ∀ r, f r = r.atPlace (g r.place))
    (hg : ∀ p, (g p).wait = p.wait ∨ (g p).wait = none) : Keeps R (modifyRunner f : Play σ μ Unit) :=
  .modify fun w w' h => by
    show R (w.withRunner (f w.runner)) (w'.withRunner (f w'.runner))
    rw [hf, hf, ← hR.place h]
    exact hR.moved h _ (hg _)

theorem keeps_notice (n : Notice) (hn : ∀ l text, n ≠ .displayed l text) : Keeps R (publish host n) :=
  keeps_publish hR.toCongruent n fun h => hR.publishing h n hn

theorem keeps_complete : Keeps R (complete host) := by
  refine keeps_runner hR.toInStep (fun r r' h => by rw [show r.session = r'.session from congrArg Place.session h]) fun r => ?_
  refine (keeps_move hR (fun _ => ⟨[], [], [], none, none⟩) (fun _ => rfl) fun _ => .inr rfl).bind fun _ => ?_
  exact (keeps_log hR.toCongruent _ _ _).bind fun _ => (keeps_notice hR _ (by simp)).bind fun _ => .pure _

theorem keeps_enterNode (n : Node) : Keeps R (enterNode host n) := by
  refine (keeps_move hR (fun p => { p with stack := [⟨.node n, 0⟩], memo := [], menu := [] }) (fun _ => rfl)
    fun _ => .inl rfl).bind fun _ => ?_
  exact (keeps_log hR.toCongruent _ _ _).bind fun _ => (keeps_notice hR _ (by simp)).bind fun _ => .pure _

theorem keeps_openMenu (choices : List Choice) : Keeps R (openMenu host choices) := by
  refine (keeps_move hR (fun p => { p with menu := choices }) (fun _ => rfl) fun _ => .inl rfl).bind fun _ => ?_
  exact (keeps_renderAll hR.toCongruent choices).bind fun _ => (keeps_notice hR _ (by simp)).bind fun _ => .pure _

/-- A wait makes a move of its own. -/
theorem keeps_wait
    (hfree : ∀ {w w'}, R w w' → ∀ p : Place, R (w.withRunner (w.runner.atPlace p)) (w'.withRunner (w'.runner.atPlace p)))
    (e : Expr) (pos : Pos) : Keeps R (carryOut host (.command (.wait e) pos)) := by
  refine (keeps_waitDuration hR.toCongruent e pos.line).bind fun duration => ?_
  have hwait : Keeps R (modifyRunner fun r => { r.skip 1 with wait := some duration } : Play σ μ Unit) := by
    refine .modify fun w w' h => ?_
    have hplace (r : Runner) : { r.skip 1 with wait := some duration } =
        r.atPlace { r.place with stack := skipTop 1 r.stack, wait := some duration } := by rw [r.skip_eq]; rfl
    show R (w.withRunner { w.runner.skip 1 with wait := some duration })
      (w'.withRunner { w'.runner.skip 1 with wait := some duration })
    rw [hplace, hplace, ← hR.place h, show w'.runner.stack = w.runner.stack from congrArg Place.stack (hR.place h).symm]
    exact hfree h _
  exact hwait.bind fun _ => (keeps_notice hR _ (by simp)).bind fun _ => .pure _

theorem keeps_carryOut {s : Sight} (hline : ∀ l, s ≠ .line l)
    (hwait : ∀ e pos, s ≠ .command (.wait e) pos) :
    Keeps R (carryOut host s) := by
  have hskip := keeps_skip hR.toInStep
  cases s with
  | finish => exact (keeps_complete hR).bind fun _ => .pure _
  | leave => exact (keeps_popFrame hR.toInStep).bind fun _ => .pure _
  | enter c =>
    have hpush : Keeps R (modifyRunner fun r => (r.skip 1).push (.condition c) : Play σ μ Unit) :=
      keeps_roam hR.toInStep (fun p => ⟨.condition c, 0⟩ :: skipTop 1 p.stack) Place.memo fun r => by
        rw [r.skip_eq]; rfl
    exact hpush.bind fun _ => .pure _
  | passBy c run => exact (hskip run).bind fun _ => (keeps_log hR.toCongruent _ _ _).bind fun _ => .pure _
  | menu live run => exact (hskip run).bind fun _ => (keeps_openMenu hR live).bind fun _ => .pure _
  | line l => exact absurd rfl (hline l)
  | command c pos =>
    have hobey : Keeps R (obey host c pos.line) := by
      refine (keeps_execute hR.toCongruent c pos.line).bind fun target => ?_
      split
      · exact (keeps_getNode hR.toCongruent hR.nodes _).bind fun n => (keeps_enterNode hR n).bind fun _ => .pure _
      · exact (hskip 1).bind fun _ => .pure _
    cases c with
    | wait e => exact absurd rfl (hwait e pos)
    | assign | call | jump => exact hobey

end
end Play
end Parley
