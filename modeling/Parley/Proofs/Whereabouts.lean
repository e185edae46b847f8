import Parley.Proofs.Chores
import Parley.Proofs.Order
import Parley.Proofs.Sight

/-! # Where the runners are

Evaluation runs functions and reads variables of the host, and no handlers. As long as these do not drive runners
(`Host.Modest`), whatever handlers do, nothing that a step evaluates moves a runner (`Staying`): neither the guards
of conditions and choices, also of those that lie ahead, nor commands. The handlers are taken out of the host to say
so (`Host.muted`), since evaluation is the same without them. -/

namespace Parley
variable {σ μ : Type}

namespace World

/-- The same runner in front, and all runners at the same places. -/
structure SamePlaces (w v : World σ μ) : Prop where
  seat : v.seat = w.seat
  places : ∀ s, (v.at? s).map Runner.place = (w.at? s).map Runner.place

namespace SamePlaces
variable {w v u : World σ μ}

theorem refl (w : World σ μ) : w.SamePlaces w := ⟨rfl, fun _ => rfl⟩

theorem trans (h : w.SamePlaces v) (h' : v.SamePlaces u) : w.SamePlaces u :=
  ⟨h'.seat.trans h.seat, fun s => (h'.places s).trans (h.places s)⟩

theorem place (h : w.SamePlaces v) : v.runner.place = w.runner.place := by
  have hfront := h.places w.seat
  rw [at?_seat, ← h.seat, at?_seat] at hfront
  exact Option.some.inj hfront

theorem withRunner (h : w.SamePlaces v) {r : Runner} (hr : r.place = v.runner.place) :
    w.SamePlaces (v.withRunner r) := by
  refine ⟨h.seat, fun s => ?_⟩
  rw [← h.places, at?_withRunner]
  split
  · next hs => rw [hs, at?_seat]; exact congrArg some hr
  · rfl

theorem configured (h : w.SamePlaces v) (c : Config) : w.SamePlaces (v.setRunnerConfig c) := by
  unfold setRunnerConfig
  split
  · exact h.withRunner rfl
  · exact ⟨h.seat, h.places⟩

end SamePlaces
end World

/-- Moves no runner. -/
def Staying {α : Type} (x : Play σ μ α) : Prop := ∀ w : World σ μ, Upholds w.SamePlaces (fun _ => True) x

theorem Staying.wp {α : Type} {x : Play σ μ α} (hx : Staying x) (w : World σ μ) :
    wp x (fun _ => w.SamePlaces) (fun _ => w.SamePlaces) w :=
  wp_mono (hx w (.refl w)) (fun _ _ h => h) fun _ _ h => h.1

theorem Staying.ok {α : Type} {x : Play σ μ α} (hx : Staying x) {w v : World σ μ} {a : α} (h : x w = .ok a v) :
    w.SamePlaces v :=
  (wp_ok h).1 (hx.wp w)

/-- The host's functions and variables drive no runner; its handlers may. -/
structure Host.Modest (host : Host σ μ) : Prop where
  read : ∀ h, Staying (host.read h)
  write : ∀ h v, Staying (host.write h v)
  call : ∀ h args, Staying (host.call h args)
  callRaw : ∀ h args, Staying (host.callRaw h args)

/-- The host without its handlers. -/
def Host.muted (host : Host σ μ) : Host σ μ := { host with handle := fun _ _ _ => pure () }

namespace Play
variable (host : Host σ μ)

mutual

theorem evaluate_muted : (e : Expr) → evaluate host.muted e = evaluate host e
  | .number .. | .string .. | .boolean .. | .braces .. | .foreign _ => by simp only [evaluate]
  | .reference name _ => by simp only [evaluate]; rfl
  | .unary _ e _ => by simp only [evaluate, evaluate_muted e]
  | .binary _ l r _ => by simp only [evaluate, evaluate_muted l, evaluate_muted r]
  | .call name args _ _ => by simp only [evaluate, evaluateAll_muted args]; rfl
  | .interpolated segments _ => by simp only [evaluate, strictText_muted segments]

theorem evaluateAll_muted : (es : List Expr) → evaluateAll host.muted es = evaluateAll host es
  | [] => by simp only [evaluateAll]
  | e :: rest => by simp only [evaluateAll, evaluate_muted e, evaluateAll_muted rest]

theorem strictText_muted : (segments : List Segment) → strictText host.muted segments = strictText host segments
  | [] => by simp only [strictText]
  | .literal .. :: rest => by simp only [strictText, strictText_muted rest]
  | .hole e _ :: rest => by simp only [strictText, evaluate_muted e, strictText_muted rest]
  | .stray _ :: _ => by simp only [strictText]

end

theorem test_muted (what : String) (e : Expr) : test host.muted what e = test host what e := by
  rw [test, test, evaluate_muted]

theorem selectElif_muted (i : Nat) (elifs : List Branch) : selectElif host.muted i elifs = selectElif host i elifs := by
  induction elifs generalizing i with
  | nil => rfl
  | cons branch rest ih => rw [selectElif, selectElif, test_muted, ih]

theorem selectBranch_muted (c : Condition) : selectBranch host.muted c = selectBranch host c := by
  rw [selectBranch, selectBranch, test_muted, selectElif_muted]

theorem collectChoices_muted (items : List Content) : collectChoices host.muted items = collectChoices host items := by
  induction items with
  | nil => rfl
  | cons item rest ih =>
    cases item with
    | choice c => simp only [collectChoices, test_muted, ih]
    | line | condition | command => rfl

theorem waitDuration_muted (e : Expr) (line : Int) : waitDuration host.muted e line = waitDuration host e line := by
  rw [waitDuration, waitDuration, evaluate_muted]

theorem assign_muted (name : String) (op : VarOp) (e : Expr) (line : Int) :
    assign host.muted name op e line = assign host name op e line := by
  rw [assign, assign, evaluate_muted]
  rfl

theorem execute_muted (c : Command) (line : Int) : execute host.muted c line = execute host c line := by
  cases c with
  | assign name op e => rw [execute, execute, assign_muted]
  | call function args => rw [execute, execute, evaluateAll_muted]; rfl
  | wait e => rw [execute, execute, waitDuration_muted]
  | jump => rfl

theorem frameItemsIn_muted (memo : Memo) (f : Frame) : frameItemsIn host.muted memo f = frameItemsIn host memo f := by
  simp only [frameItemsIn, selectBranch_muted]

theorem scanFrom_muted (fuel steps : Nat) (stack : List Frame) (memo : Memo) :
    scanFrom host.muted fuel steps stack memo = scanFrom host fuel steps stack memo := by
  induction fuel generalizing steps stack memo with
  | zero => rfl
  | succ fuel ih =>
    cases stack with
    | nil => rfl
    | cons f below => simp only [scanFrom, frameItemsIn_muted, collectChoices_muted, ih]

end Play

section
variable {host : Host σ μ} (hm : host.Modest)
include hm

theorem Host.Modest.upkeep (w : World σ μ) : Upkeep host.muted (fun _ => True) w.SamePlaces fun _ => True where
  own _ _ := trivial
  noting h _ _ := ⟨h.seat, h.places⟩
  custom h _ _ := ⟨h.seat, h.places⟩
  withVars h _ := ⟨h.seat, h.places⟩
  withFunctions h _ := ⟨h.seat, h.places⟩
  withBus h _ := h.withRunner rfl
  configured h c := h.configured c
  putNode h _ _ := ⟨h.seat, h.places⟩
  noNodes h := ⟨h.seat, h.places⟩
  read hd := hm.read hd w
  write hd v := hm.write hd v w
  call hd args := hm.call hd args w
  callRaw hd args := hm.callRaw hd args w
  handle _ _ _ := .pure ()

namespace Play

theorem staying_selectBranch (c : Condition) : Staying (selectBranch host c) := by
  rw [← selectBranch_muted]
  exact fun w => upholds_selectBranch (hm.upkeep w) c

theorem staying_collectChoices (items : List Content) : Staying (collectChoices host items) := by
  rw [← collectChoices_muted]
  exact fun w => upholds_collectChoices (hm.upkeep w) items

theorem staying_waitDuration (e : Expr) (line : Int) : Staying (waitDuration host e line) := by
  rw [← waitDuration_muted]
  exact fun w => upholds_waitDuration (hm.upkeep w) e line

theorem staying_execute (c : Command) (line : Int) : Staying (execute host c line) := by
  rw [← execute_muted]
  exact fun w => upholds_execute (hm.upkeep w) c line

theorem staying_frameItemsIn (memo : Memo) (f : Frame) : Staying (frameItemsIn host memo f) := by
  rw [← frameItemsIn_muted]
  exact fun w => upholds_frameItemsIn (hm.upkeep w) memo f

theorem staying_failLimit {α : Type} (limit : Nat) : Staying (failLimit limit : Play σ μ α) := fun w =>
  .runner fun _ => (Upholds.ofExcept fun _ _ => trivial).bind fun _ => upholds_failOn (hm.upkeep w) _ rfl

theorem staying_scanFrom (fuel steps : Nat) (stack : List Frame) (memo : Memo) :
    Staying (scanFrom host fuel steps stack memo) := by
  rw [← scanFrom_muted]
  exact fun w => upholds_scanFrom (hm.upkeep w) (fun limit => staying_failLimit hm limit w) fuel steps stack memo

theorem staying_scan : Staying (scan host) := fun w => .get fun _ => .runner fun _ => staying_scanFrom hm _ _ _ _ w

end Play
end

end Parley
