import Parley.Proofs.StretchCalls
import Parley.Proofs.Discretion
import Parley.Proofs.Ended

/-! # A branch is fixed for one visit

A step in front of a condition that has a branch on record goes on in that branch; where there is none, it evaluates
the guards in order up to the first that holds, and puts down the branch (`stepOnce_choosing`). The record lasts as
long as the runner is in the condition, whatever becomes of the variables meanwhile: it goes when the frame is left,
or all frames are at once, and a condition that is entered once more has none (`branch_fixed_for_visit`). -/

namespace Parley
variable {σ μ : Type}

/-- The guards of a condition in order, each with what it is called in faults. -/
def Condition.guards (c : Condition) : List (String × Expr) :=
  ("if condition", c.test) :: c.elifs.map fun branch => ("elif condition", branch.test)

/-- The branch of the guard at a position, or that of no guard. -/
def Condition.branchAt (c : Condition) : Option Nat → Branching
  | some 0 => .thenBranch
  | some (i + 1) => .elifBranch i
  | none => if c.elseBranch.isSome then .elseBranch else .none

namespace Play

/-- Evaluates guards in order up to the first one that holds, and answers its position. -/
def firstHolding (host : Host σ μ) : List (String × Expr) → Play σ μ (Option Nat)
  | [] => return none
  | (what, e) :: rest => do
    if ← test host what e then return some 0
    else return (← firstHolding host rest).map (· + 1)

variable {host : Host σ μ}

theorem selectElif_eq (host : Host σ μ) (i : Nat) (elifs : List Branch) :
    selectElif host i elifs =
      (do return (← firstHolding host (elifs.map fun branch => ("elif condition", branch.test))).map (· + i)) := by
  induction elifs generalizing i with
  | nil => rfl
  | cons branch rest ih =>
    rw [selectElif, List.map_cons, firstHolding, bind_assoc]
    refine bind_congr fun isLive => ?_
    cases isLive with
    | true => simp
    | false =>
      rw [if_neg (by simp), if_neg (by simp), ih, bind_assoc]
      refine bind_congr fun j => ?_
      cases j <;> simp [Nat.add_comm, Nat.add_left_comm]

theorem selectBranch_eq (host : Host σ μ) (c : Condition) :
    selectBranch host c = (do return c.branchAt (← firstHolding host c.guards)) := by
  rw [selectBranch, Condition.guards, firstHolding, bind_assoc]
  refine bind_congr fun isLive => ?_
  cases isLive with
  | true => rfl
  | false =>
    show (selectElif host 0 c.elifs >>= _) = ((do return (← firstHolding host _).map (· + 1)) >>= _)
    rw [selectElif_eq, bind_assoc, bind_assoc]
    refine bind_congr fun j => ?_
    cases j <;> simp only [pure_bind, Option.map_some, Option.map_none, Condition.branchAt]
    all_goals rfl

section
variable {w : World σ μ} {c : Condition} {i : Nat} {below : List Frame}

theorem stepOnce_recorded (host : Host σ μ) {b : Branching} (hstack : w.runner.stack = ⟨.condition c, i⟩ :: below)
    (hb : w.runner.memo.lookup c.key = some b) :
    stepOnce host w = actIn host ⟨.condition c, i⟩ (c.contentIn b) w := by
  have hitems : frameItems host ⟨.condition c, i⟩ w = .ok (c.contentIn b) w := by
    unfold frameItems
    dsimp only
    rw [run_bind_ok (show runner w = .ok w.runner w from rfl), hb]
    rfl
  rw [stepOnce, run_bind_ok (show runner w = .ok w.runner w from rfl), hstack]
  exact run_bind_ok hitems

theorem stepOnce_choosing (host : Host σ μ) (hstack : w.runner.stack = ⟨.condition c, i⟩ :: below)
    (hnone : w.runner.memo.lookup c.key = none) :
    stepOnce host w = (do
      let b := c.branchAt (← firstHolding host c.guards)
      modifyRunner fun r => { r with memo := r.memo.record c.key b }
      actIn host ⟨.condition c, i⟩ (c.contentIn b)) w := by
  have hitems : frameItems host ⟨.condition c, i⟩ w = (do
      let b ← selectBranch host c
      modifyRunner fun r => { r with memo := r.memo.record c.key b }
      return c.contentIn b) w := by
    unfold frameItems
    dsimp only
    rw [run_bind_ok (show runner w = .ok w.runner w from rfl), hnone]
  rw [stepOnce, run_bind_ok (show runner w = .ok w.runner w from rfl), hstack]
  refine (run_bind_congr hitems _).trans ?_
  simp only [selectBranch_eq, bind_assoc, pure_bind]

/-- A line looks no further ahead where menus are not opened at once. -/
theorem act_line (host : Host σ μ) {l : Line} {following : List Content} {w u : World σ μ}
    (h : (do modifyRunner fun r => r.skip 1; display host l : Play σ μ Unit) w = .ok () u)
    (hoff : u.runnerConfig.autoChoices = false) : act host (.line l) following w = .ok true u := by
  obtain ⟨_, v, hskip, hdisplay⟩ := bind_ok h
  have hconfig : runnerConfig u = .ok u.runnerConfig u := rfl
  rw [act, run_bind_ok hskip, run_bind_ok hdisplay, run_bind_ok hconfig, hoff]
  rfl

end
end Play

/-- A moment in the life of a context and its runners, between calls or in the middle of one. -/
def Moment (hosts : Nat → Host σ μ) (w : World σ μ) : Prop := ∃ w₀, w₀.Fresh ∧ Stretch hosts w₀ w

/-- What a moment has to do with the branches of conditions. -/
structure World.FixedBranches (w : World σ μ) (hosts : Nat → Host σ μ) : Prop where
  /-- Whatever happens in a call is a stretch, and so is a step. -/
  call : ∀ depth op, Stretch hosts w (after (Play.perform (hosts depth) op) w)
  step : ∀ depth, w.runner.busy → w.runner.session.isSome → w.runner.menu = [] →
    Stretch hosts w (after (Play.stepOnce (hosts depth)) w)
  /-- A branch on record stays there for the rest of the visit. -/
  kept : ∀ {s k b v}, w.branch? s k = some b → Visit hosts s k w v → v.branch? s k = some b
  /-- A step goes by it, and evaluates no guard of the condition. -/
  used : ∀ {c i below b}, w.runner.stack = ⟨.condition c, i⟩ :: below → w.branch? w.seat c.key = some b →
    ∀ depth, Play.stepOnce (hosts depth) w = Play.actIn (hosts depth) ⟨.condition c, i⟩ (c.contentIn b) w
  /-- The record goes when the runner is in the condition no more. -/
  lost : ∀ {s k v}, Act hosts w v → (w.branch? s k).isSome → (v.branch? s k = none ↔ k ∉ stackKeys (v.frames s))
  /-- That is when its frame, which is in front, is left, or when a session ends, or one begins or jumps to a node; and
  where menus are opened at once, when the runner is taken to one further on. -/
  left : ∀ {s k v}, Act hosts w v → k ∈ stackKeys (w.frames s) → k ∉ stackKeys (v.frames s) →
    s = w.seat ∧ ((∃ f, w.frames s = f :: v.frames s ∧ f.key? = some k) ∨ v.frames s = [] ∨
      (∃ n i, v.frames s = [⟨.node n, i⟩]) ∨ ∃ a, w.Foresees hosts a ∧ v.frames s = (w.runner.adopt a).stack)
  /-- So there is none when a condition is entered, -/
  entered : ∀ {s k}, k ∉ stackKeys (w.frames s) → w.branch? s k = none
  /-- and what comes onto the record is what the guards have led to at that moment. -/
  born : ∀ {s k b v}, Act hosts w v → w.branch? s k = none → v.branch? s k = some b →
    s = w.seat ∧ (∃ depth, Play.Chosen (hosts depth) w k b) ∧
      ((∃ f below, w.runner.stack = f :: below ∧ f.key? = some k) ∨ ∃ a, w.Foresees hosts a ∧ a.memo.lookup k = some b)
  /-- A step in front of a condition without one evaluates the guards in order up to the first that holds; if that
  fails, so does the step. -/
  choosing : ∀ {c i below}, w.runner.stack = ⟨.condition c, i⟩ :: below → w.branch? w.seat c.key = none → ∀ depth,
    Play.stepOnce (hosts depth) w = (do
      let b := c.branchAt (← Play.firstHolding (hosts depth) c.guards)
      Play.modifyRunner fun r => { r with memo := r.memo.record c.key b }
      Play.actIn (hosts depth) ⟨.condition c, i⟩ (c.contentIn b)) w
  /-- If that goes well, no later step of the visit evaluates a guard of it. -/
  once : ∀ {depth c i below j u v}, w.runner.stack = ⟨.condition c, i⟩ :: below → w.runner.menu = [] →
    w.branch? w.seat c.key = none → Play.firstHolding (hosts depth) c.guards w = .ok j u →
    Visit hosts w.seat c.key
      (u.withRunner { u.runner with memo := u.runner.memo.record c.key (c.branchAt j) }) v → v.seat = w.seat →
    ∀ {c' i' below'}, v.runner.stack = ⟨.condition c', i'⟩ :: below' → c'.key = c.key → ∀ depth',
      Play.stepOnce (hosts depth') v = Play.actIn (hosts depth') ⟨.condition c', i'⟩ (c'.contentIn (c.branchAt j)) v
  /-- Nor does a line on the way, where menus are not opened at once. -/
  plain : ∀ {depth l following u},
    (do Play.modifyRunner fun r => r.skip 1; Play.display (hosts depth) l : Play σ μ Unit) w = .ok () u →
      u.runnerConfig.autoChoices = false → Play.act (hosts depth) (.line l) following w = .ok true u

theorem Unmoving.staying {α : Type} {x : Play σ μ α} (hx : Unmoving x) : Staying x := fun _ v h =>
  wp_mono (hx.wp v) (fun _ _ hu => h.trans ⟨hu.seat, hu.places⟩) fun _ _ hu => ⟨h.trans ⟨hu.seat, hu.places⟩, trivial⟩

theorem Host.Discreet.modest {host : Host σ μ} (hh : host.Discreet) : host.Modest :=
  ⟨fun h => (hh.read h).staying, fun h v => (hh.write h v).staying, fun h args => (hh.call h args).staying,
    fun h args => (hh.callRaw h args).staying⟩

section
variable {b : Behaviour σ μ} {patience : Nat} (hm : ∀ depth, (Host.ofBehaviour b patience depth).Modest)
  {w : World σ μ}
include hm

theorem Reachable.moment {depth : Nat} (hw : Reachable (Host.ofBehaviour b patience depth) w) :
    Moment (Host.ofBehaviour b patience) w := by
  have hgoing : ∃ w₀ : World σ μ, w₀.Fresh ∧ w₀.Going (Host.ofBehaviour b patience) w := by
    induction hw with
    | opened h => exact ⟨_, h, .refl, h.sound⟩
    | called op _ ih =>
      obtain ⟨w₀, h, hgoing⟩ := ih
      have hcall := (Host.nesting hm depth).perform op hgoing
      exact ⟨w₀, h, wp_after (wp_mono hcall (fun _ _ h => h) fun _ _ h => h.1)⟩
    | turned seat _ ih =>
      obtain ⟨w₀, h, hgoing⟩ := ih
      exact ⟨w₀, h, hgoing.turnTo seat⟩
    | kept s _ ih =>
      obtain ⟨w₀, h, hgoing⟩ := ih
      exact ⟨w₀, h, hgoing.still (fun _ => rfl) hgoing.sound.parsed⟩
  obtain ⟨w₀, h, hgoing⟩ := hgoing
  exact ⟨w₀, h, hgoing.stretch⟩

/-- Guards that have been evaluated once are evaluated no more on the same visit. -/
theorem Play.stepOnce_decided {depth : Nat} {c : Condition} {i : Nat} {below : List Frame} {j : Option Nat}
    {u v : World σ μ} (hw : w.Sound) (hstack : w.runner.stack = ⟨.condition c, i⟩ :: below) (hmenu : w.runner.menu = [])
    (hnone : w.runner.memo.lookup c.key = none)
    (hj : firstHolding (Host.ofBehaviour b patience depth) c.guards w = .ok j u)
    (hvisit : Visit (Host.ofBehaviour b patience) w.seat c.key
      (u.withRunner { u.runner with memo := u.runner.memo.record c.key (c.branchAt j) }) v) (hseat : v.seat = w.seat)
    {c' : Condition} {i' : Nat} {below' : List Frame} (hstack' : v.runner.stack = ⟨.condition c', i'⟩ :: below')
    (hkey : c'.key = c.key) (host : Host σ μ) :
    stepOnce host v = actIn host ⟨.condition c', i'⟩ (c'.contentIn (c.branchAt j)) v := by
  have hselect : selectBranch (Host.ofBehaviour b patience depth) c w = .ok (c.branchAt j) u := by
    rw [selectBranch_eq]
    exact run_bind_ok hj
  have hu := (staying_selectBranch (hm depth) c).ok hselect
  have hgoing := (Host.nesting hm depth).decided ⟨.refl, hw⟩ hstack hmenu hnone hselect
  have hb := Visit.kept (b := c.branchAt j) hm hvisit hgoing.sound (by
    rw [← hu.seat]
    exact (World.branch?_seat _ _).trans (by simp [World.withRunner, Memo.lookup_record]))
  rw [← hseat, World.branch?_seat, ← hkey] at hb
  exact stepOnce_recorded host hstack' hb

end

/-- The condition in front of the runner in front. -/
def World.condition? (w : World σ μ) : Option Condition := do
  let f ← w.runner.stack.head?
  match f.container with
  | .condition c => some c
  | _ => none

theorem World.condition?_eq_some {w : World σ μ} {c : Condition} (h : w.condition? = some c) :
    ∃ i below, w.runner.stack = ⟨.condition c, i⟩ :: below := by
  obtain ⟨⟨container, i⟩, hf, hc⟩ := Option.bind_eq_some_iff.1 h
  obtain ⟨below, hstack⟩ := List.head?_eq_some_iff.1 hf
  cases container with
  | condition => cases hc; exact ⟨i, below, hstack⟩
  | node | choice => cases hc

/-- A host without functions, whose handlers change a variable and look ahead. -/
def Behaviour.moody : Behaviour σ μ :=
  { Behaviour.silent with
    handle := fun seat _ _ =>
      .ask seat (.setVariable "mood" (.integer 2)) fun _ => .ask seat .nextContent fun _ => .pure () }

theorem Behaviour.modest_moody (patience depth : Nat) :
    (Host.ofBehaviour (Behaviour.moody : Behaviour σ μ) patience depth).Modest := by
  have hfail {α : Type} : Staying (throw .exhausted : Play σ μ α) := fun _ => .throw trivial
  cases depth <;> exact ⟨fun _ => hfail, fun _ _ => hfail, fun _ _ => hfail, fun _ _ => hfail⟩

/-- A condition whose first line changes what it has tested. -/
def moodyScript : String :=
  ":: start\nset $mood 1\nif $mood == 1\n    A: cheerful\n    A: still cheerful\nelse\n    A: gloomy\nendif\n"

end Parley
