import Parley.Proofs.Discretion
import Parley.Proofs.Ended
import Parley.Proofs.Foresight
import Parley.Proofs.Partings
import Parley.Proofs.Refusals

/-! # Steps that fail

A call steps in rounds (`Rounds`), and if it fails with a fault of the interpreter then one of these has failed. With
discreet host code what the round has evaluated so far has not moved the runner, so that is where it was when the
failing item came up, unless that item was a line or a menu: a line is passed by before its text is rendered, and a menu
is opened before its texts are (`LeftAt`). -/

namespace Parley
variable {σ μ α β : Type}

/-- What expressions and commands fail with. -/
def Fault.isOfInterpreter : Fault → Bool
  | undefinedVariable _ | undefinedFunction _ | type _ | zeroDivisor _ | readOnly _ => true
  | _ => false

theorem bind_error {x : Play σ μ α} {g : α → Play σ μ β} {w v : World σ μ} {f : Fault}
    (h : (x >>= g) w = .error f v) : x w = .error f v ∨ ∃ a u, x w = .ok a u ∧ g a u = .error f v := by
  cases hx : x w with
  | ok a u => exact .inr ⟨a, u, rfl, by rwa [run_bind_ok hx] at h⟩
  | error f' u =>
    rw [run_bind_error hx] at h
    cases h
    exact .inl rfl

theorem Unmoving.place_ok {x : Play σ μ α} (hx : Unmoving x) {w v : World σ μ} {a : α} (h : x w = .ok a v) :
    v.runner.place = w.runner.place :=
  ((wp_ok h).1 (hx.wp w)).place

theorem Unmoving.place_error {x : Play σ μ α} (hx : Unmoving x) {w v : World σ μ} {f : Fault} (h : x w = .error f v) :
    v.runner.place = w.runner.place :=
  ((wp_error h).1 (hx.wp w)).place

namespace Place

/-- The item that comes next, where the branches that lead to it have been chosen. -/
def next? (p : Place) : Option Content :=
  match p.stack with
  | [] => none
  | f :: _ => (f.items p.memo).bind fun items => items[f.index]?

/-- Past so many items. -/
def skip (p : Place) (count : Nat) : Place := { p with stack := skipTop count p.stack }

theorem Ready.skip {p : Place} (h : p.Ready) (count : Nat) : (p.skip count).Ready := ⟨h.session, h.menu, h.wait⟩

end Place

theorem Runner.place_skip (r : Runner) (count : Nat) : (r.skip count).place = r.place.skip count := by
  rw [r.skip_eq]
  rfl

/-- Rounds of a call that come to nothing for the host to see. -/
inductive Rounds (host : Host σ μ) : World σ μ → World σ μ → Prop
  | here (w : World σ μ) : Rounds host w w
  | round {w v u : World σ μ} (hready : w.runner.place.Ready) (hstep : Play.stepOnce host w = .ok false v)
      (hrest : Rounds host v u) : Rounds host w u

/-- What comes next is known in `y`: that is `u`, or the branch of the condition that the runner is in has been chosen. -/
inductive ComesUp (host : Host σ μ) (u : World σ μ) : World σ μ → Prop
  | known : ComesUp host u u
  | chosen {f : Frame} {below : List Frame} {items : Option (List Content)} {y : World σ μ}
      (hstack : u.runner.stack = f :: below) (hitems : Play.frameItems host f u = .ok items y) : ComesUp host u y

/-- Where a round that failed with `f` has left the runner; what came up in it came up in `y`. -/
inductive LeftAt (host : Host σ μ) (f : Fault) (y x : World σ μ) : Prop
  /-- Where it was. -/
  | standing (hplace : x.runner.place = y.runner.place)
  /-- Past a line that has been displayed, before what was being looked ahead to. -/
  | ahead {l : Line} {v z : World σ μ} (hnext : y.runner.place.next? = some (.line l))
      (hshown : Play.display host l v = .ok () z) (hscan : Play.scan host z = .error f x)
      (hplace : x.runner.place = y.runner.place.skip 1)
  /-- Past a line whose text could not be rendered. -/
  | unshown {l : Line} {v : World σ μ} (hnext : y.runner.place.next? = some (.line l))
      (hrender : Play.render host l.text v = .error f x) (hplace : x.runner.place = y.runner.place.skip 1)
  /-- In a menu whose texts could not be rendered, come to from a choice, or from a line that has been displayed. -/
  | unopened {item : Content} {choices : List Choice} {v : World σ μ} (hnext : y.runner.place.next? = some item)
      (hitem : (∃ c, item = .choice c) ∨ ∃ l, item = .line l) (hrender : Play.renderAll host choices v = .error f x)
      (hsession : x.runner.session = y.runner.session) (hmenu : x.runner.menu = choices) (hne : choices ≠ [])

namespace Play
variable {host : Host σ μ} {w u v x y : World σ μ} {f : Fault}

/-! ### Publishing -/

/-- Handlers keep their faults to themselves. -/
theorem publish_error {n : Notice} (h : publish host n w = .error f v) : f = .exhausted := by
  have hdelivering : Delivering host (fun _ => True) (· = .exhausted) := by
    refine ⟨rfl, fun _ _ _ => trivial, fun _ _ _ => trivial, fun _ _ => trivial, fun seat handler n w _ => ?_⟩
    unfold wp
    split <;> trivial
  exact ((wp_error h).1 (upholds_publish hdelivering (n := n) (fun _ => trivial) trivial)).2

theorem publish_clear {n : Notice} (hf : f.isOfInterpreter) : publish host n w ≠ .error f v := by
  intro h
  rw [publish_error h] at hf
  cases hf

/-- After publishing there is nothing that could fail. -/
theorem publish_done_clear {n : Notice} {g : Bool → Play σ μ α} (hg : ∀ b w f v, g b w ≠ .error f v) (hf : f.isOfInterpreter) :
    (publish host n >>= g) w ≠ .error f v := by
  intro h
  rcases bind_error h with h | ⟨b, z, -, h⟩
  · exact publish_clear hf h
  · exact hg b z f v h

theorem complete_clear (hf : f.isOfInterpreter) : complete host w ≠ .error f v :=
  publish_done_clear (fun _ _ _ _ h => by cases h) hf

theorem enterNode_clear {n : Node} (hf : f.isOfInterpreter) : enterNode host n w ≠ .error f v :=
  publish_done_clear (fun _ _ _ _ h => by cases h) hf

theorem leaveFrame_clear (hf : f.isOfInterpreter) : leaveFrame host w ≠ .error f v := by
  intro h
  rcases bind_error h with h | ⟨r, z, hr, h⟩
  · cases h
  · cases hr
    split at h
    · rcases bind_error h with h | ⟨_, z', -, h⟩
      · exact complete_clear hf h
      · cases h
    · rcases bind_error h with h | ⟨_, z', -, h⟩
      · rcases bind_error h with h | ⟨r, z', hr, h⟩
        · cases h
        · cases hr
          cases hs : w.runner.stack <;> rw [hs] at h <;> cases h
          cases hf
      · cases h

theorem failLimit_clear {limit : Nat} (hf : f.isOfInterpreter) : (failLimit limit : Play σ μ α) w ≠ .error f v := by
  intro h
  rcases bind_error h with h | ⟨r, z, hr, h⟩
  · cases h
  · cases hr
    rcases bind_error h with h | ⟨node, z, -, h⟩
    · unfold Runner.currentNode at h
      split at h <;> cases h <;> cases hf
    · cases h
      cases hf

/-! ### A round -/

/-- Whether it has to choose a branch first or not. -/
theorem frameItems_cases (host : Host σ μ) (frame : Frame) (w : World σ μ) :
    frameItems host frame w = .ok (frame.items w.runner.memo) w ∨
      ∃ c, frame.container = .condition c ∧ w.runner.memo.lookup c.key = none := by
  cases hc : frame.container with
  | node n => exact .inl (by simp only [frameItems, Frame.items, hc]; rfl)
  | choice c => exact .inl (by simp only [frameItems, Frame.items, hc]; rfl)
  | condition c =>
    cases hb : w.runner.memo.lookup c.key with
    | none => exact .inr ⟨c, rfl, hb⟩
    | some b =>
      refine .inl ((frameItems_known hc hb).trans ?_)
      simp [Frame.items, hc, hb]

theorem carryOut_line_stops {l : Line} {stop : Bool} (h : carryOut host (.line l) w = .ok stop v) : stop = true := by
  obtain ⟨_, z, -, h⟩ := bind_ok h
  obtain ⟨_, z, -, h⟩ := bind_ok h
  obtain ⟨c, z, -, h⟩ := bind_ok h
  obtain ⟨r, z, -, h⟩ := bind_ok h
  split at h
  · obtain ⟨_, z, -, h⟩ := bind_ok h
    cases h
    rfl
  · cases h
    rfl

section
variable (hh : host.Discreet)
include hh

theorem unmoving_scan : Unmoving (scan host) := fun w₀ =>
  .get fun _ => .runner fun _ => upholds_scanFrom (hh.upkeep w₀) (fun _ => .runner fun _ =>
    (Upholds.ofExcept fun _ _ => trivial).bind fun _ => upholds_failOn (hh.upkeep w₀) .runner rfl) _ _ _ _

theorem frameItems_failed {frame : Frame} (h : frameItems host frame w = .error f v) :
    v.runner.place = w.runner.place := by
  rcases frameItems_cases host frame w with hok | ⟨c, hc, hb⟩
  · rw [hok] at h
    cases h
  · rw [frameItems_unknown hc hb] at h
    rcases bind_error h with h | ⟨b, z, -, h⟩
    · exact (hh.unmoving fun hk => upholds_selectBranch hk c).place_error h
    · cases h

/-- Its items are then known, and the runner is where it was but for the branch that it remembers. -/
theorem frameItems_settled {frame : Frame} {items : Option (List Content)} (h : frameItems host frame w = .ok items v) :
    frame.items v.runner.memo = items ∧ v.runner.place = { w.runner.place with memo := v.runner.memo } ∧
      frameItems host frame v = .ok items v := by
  rcases frameItems_cases host frame w with hok | ⟨c, hc, hb⟩
  · rw [hok] at h
    cases h
    exact ⟨rfl, rfl, hok⟩
  · rw [frameItems_unknown hc hb] at h
    obtain ⟨b, z, hz, h⟩ := bind_ok h
    have hplace := (hh.unmoving fun hk => upholds_selectBranch hk c).place_ok hz
    cases h
    have hlookup : (z.runner.memo.record c.key b).lookup c.key = some b := by rw [Memo.lookup_record, if_pos rfl]
    refine ⟨?_, ?_, frameItems_known hc hlookup⟩
    · show frame.items (z.runner.memo.record c.key b) = _
      simp [Frame.items, hc, hlookup]
    · rw [← hplace]
      rfl

theorem publish_place {n : Notice} {b : Bool} (h : publish host n w = .ok b v) : v.runner.place = w.runner.place :=
  (hh.unmoving fun hk => upholds_deliver hk n).place_ok (w := w.noting (.published w.seat n)) h

theorem display_place {l : Line} {z : World σ μ} (h : display host l w = .ok () z) : z.runner.place = w.runner.place := by
  obtain ⟨text, v, hrender, h⟩ := bind_ok h
  obtain ⟨b, z', hpublish, h⟩ := bind_ok h
  cases h
  exact (publish_place hh hpublish).trans ((hh.unmoving fun hk => upholds_render hk l.text).place_ok hrender)

/-- A menu is open before its texts are rendered. -/
theorem openMenu_failed {choices : List Choice} (hf : f.isOfInterpreter) (h : openMenu host choices w = .error f x) :
    x.runner.place = { w.runner.place with menu := choices } ∧
      ∃ v : World σ μ, renderAll host choices v = .error f x := by
  rcases bind_error h with h | ⟨_, v, hv, h⟩
  · cases h
  · cases hv
    rcases bind_error h with h | ⟨texts, z, -, h⟩
    · exact ⟨(hh.unmoving fun hk => upholds_renderAll hk choices).place_error h, _, h⟩
    · exact absurd h (publish_done_clear (fun _ _ _ _ h => by cases h) hf)

/-- Looking ahead from past a line that has been displayed. -/
theorem advanceToChoices_failed {l : Line} {z : World σ μ} (hf : f.isOfInterpreter)
    (hnext : y.runner.place.next? = some (.line l)) (hshown : display host l v = .ok () z)
    (hplace : z.runner.place = y.runner.place.skip 1) (h : advanceToChoices host z = .error f x) : LeftAt host f y x := by
  rcases bind_error h with hscan | ⟨ahead, z', hscan, h⟩
  · exact .ahead hnext hshown hscan (((unmoving_scan hh).place_error hscan).trans hplace)
  · split at h
    · rcases bind_error h with h | ⟨_, z'', hadopt, h⟩
      · cases h
      · cases hadopt
        obtain ⟨hopen, v, hrender⟩ := openMenu_failed hh hf h
        have hsession : z'.runner.session = y.runner.session :=
          (congrArg Place.session ((unmoving_scan hh).place_ok hscan)).trans (congrArg Place.session hplace)
        refine .unopened hnext (.inr ⟨l, rfl⟩) hrender ((congrArg Place.session hopen).trans hsession)
          (congrArg Place.menu hopen) ?_
        rintro hnil
        rw [hnil] at hrender
        cases hrender
    · cases h

/-- A line is passed by before it is displayed, and looked beyond only afterwards. -/
theorem line_failed {l : Line} {following : List Content} (hf : f.isOfInterpreter)
    (hnext : y.runner.place.next? = some (.line l)) (h : act host (.line l) following y = .error f x) :
    LeftAt host f y x := by
  rcases bind_error h with h | ⟨_, p, hp, h⟩
  · cases h
  · cases hp
    have hpast : (y.withRunner (y.runner.skip 1)).runner.place = y.runner.place.skip 1 := y.runner.place_skip 1
    rcases bind_error h with h | ⟨_, z, hshown, h⟩
    · rcases bind_error h with hrender | ⟨text, z, -, h⟩
      · have hplace := (hh.unmoving fun hk => upholds_render hk l.text).place_error hrender
        exact .unshown hnext hrender (hplace.trans hpast)
      · exact absurd h (publish_done_clear (fun _ _ _ _ h => by cases h) hf)
    · have hplace := (display_place hh hshown).trans hpast
      rcases bind_error h with h | ⟨c, z', hc, h⟩
      · cases h
      · cases hc
        rcases bind_error h with h | ⟨r, z', hr, h⟩
        · cases h
        · cases hr
          split at h
          · rcases bind_error h with h | ⟨_, z', -, h⟩
            · exact advanceToChoices_failed hh hf hnext hshown hplace h
            · cases h
          · cases h

/-- The guards of a menu come before anything is done about it. -/
theorem choice_failed {c : Choice} {following : List Content} (hf : f.isOfInterpreter)
    (hnext : y.runner.place.next? = some (.choice c)) (h : act host (.choice c) following y = .error f x) :
    LeftAt host f y x := by
  have hcollect : Unmoving (collectChoices host following) := hh.unmoving fun hk => upholds_collectChoices hk following
  rcases bind_error h with h | ⟨found, z, hfound, h⟩
  · exact .standing (hcollect.place_error h)
  · rcases bind_error h with h | ⟨_, z', hskip, h⟩
    · cases h
    · cases hskip
      split at h
      · cases h
      · next hlive =>
        rcases bind_error h with h | ⟨_, z', -, h⟩
        · obtain ⟨hopen, v, hrender⟩ := openMenu_failed hh hf h
          have hsession : (z.runner.skip found.2).session = y.runner.session := by
            rw [Runner.session_skip]
            exact congrArg Place.session (hcollect.place_ok hfound)
          exact .unopened hnext (.inl ⟨c, rfl⟩) hrender ((congrArg Place.session hopen).trans hsession)
            (congrArg Place.menu hopen) fun hnil => hlive (by rw [hnil]; rfl)
        · cases h

/-- A command that fails has not been passed by. -/
theorem command_failed {c : Command} {pos : Pos} {following : List Content} (hf : f.isOfInterpreter)
    (h : act host (.command c pos) following y = .error f x) : x.runner.place = y.runner.place := by
  have hobey (h : obey host c pos.line y = .error f x) : x.runner.place = y.runner.place := by
    rcases bind_error h with h | ⟨target, z, htarget, h⟩
    · exact (hh.unmoving fun hk => upholds_execute hk c pos.line).place_error h
    · have hplace := (hh.unmoving fun hk => upholds_execute hk c pos.line).place_ok htarget
      cases target with
      | none =>
        rcases bind_error h with h | ⟨_, z', -, h⟩ <;> cases h
      | some name =>
        rcases bind_error h with h | ⟨n, z', -, h⟩
        · exact ((hh.unmoving fun hk => upholds_getNode hk.housekeeping.toRecording name).place_error h).trans hplace
        · rcases bind_error h with h | ⟨_, z'', -, h⟩
          · exact absurd h (enterNode_clear hf)
          · cases h
  cases c with
  | wait e =>
    rcases bind_error h with h | ⟨duration, z, -, h⟩
    · exact (hh.unmoving fun hk => upholds_waitDuration hk e pos.line).place_error h
    · rcases bind_error h with h | ⟨_, z', -, h⟩
      · cases h
      · exact absurd h (publish_done_clear (fun _ _ _ _ h => by cases h) hf)
  | assign | call | jump => exact hobey h

/-- One round. -/
theorem stepOnce_failed (hf : f.isOfInterpreter) (h : stepOnce host u = .error f x) :
    ∃ y, ComesUp host u y ∧ (∃ memo, y.runner.place = { u.runner.place with memo }) ∧ stepOnce host y = .error f x ∧
      LeftAt host f y x := by
  rcases bind_error h with h | ⟨r, z, hr, h⟩
  · cases h
  · cases hr
    cases hstack : u.runner.stack with
    | nil =>
      rw [hstack] at h
      rcases bind_error h with h | ⟨_, z', -, h⟩
      · exact absurd h (complete_clear hf)
      · cases h
    | cons frame below =>
      rw [hstack] at h
      rcases bind_error h with hitems | ⟨items, y, hitems, hact⟩
      · exact ⟨u, .known, ⟨u.runner.memo, rfl⟩, by assumption, .standing (frameItems_failed hh hitems)⟩
      · obtain ⟨hknown, hplace, hagain⟩ := frameItems_settled hh hitems
        have hstack' : y.runner.stack = frame :: below := (congrArg Place.stack hplace).trans hstack
        have hstep : stepOnce host y = .error f x := by
          rw [stepOnce, run_bind_ok (show runner y = .ok y.runner y from rfl), hstack']
          exact (run_bind_ok hagain).trans hact
        refine ⟨y, .chosen hstack hitems, ⟨_, hplace⟩, hstep, ?_⟩
        have hnext : y.runner.place.next? = items.bind fun items => items[frame.index]? := by
          show (match y.runner.stack with | [] => none | f :: _ => (f.items y.runner.memo).bind fun items => items[f.index]?) = _
          rw [hstack', ← hknown]
        unfold actIn at hact
        cases hitem : items.bind fun items => items[frame.index]? with
        | none =>
          rw [hitem] at hact
          exact absurd hact (leaveFrame_clear hf)
        | some item =>
          rw [hitem] at hact hnext
          cases item with
          | line l => exact line_failed hh hf hnext hact
          | choice c => exact choice_failed hh hf hnext hact
          | command c pos => exact .standing (command_failed hh hf hact)
          | condition c => cases hact

/-! ### The loop -/

/-- Only asking to wait leaves a duration behind. -/
theorem roving_waitless : Roving host fun w w' : World σ μ => w = w' ∧ w.runner.wait = none := by
  have hunmoving {α : Type} {x : Play σ μ α} (hx : Unmoving x) :
      Keeps (fun w w' : World σ μ => w = w' ∧ w.runner.wait = none) x := by
    rintro w _ ⟨rfl, hw⟩
    cases hr : x w with
    | ok a v => exact .ok a ⟨rfl, (congrArg Place.wait (hx.place_ok hr)).trans hw⟩
    | error f v => exact .error f ⟨rfl, (congrArg Place.wait (hx.place_error hr)).trans hw⟩
  refine {
    vars := fun h => by rw [h.1], functions := fun h => by rw [h.1], seat := fun h => by rw [h.1],
    bus := fun h => by rw [h.1], strictText := fun h => by rw [h.1], isLive := fun h s => by rw [h.1],
    noting := ?_, withVars := ?_, withBus := ?_, read := fun h => hunmoving (hh.read h),
    write := fun h v => hunmoving (hh.write h v), call := fun h args => hunmoving (hh.call h args),
    callRaw := fun h args => hunmoving (hh.callRaw h args), handle := fun s h n => hunmoving (hh.handle s h n),
    place := fun h => by rw [h.1], nodes := fun h => by rw [h.1], roaming := ?_, moved := ?_, publishing := ?_ }
  · rintro w _ ⟨rfl, hw⟩ e _; exact ⟨rfl, hw⟩
  · rintro w _ ⟨rfl, hw⟩ vs; exact ⟨rfl, hw⟩
  · rintro w _ ⟨rfl, hw⟩ b; exact ⟨rfl, hw⟩
  · rintro w _ ⟨rfl, hw⟩ stack memo; exact ⟨rfl, hw⟩
  · rintro w _ ⟨rfl, hw⟩ p hp; exact ⟨rfl, hp.elim (fun h => h.trans hw) id⟩
  · rintro w _ ⟨rfl, hw⟩ n _; exact ⟨rfl, hw⟩

theorem stepOnce_waitless (hw : w.runner.wait = none) (h : stepOnce host w = .ok false v) : v.runner.wait = none := by
  have hrove := roving_waitless hh
  rw [stepOnce_eq] at h
  obtain ⟨s, z, hsight, hdo⟩ := bind_ok h
  have hsame := keeps_sight hrove.toInStep ⟨rfl, hw⟩
  rw [hsight] at hsame
  obtain ⟨_, -, -, hz⟩ := hsame.ok_left
  -- a line and a wait end the call
  have hline (l : Line) : s ≠ .line l := by
    rintro rfl
    cases carryOut_line_stops hdo
  have hwait (e : Expr) (pos : Pos) : s ≠ .command (.wait e) pos := by
    rintro rfl
    cases carryOut_wait hdo
  have hdone := keeps_carryOut hrove hline hwait ⟨rfl, hz⟩
  rw [hdo] at hdone
  obtain ⟨_, -, -, hv⟩ := hdone.ok_left
  exact hv

/-- If the loop fails with a fault of the interpreter, one of its rounds does. -/
theorem advanceFrom_failed {fuel steps : Nat} (hf : f.isOfInterpreter) (hwait : w.runner.wait = none)
    (h : advanceFrom host fuel steps w = .error f x) :
    ∃ u, Rounds host w u ∧ u.runner.place.Ready ∧ stepOnce host u = .error f x := by
  induction fuel generalizing steps w with
  | zero =>
    cases h
    cases hf
  | succ fuel ih =>
    rcases bind_error h with h | ⟨r, z, hr, h⟩
    · cases h
    · cases hr
      split at h
      · cases h
      · next hgo =>
        rw [not_or] at hgo
        have hlive : w.runner.session.isSome := by simpa [Option.isSome_iff_ne_none] using hgo.1
        have hmenu : w.runner.menu = [] := by simpa using hgo.2
        have hready : w.runner.place.Ready := ⟨hlive, hmenu, hwait⟩
        rcases bind_error h with h | ⟨c, z, hc, h⟩
        · cases h
        · cases hc
          dsimp only at h
          split at h
          · exact absurd h (failLimit_clear hf)
          · rcases bind_error h with hstep | ⟨stop, v, hstep, h⟩
            · exact ⟨w, .here w, hready, hstep⟩
            · cases stop with
              | true => cases h
              | false =>
                obtain ⟨u, hrounds, hu⟩ := ih (stepOnce_waitless hh hwait hstep) h
                exact ⟨u, .round hready hstep hrounds, hu⟩

end

/-! ### Calls -/

theorem ensuring_error {y : Play σ μ α} {g : World σ μ → World σ μ} (h : y.ensuring g w = .error f v) :
    ∃ z, y w = .error f z ∧ v = g z := by
  unfold ensuring at h
  split at h
  · cases h
  · cases h
    exact ⟨_, ‹_›, rfl⟩

/-- If `x` fails with a fault of the interpreter, it does so in the loop. -/
def Enters (host : Host σ μ) (x : Play σ μ Unit) : Prop :=
  ∀ ⦃w f v⦄, f.isOfInterpreter → x w = .error f v → ∃ u, x w = advance host u

namespace Enters

theorem advance : Enters host (advance host) := fun w _ _ _ _ => ⟨w, rfl⟩

theorem pure (u : Unit) : Enters host (pure u : Play σ μ Unit) := fun _ _ _ _ h => by cases h

theorem bind {y : Play σ μ α} {g : α → Play σ μ Unit} (hy : ∀ w f v, f.isOfInterpreter → y w ≠ .error f v)
    (hg : ∀ a, Enters host (g a)) : Enters host (y >>= g) := by
  intro w f v hf h
  rcases bind_error h with h | ⟨a, z, hz, h⟩
  · exact absurd h (hy w f v hf)
  · rw [run_bind_ok hz]
    exact hg a hf h

theorem publish (n : Notice) {g : Bool → Play σ μ Unit} (hg : ∀ b, Enters host (g b)) :
    Enters host (Play.publish host n >>= g) :=
  .bind (fun _ _ _ hf => publish_clear hf) hg

/-- What does not fail at all. -/
theorem after_ok {y : Play σ μ α} {g : α → Play σ μ Unit} (hy : ∀ w, ∃ a v, y w = .ok a v) (hg : ∀ a, Enters host (g a)) :
    Enters host (y >>= g) := by
  refine .bind (fun w f v _ h => ?_) hg
  obtain ⟨a, z, hz⟩ := hy w
  rw [hz] at h
  cases h

theorem follow (choice : Choice) (i : Nat) : Enters host (follow host choice i) := by
  refine .publish _ fun _ => .after_ok (fun w => ⟨_, _, rfl⟩) fun r => ?_
  split
  · exact .pure _
  · refine .after_ok (fun w => ⟨_, _, rfl⟩) fun _ => ?_
    split
    · exact .after_ok (fun w => ⟨_, _, rfl⟩) fun _ => .advance
    · exact .advance

theorem enterNode (n : Node) : Enters host (do Play.enterNode host n; Play.advance host) :=
  .bind (fun _ _ _ hf => enterNode_clear hf) fun _ => .advance

theorem startAt (n : Node) (name : String) (index : Nat) (w : World σ μ) :
    ∃ y u, Enters host y ∧ startAt host n name index w = busyStep y u := by
  refine ⟨_, w.withRunner w.runner.reset, ?_, rfl⟩
  refine .after_ok (fun w => ⟨_, _, rfl⟩) fun id => .after_ok (fun w => ⟨_, _, rfl⟩) fun _ => ?_
  exact .publish _ fun _ => .publish _ fun _ => .advance

/-- A call that steps on. -/
theorem of_admitted {op : Operation} (hop : op.advances) {x : Play σ μ Unit} (h : Admitted host w op x) :
    ∃ y u, Enters host y ∧ x w = busyStep y u := by
  cases h with
  | start => exact startAt _ _ _ w
  | restart => exact startAt _ _ _ (w.noting _)
  | resume => exact ⟨_, w, .advance, rfl⟩
  | select => exact ⟨_, w, .follow _ _, rfl⟩
  | jump => exact ⟨_, w, .enterNode _, rfl⟩
  | finish | rest => cases hop

end Enters

/-- The loop, and the end of the step that it is. -/
def loop (host : Host σ μ) (fuel : Nat) : Play σ μ Answer := do
  (advanceFrom host fuel 0).ensuring World.rested
  return .done

/-- A call that fails with a fault of the interpreter fails in the loop. -/
theorem perform_failed {op : Operation} (hop : op.advances) (hf : f.isOfInterpreter)
    (h : perform host op w = .error f v) :
    ∃ u fuel x, perform host op w = loop host fuel u ∧ u.runner.wait = none ∧ advanceFrom host fuel 0 u = .error f x ∧
      v = x.rested := by
  have hdrives : op.drives := by cases op <;> first | rfl | cases hop
  rcases refused_or_admitted host w hdrives with ⟨g, hrefused⟩ | ⟨x, hadmitted⟩
  · rw [perform_refused hrefused] at h
    cases h
    cases hrefused <;> cases hf
  · rw [perform_admitted hadmitted] at h
    rcases bind_error h with h | ⟨_, z, -, h⟩
    · obtain ⟨y, u, hy, hxy⟩ := Enters.of_admitted hop hadmitted
      rw [hxy, busyStep_eq] at h
      obtain ⟨z, hz, rfl⟩ := ensuring_error h
      obtain ⟨p, hp⟩ := hy hf hz
      refine ⟨p.withRunner { p.runner with wait := none }, host.patience + p.runnerConfig.maxSteps + 2, z, ?_, rfl,
        hp.symm.trans hz, rfl⟩
      rw [perform_admitted hadmitted]
      exact run_bind_congr (hxy.trans ((busyStep_eq y u).trans (ensuring_congr hp _))) _
    · cases h

/-- From where a runner is ready, the next call goes on right there. -/
theorem resume_loop (hready : w.runner.place.Ready) (hidle : w.runner.busy = false) :
    perform host .resume w = loop host (host.patience + w.runnerConfig.maxSteps + 2) w.begun := by
  have hwait : w.begun.withRunner { w.begun.runner with wait := none } = w.begun := by
    show w.withRunner { w.runner with wait := none, busy := true } = w.withRunner { w.runner with busy := true }
    rw [← show w.runner.wait = none from hready.wait]
  refine run_bind_congr ?_ _
  rw [resume_eq host hready.active hidle, ← advance_eq, busyStep_eq]
  refine ensuring_congr ?_ _
  show advanceFrom host (host.patience + w.begun.runnerConfig.maxSteps + 2) 0 (w.begun.withRunner _) = _
  rw [hwait]
  rfl

end Play

namespace LeftAt
variable {host : Host σ μ} {f : Fault} {y x : World σ μ}

theorem session (h : LeftAt host f y x) : x.runner.session = y.runner.session := by
  cases h with
  | standing hplace => exact congrArg Place.session hplace
  | ahead _ _ _ hplace | unshown _ _ hplace => exact congrArg Place.session hplace
  | unopened _ _ _ hsession => exact hsession

theorem ready (h : LeftAt host f y x) (hy : y.runner.place.Ready) (hmenu : x.runner.menu = []) : x.runner.place.Ready := by
  cases h with
  | standing hplace => exact hplace ▸ hy
  | ahead _ _ _ hplace | unshown _ _ hplace => exact hplace ▸ hy.skip 1
  | unopened _ _ _ _ hopen hne => exact absurd (hopen.symm.trans hmenu) hne

end LeftAt

/-- A call that fails with a fault of the interpreter fails in a round of its loop, at an item that was next in `y`. It
leaves the runner idle: where it was, so that the next call, whatever has been repaired meanwhile, goes on with this item;
or past a line that has been displayed, where the next call goes on with what was looked ahead to; or, if the item is a
line or a menu whose texts could not be rendered, past the line, or in the menu. -/
theorem failed_step_retried {b : Behaviour σ μ} (hb : b.Discreet) {patience depth : Nat} {host : Host σ μ}
    (hhost : host = Host.ofBehaviour b patience depth) {w v : World σ μ} {op : Operation} (hop : op.advances) {f : Fault}
    (hf : f.isOfInterpreter) (hfail : Play.perform host op w = .error f v) :
    ∃ u₀ u y x fuel, Play.perform host op w = Play.loop host fuel u₀ ∧ Rounds host u₀ u ∧ ComesUp host u y ∧
      Play.stepOnce host u = .error f x ∧ Play.stepOnce host y = .error f x ∧ v = x.rested ∧
      y.runner.place.Ready ∧ LeftAt host f y x ∧
      ∀ r : World σ μ, r.runner.busy = false → r.runner.place = v.runner.place →
        (v.runner.menu = [] → ∃ fuel, Play.perform host .resume r = Play.loop host fuel r.begun) ∧
        (v.runner.menu ≠ [] → Refused r .resume (.session .menuOpen)) := by
  have hh : host.Discreet := hhost ▸ hb.host patience depth
  obtain ⟨u₀, fuel, x, hloop, hwait, hadvance, rfl⟩ := Play.perform_failed hop hf hfail
  obtain ⟨u, hrounds, hready, hstep⟩ := Play.advanceFrom_failed hh hf hwait hadvance
  obtain ⟨y, hy, ⟨memo, hplace⟩, hagain, hleft⟩ := Play.stepOnce_failed hh hf hstep
  have hyready : y.runner.place.Ready := hplace ▸ ⟨hready.session, hready.menu, hready.wait⟩
  refine ⟨u₀, u, y, x, fuel, hloop, hrounds, hy, hstep, hagain, rfl, hyready, hleft, fun r hidle hr => ⟨?_, ?_⟩⟩
  · intro hmenu
    have hrready : r.runner.place.Ready := hr ▸ hleft.ready hyready hmenu
    exact ⟨_, Play.resume_loop hrready hidle⟩
  · intro hmenu
    have hsession : r.runner.session = y.runner.session := (congrArg Place.session hr).trans hleft.session
    have hlive : r.runner.session.isSome := hsession ▸ hyready.session
    exact .resumeMenu ⟨hidle, hlive⟩ fun hnil => hmenu ((congrArg Place.menu hr).symm.trans hnil)

theorem error_of_fault {x : Play σ μ α} {w : World σ μ} {f : Fault} (h : fault? (x w) = some f) :
    x w = .error f (after x w) := by
  unfold after
  cases hx : x w <;> rw [hx] at h <;> cases h
  rfl

theorem Behaviour.silent_discreet : (Behaviour.silent : Behaviour σ μ).Discreet :=
  ⟨fun _ => trivial, fun _ _ => trivial, fun _ _ => trivial, fun _ _ => trivial, fun _ _ _ => trivial⟩

/-- The text that a notice shows, if it shows a line. -/
def Notice.shown? : Notice → Option String
  | .displayed _ text => some text
  | _ => none

/-- A guard, and a line, that ask for the same variable. -/
def guardedScript : String := ":: start\nif $gold > 1\n    A: rich\nendif\n:: odd\nA: you have \x7b$gold + 1\x7d\nA: next\n"

theorem failed_step_retried_guard :
    ∃ (host : Host Unit Unit) (w v : World Unit Unit) (f : Fault),
      Play.perform host (.start none 0 false) w = .error f v ∧
      ((World.calls v host [.setVariable "gold" (.integer 2), .resume]).told 0).filterMap Notice.shown? = ["rich"] ∧
      ∃ u₀ u y x fuel, Play.perform host (.start none 0 false) w = Play.loop host fuel u₀ ∧ Rounds host u₀ u ∧
        ComesUp host u y ∧ Play.stepOnce host u = .error f x ∧ v = x.rested ∧ LeftAt host f y x := by
  let host : Host Unit Unit := Host.ofBehaviour Behaviour.silent 0 1
  let w : World Unit Unit := World.calls { host := () } host [.register guardedScript]
  have hfault : fault? (Play.perform host (.start none 0 false) w) = some (.undefinedVariable "gold") := by decide +kernel
  have hfail := error_of_fault hfault
  have hrich : ((World.calls (after (Play.perform host (.start none 0 false)) w) host
      [.setVariable "gold" (.integer 2), .resume]).told 0).filterMap Notice.shown? = ["rich"] := by decide +kernel
  obtain ⟨u₀, u, y, x, fuel, hloop, hrounds, hy, hstep, -, hv, -, hleft, -⟩ :=
    failed_step_retried Behaviour.silent_discreet rfl rfl rfl hfail
  exact ⟨host, w, _, _, hfail, hrich, u₀, u, y, x, fuel, hloop, hrounds, hy, hstep, hv, hleft⟩

/-- A line whose text fails is passed over: when what it failed for has been put right, the call that goes on shows the
next one. -/
theorem passed_over :
    ∃ (host : Host Unit Unit) (w v : World Unit Unit) (f : Fault), Reachable host w ∧ f.isOfInterpreter ∧
      Play.perform host (.start (some "odd") 0 false) w = .error f v ∧ v.runner.state = .active ∧
      (v.told 0).filterMap Notice.shown? = [] ∧
      ((World.calls v host [.setVariable "gold" (.integer 2), .resume]).told 0).filterMap Notice.shown? = ["next"] := by
  let host : Host Unit Unit := Host.ofBehaviour Behaviour.silent 0 1
  let w : World Unit Unit := World.calls { host := () } host [.register guardedScript, .setVariable "gold" (.boolean true)]
  have hopened : ReachedBy (fun _ => True) host { host := () } := .opened (.alone {} ())
  have hw : Reachable host w := (hopened.calls fun _ _ => trivial).reachable
  have hfails : (fault? (Play.perform host (.start (some "odd") 0 false) w)).map Fault.isOfInterpreter = some true := by
    decide +kernel
  obtain ⟨f, hfault, hf⟩ := Option.map_eq_some_iff.1 hfails
  exact ⟨host, w, _, f, hw, hf, error_of_fault hfault, by decide +kernel, by decide +kernel, by decide +kernel⟩

end Parley
