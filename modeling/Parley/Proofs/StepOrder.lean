import Parley.Proofs.Order

/-! # A step keeps order

`Steps P A x B`: run in the middle of a step, from a place with `A`, `x` ends at a place with `B`, or fails
where the runner stands well; at any time the session may have been ended instead. There is one lemma for
each part of the stepping loop, and `steps_advance` puts them together. -/

namespace Parley
variable {σ μ : Type}

def Steps {α : Type} (P : μ → Prop) (A : Place → Prop) (x : Play σ μ α) (B : α → Place → Prop) : Prop :=
  ∀ ⦃w₀ w⦄, World.During P w₀ A w →
    wp x (fun a => World.During P w₀ (B a)) (fun _ => World.During P w₀ Place.Stands) w

namespace Steps
variable {α β : Type} {P : μ → Prop} {A A' : Place → Prop} {B B' : α → Place → Prop}
  {C : β → Place → Prop} {x : Play σ μ α} {f : α → Play σ μ β}

theorem mono (h : Steps P A x B) (hA : ∀ p, A' p → A p) (hB : ∀ a p, B a p → B' a p) : Steps P A' x B' :=
  fun _ _ hw => wp_mono (h (hw.mono hA)) (fun a _ hw => hw.mono (hB a)) fun _ _ hw => hw

theorem bind (hx : Steps P A x B) (hf : ∀ a, Steps P (B a) (f a) C) : Steps P A (x >>= f) C := by
  intro w₀ w hw
  rw [wp_bind]
  exact wp_mono (hx hw) (fun a _ hw => hf a hw) fun _ _ hw => hw

theorem pure {a : α} (h : ∀ p, A p → B a p) : Steps P A (pure a : Play σ μ α) B :=
  fun _ _ hw => hw.mono h

theorem throw {e : Fault} (h : ∀ p, A p → p.Stands) : Steps P A (throw e : Play σ μ α) B :=
  fun _ _ hw => hw.mono h

theorem ite {c : Prop} [Decidable c] {y : Play σ μ α} (hx : c → Steps P A x B) (hy : ¬c → Steps P A y B) :
    Steps P A (if c then x else y) B := by
  split
  · exact hx ‹_›
  · exact hy ‹_›

/-- What calls may do, with the results that it can have. -/
theorem tending {R : α → Prop} (hx : Tending P x) (hR : ∀ w a w', w.InOrder P → x w = .ok a w' → R a)
    (h : ∀ p, A p → p.Stands) : Steps P A x fun a p => A p ∧ R a := by
  intro w₀ w hw
  have ht := hx.wp hw.tends.order
  unfold wp at ht ⊢
  cases hr : x w <;> rw [hr] at ht
  · next a w' => exact (hw.interrupted ht).mono fun p hp => ⟨hp, hR w a w' hw.tends.order hr⟩
  · exact (hw.interrupted ht).mono h

theorem tending' (hx : Tending P x) (h : ∀ p, A p → p.Stands) : Steps P A x fun _ => A :=
  (tending (R := fun _ => True) hx (fun _ _ _ _ _ => trivial) h).mono (fun _ h => h) fun _ _ h => h.1

/-- Only a session that still runs has to be looked at. -/
theorem live (h : Steps P (fun p => A p ∧ p.session.isSome) x B) : Steps P A x B := by
  intro w₀ w hw
  refine h ⟨hw.tends, hw.idle, hw.busy, ?_⟩
  cases hs : w.runner.session with
  | none => exact .inl rfl
  | some id => exact .inr ⟨hw.place.resolve_left (by simp [hs]), by simp [Runner.place, hs]⟩

theorem get {f : World σ μ → Play σ μ β} (h : ∀ w, Steps P A (f w) C) : Steps P A (get >>= f) C :=
  fun _ w hw => h w hw

/-- Reads the runner in front, which is at the place of the step if it has not lost its session. -/
theorem runner {f : Runner → Play σ μ β}
    (h : ∀ r : Runner, r.busy = true → (r.session = none ∨ A r.place) → Steps P (fun p => A p ∧ p = r.place) (f r) C) :
    Steps P A (Play.runner >>= f) C :=
  fun _ w hw => h w.runner hw.busy hw.place ⟨hw.tends, hw.idle, hw.busy, hw.place.imp_right fun h => ⟨h, rfl⟩⟩

theorem modifyRunner {g : Runner → Runner} {B : Place → Prop} (hb : ∀ r, (g r).busy = r.busy)
    (hs : ∀ r, r.session = none → (g r).session = none ∨ B (g r).place)
    (h : ∀ r : Runner, A r.place → (g r).session = none ∨ B (g r).place) :
    Steps P A (Play.modifyRunner g : Play σ μ Unit) fun _ => B := by
  intro w₀ w hw
  exact hw.withRunner ((hb _).trans hw.busy) (hw.place.elim (hs _) (h _))

end Steps

/-- Stands in a node with the innermost frame `f`, and no menu open. -/
structure Walks (n : Node) (f : Frame) (below : List Frame) (p : Place) : Prop where
  placed : Placed n p.stack p.memo
  stack : p.stack = f :: below
  menu : p.menu = []

theorem Place.stands_of_menu {p : Place} {n : Node} (h : Placed n p.stack p.memo) (hm : p.menu = []) :
    p.Stands :=
  ⟨n, h, by simp [hm]⟩

namespace Walks
variable {n : Node} {f : Frame} {below : List Frame} {p : Place}

theorem stands (h : Walks n f below p) : p.Stands := Place.stands_of_menu h.placed h.menu

theorem placed' (h : Walks n f below p) : Placed n (f :: below) p.memo := h.stack ▸ h.placed

end Walks

namespace Runner

theorem skip_cons {r : Runner} {f : Frame} {below : List Frame} (h : r.stack = f :: below) (count : Nat) :
    r.skip count = { r with stack := f.skip count :: below } := by
  simp only [skip, h]

@[simp] theorem busy_skip (r : Runner) (count : Nat) : (r.skip count).busy = r.busy := by
  unfold skip; split <;> rfl

@[simp] theorem session_skip (r : Runner) (count : Nat) : (r.skip count).session = r.session := by
  unfold skip; split <;> rfl

@[simp] theorem menu_skip (r : Runner) (count : Nat) : (r.skip count).menu = r.menu := by
  unfold skip; split <;> rfl

@[simp] theorem memo_skip (r : Runner) (count : Nat) : (r.skip count).memo = r.memo := by
  unfold skip; split <;> rfl

end Runner

theorem Walks.skip {n : Node} {f : Frame} {below : List Frame} {r : Runner} {count : Nat}
    (h : Walks n f below r.place) (hin : (f.skip count).Within r.memo) :
    Walks n (f.skip count) below (r.skip count).place := by
  rw [Runner.skip_cons h.stack]
  exact ⟨h.placed'.skip hin, rfl, h.menu⟩

theorem collectChoices_ok {host : Host σ μ} {items : List Content} {w w' : World σ μ} {live : List Choice}
    {run : Nat} (h : Play.collectChoices host items w = .ok (live, run) w') :
    run = (choiceRun items).length ∧ ∀ c ∈ live, c ∈ choiceRun items := by
  induction items generalizing w w' live run with
  | nil => cases h; exact ⟨rfl, by simp⟩
  | cons item rest ih =>
    cases item with
    | choice c =>
      have key (isLive : Bool) {v w' : World σ μ} (h : (do
          let later ← Play.collectChoices host rest
          return (if isLive then c :: later.1 else later.1, later.2 + 1) : Play σ μ _) v = .ok (live, run) w') :
          run = (choiceRun (.choice c :: rest)).length ∧ ∀ d ∈ live, d ∈ choiceRun (.choice c :: rest) := by
        obtain ⟨⟨l, k⟩, v', hl, h⟩ := bind_ok h
        obtain ⟨rfl, hsub⟩ := ih hl
        cases h
        refine ⟨rfl, fun d hd => ?_⟩
        split at hd
        · exact (List.mem_cons.1 hd).elim (fun he => he ▸ List.mem_cons_self) fun hd => List.mem_cons_of_mem _ (hsub d hd)
        · exact List.mem_cons_of_mem _ (hsub d hd)
      unfold Play.collectChoices at h
      split at h
      · obtain ⟨isLive, v, -, h⟩ := bind_ok h
        exact key isLive h
      · obtain ⟨isLive, v, -, h⟩ := bind_ok h
        exact key isLive h
    | line | condition | command => cases h; exact ⟨rfl, by simp⟩

theorem getNode_ok {name : String} {w w' : World σ μ} {n : Node} (h : Play.getNode name w = .ok n w') :
    w.nodes.get? name = some n ∧ w' = w := by
  obtain ⟨_, _, ⟨⟩, h⟩ := bind_ok h
  cases hn : w.nodes.get? name with
  | none => rw [hn] at h; cases h
  | some m => rw [hn] at h; cases h; exact ⟨rfl, rfl⟩

section
variable {P : μ → Prop} {host : Host σ μ} (hh : host.Tends P)
include hh

namespace Tending

theorem log (level : LogLevel) (channel : LogChannel) (message : String) :
    Tending P (Play.log level channel message : Play σ μ Unit) :=
  fun w₀ => Play.keeps_log (hh.congruent w₀) ..

theorem failOn {α : Type} (channel : LogChannel) (f : Fault) :
    Tending P (Play.failOn channel f : Play σ μ α) :=
  fun w₀ => Play.keeps_failOn (hh.congruent w₀) ..

theorem publish (n : Notice) : Tending P (Play.publish host n) := by
  refine fun w₀ => Play.keeps_publish (hh.congruent w₀) n ?_
  rintro w _ ⟨rfl, ht⟩
  exact ⟨rfl, ht.aside rfl (fun _ => rfl) rfl fun m hm => by simpa [World.noting] using hm⟩

theorem render (text : List Segment) : Tending P (Play.render host text) :=
  fun w₀ => Play.keeps_render (hh.congruent w₀) text

theorem renderAll (choices : List Choice) : Tending P (Play.renderAll host choices) :=
  fun w₀ => Play.keeps_renderAll (hh.congruent w₀) choices

theorem selectBranch (c : Condition) : Tending P (Play.selectBranch host c) :=
  fun w₀ => Play.keeps_selectBranch (hh.congruent w₀) c

theorem collectChoices (items : List Content) : Tending P (Play.collectChoices host items) :=
  fun w₀ => Play.keeps_collectChoices (hh.congruent w₀) items

theorem waitDuration (e : Expr) (line : Int) : Tending P (Play.waitDuration host e line) :=
  fun w₀ => Play.keeps_waitDuration (hh.congruent w₀) ..

theorem execute (c : Command) (line : Int) : Tending P (Play.execute host c line) :=
  fun w₀ => Play.keeps_execute (hh.congruent w₀) ..

theorem getNode (name : String) : Tending P (Play.getNode name : Play σ μ Node) := by
  intro w₀
  refine .get (fun w w' h => by rw [h.1]) fun w => ?_
  split
  · exact .pure _
  · exact Play.keeps_failOn (hh.congruent w₀) ..

end Tending

namespace Play

theorem steps_complete {A B : Place → Prop} : Steps P A (complete host) fun _ => B := by
  refine .runner fun r _ _ => ?_
  have hreset : Steps P (fun p => A p ∧ p = r.place) (modifyRunner Runner.reset : Play σ μ Unit)
      fun _ _ => False :=
    .modifyRunner (fun _ => rfl) (fun _ _ => .inl rfl) fun _ _ => .inl rfl
  refine hreset.bind fun _ => (Steps.tending' (.log hh _ _ _) fun _ h => h.elim).bind fun _ => ?_
  exact (Steps.tending' (.publish hh _) fun _ h => h.elim).bind fun _ => .pure fun _ h => h.elim

theorem steps_enterNode {A : Place → Prop} {n : Node} (hn : ∀ p, A p → (contentKeys n.content).Nodup) :
    Steps P A (enterNode host n) fun _ => Place.Stands := by
  have henter : Steps P A (modifyRunner fun r => { r with stack := [⟨.node n, 0⟩], memo := [], menu := [] } :
      Play σ μ Unit) fun _ => Place.Stands :=
    .modifyRunner (fun _ => rfl) (fun _ h => .inl h) fun r h => .inr
      (Place.stands_of_menu (.enter (hn _ h) (Nat.zero_le _)) rfl)
  refine henter.bind fun _ => (Steps.tending' (.log hh _ _ _) fun _ h => h).bind fun _ => ?_
  exact (Steps.tending' (.publish hh _) fun _ h => h).bind fun _ => .pure fun _ h => h

omit hh in
theorem steps_popFrame {n : Node} {f g : Frame} {below : List Frame} :
    Steps P (Walks n f (g :: below)) (popFrame : Play σ μ Unit) fun _ => Place.Stands := by
  refine .runner fun r _ hr => ?_
  split
  · exact .throw fun p h => h.1.stands
  · next f' below' hs =>
    refine .modifyRunner (fun _ => rfl) (fun _ h => .inl h) fun r' h => .inr ?_
    obtain ⟨hw, hp⟩ := h
    have hstack : f' :: below' = f :: g :: below :=
      hs.symm.trans ((congrArg Place.stack hp).symm.trans hw.stack)
    cases hstack
    exact Place.stands_of_menu hw.placed'.pop hw.menu

theorem steps_leaveFrame {n : Node} {f : Frame} {below : List Frame} :
    Steps P (Walks n f below) (leaveFrame host) fun _ => Place.Stands := by
  refine .runner fun r _ hr => .ite (fun _ => ?_) fun hlen => ?_
  · exact (steps_complete hh (B := Place.Stands)).bind fun _ => .pure fun _ h => h
  · have hpop : Steps P (fun p => Walks n f below p ∧ p = r.place) (popFrame : Play σ μ Unit)
        fun _ => Place.Stands := by
      cases below with
      | nil =>
        -- a stack of one frame has been dealt with, so the session is gone
        have hpop : Steps P (Walks n f [f]) (popFrame : Play σ μ Unit) fun _ => Place.Stands := steps_popFrame
        refine hpop.mono (fun p h => ?_) fun _ _ h => h
        have hp : p.stack = r.stack := congrArg Place.stack h.2
        exact absurd (by rw [← hp, h.1.stack]; rfl) hlen
      | cons g below => exact steps_popFrame.mono (fun _ h => h.1) fun _ _ h => h
    exact hpop.bind fun _ => .pure fun _ h => h

/-- Choosing a branch on the way, if the frame is a condition that has none. -/
theorem steps_frameItems {n : Node} {f : Frame} {below : List Frame} :
    Steps P (Walks n f below) (frameItems host f) fun items p => Walks n f below p ∧ f.items p.memo = items := by
  unfold frameItems
  split
  · next n' hc => exact .pure fun p h => ⟨h, by rw [Frame.items, hc]⟩
  · next c hc => exact .pure fun p h => ⟨h, by rw [Frame.items, hc]⟩
  · next c hc =>
    refine .runner fun r _ _ => ?_
    split
    · next b hb =>
      refine .pure fun p h => ⟨h.1, ?_⟩
      rw [Frame.items, hc, h.2]
      exact congrArg (·.bind c.contentIn) hb
    · next hb =>
      refine (Steps.tending' (.selectBranch hh c) fun p h => h.1.stands).bind fun b => ?_
      have hrecord : Steps P (fun p => Walks n f below p ∧ p = r.place)
          (modifyRunner fun r => { r with memo := r.memo.record c.key b } : Play σ μ Unit)
          fun _ p => Walks n f below p ∧ f.items p.memo = c.contentIn b := by
        refine .modifyRunner (fun _ => rfl) (fun _ h => .inl h) fun r' h => .inr ?_
        obtain ⟨hw, hp⟩ := h
        have hb' : r'.memo.lookup c.key = none := by
          rw [show r'.memo = r.memo from congrArg Place.memo hp]; exact hb
        refine ⟨⟨?_, hw.stack, hw.menu⟩, ?_⟩
        · show Placed n r'.stack (r'.memo.record c.key b)
          rw [show r'.stack = f :: below from hw.stack]
          exact hw.placed'.record hc hb' b
        · show f.items (r'.memo.record c.key b) = _
          simp [Frame.items, hc, Memo.lookup_record]
      exact hrecord.bind fun _ => .pure fun _ h => h

theorem steps_openMenu {A : Place → Prop} {choices : List Choice}
    (hA : ∀ p, A p → ({ p with menu := choices } : Place).Stands) :
    Steps P A (openMenu host choices) fun _ => Place.Stands := by
  have hmenu : Steps P A (modifyRunner fun r => { r with menu := choices } : Play σ μ Unit) fun _ => Place.Stands :=
    .modifyRunner (fun _ => rfl) (fun _ h => .inl h) fun r h => .inr (hA r.place h)
  refine hmenu.bind fun _ => (Steps.tending' (.renderAll hh choices) fun _ h => h).bind fun texts => ?_
  exact (Steps.tending' (.publish hh _) fun _ h => h).bind fun _ => .pure fun _ h => h

omit hh in
theorem frameItemsIn_ok {n : Node} {f : Frame} {below : List Frame} {memo memo' : Memo}
    {items : Option (List Content)} {w w' : World σ μ} (hn : (contentKeys n.content).Nodup)
    (hs : Stacked memo n (f :: below)) (h : frameItemsIn host memo f w = .ok (items, memo') w') :
    Stacked memo' n (f :: below) ∧ f.items memo' = items := by
  cases hc : f.container with
  | node | choice => simp only [frameItemsIn, hc] at h; cases h; exact ⟨hs, by rw [Frame.items, hc]⟩
  | condition c =>
    cases hb : memo.lookup c.key with
    | some b =>
      simp only [frameItemsIn, hc, hb] at h
      cases h
      exact ⟨hs, by rw [Frame.items, hc]; exact congrArg (·.bind c.contentIn) hb⟩
    | none =>
      simp only [frameItemsIn, hc, hb] at h
      obtain ⟨b, v, -, h⟩ := bind_ok h
      cases h
      exact ⟨hs.record hn hc hb b, by simp [Frame.items, hc, Memo.lookup_record]⟩

omit hh in
theorem failLimit_ne_ok {α : Type} {limit : Nat} {a : α} {w w' : World σ μ} :
    failLimit limit w ≠ .ok a w' := by
  intro h
  obtain ⟨r, v, -, h⟩ := bind_ok h
  obtain ⟨node, v', -, h⟩ := bind_ok h
  cases h

omit hh in
/-- A walk ahead keeps to the tree, whatever host code does in the meantime. -/
theorem scanFrom_leads {n : Node} (hn : (contentKeys n.content).Nodup) {fuel steps : Nat}
    {stack : List Frame} {memo : Memo} {a : Lookahead} {w w' : World σ μ} (hs : Stacked memo n stack)
    (h : scanFrom host fuel steps stack memo w = .ok a w') : a.Leads n := by
  have hstop {kind : NextContent} {f : Frame} {below : List Frame} {memo : Memo} (hs : Stacked memo n (f :: below)) :
      (⟨kind, f :: below, memo, [], 0⟩ : Lookahead).Leads n :=
    ⟨hs, fun f' below' he => by cases he; exact hs.within f List.mem_cons_self, by simp⟩
  induction fuel generalizing steps stack memo w with
  | zero => cases h
  | succ fuel ih =>
    cases stack with
    | nil => cases hs
    | cons f below =>
      obtain ⟨limit, v, -, h⟩ := bind_ok h
      dsimp only at h
      split at h
      · exact absurd h failLimit_ne_ok
      · obtain ⟨⟨items, memo'⟩, v', hitems, h⟩ := bind_ok h
        obtain ⟨hs', rfl⟩ := frameItemsIn_ok hn hs hitems
        dsimp only at h
        cases hitem : (f.items memo').bind fun items => items[f.index]? with
        | none =>
          rw [hitem] at h
          dsimp only at h
          split at h
          · cases h; exact hstop hs'
          · cases hs' with
            | node => simp at *
            | child _ _ hs' => exact ih hs' h
        | some item =>
          rw [hitem] at h
          obtain ⟨items, hi, hc⟩ := Option.bind_eq_some_iff.1 hitem
          cases item with
          | condition c => exact ih (hs'.pushCondition hi hc) h
          | choice c =>
            obtain ⟨⟨live, run⟩, v'', hlive, h⟩ := bind_ok h
            obtain ⟨rfl, hsub⟩ := collectChoices_ok hlive
            rw [hi, Option.getD_some] at hsub h
            have hw : (f.skip (choiceRun (items.drop f.index)).length).Within memo' := f.within_choiceRun hi hc
            dsimp only at h
            split at h
            · exact ih (hs'.skip hw) h
            · cases h
              refine ⟨hs', fun f' below' he => by cases he; exact hw, fun c hc => ?_⟩
              exact ⟨f, below, rfl, Frame.holds_choiceRun hi (hsub c hc)⟩
          | command c pos => cases h; exact hstop hs'
          | line l => cases h; exact hstop hs'

theorem tending_frameItemsIn (memo : Memo) (f : Frame) : Tending P (frameItemsIn host memo f) := by
  unfold frameItemsIn
  split
  · exact .pure _
  · exact .pure _
  · split
    · exact .pure _
    · exact (Tending.selectBranch hh _).bind fun _ => .pure _

theorem tending_failLimit {α : Type} (limit : Nat) : Tending P (failLimit limit : Play σ μ α) :=
  .get fun w => (show Tending P (ofExcept w.runner.currentNode) from fun _ => keeps_ofExcept _).bind fun _ =>
    .failOn hh _ _

theorem tending_scanFrom (fuel steps : Nat) (stack : List Frame) (memo : Memo) :
    Tending P (scanFrom host fuel steps stack memo) := by
  induction fuel generalizing steps stack memo with
  | zero => exact .throw _
  | succ fuel ih =>
    cases stack with
    | nil => exact .pure _
    | cons f below =>
      refine .get fun w => .ite (tending_failLimit hh _) ((tending_frameItemsIn hh memo f).bind fun r => ?_)
      dsimp only
      split
      · exact .ite (.pure _) (ih _ _ _)
      · exact ih _ _ _
      · exact (Tending.collectChoices hh _).bind fun r => .ite (ih _ _ _) (.pure _)
      · exact .pure _
      · exact .pure _

theorem steps_scan {n : Node} {f : Frame} {below : List Frame} :
    Steps P (Walks n f below) (scan host) fun a p => Walks n f below p ∧ a.Leads n := by
  refine .live (.get fun w => .runner fun r _ hr => ?_)
  rcases hr with hr | hr
  · -- the session is gone already
    refine (Steps.tending' (tending_scanFrom hh _ _ _ _) fun p h => h.1.1.stands).mono (fun _ h => h) fun a p h => ?_
    have hs : p.session = r.session := congrArg Place.session h.2
    exact absurd h.1.2 (by simp [hs, hr])
  · refine (Steps.tending (R := fun a => a.Leads n) (tending_scanFrom hh _ _ _ _) (fun w a w' _ h => ?_)
      fun p h => h.1.1.stands).mono (fun _ h => h) fun a p h => ⟨h.1.1.1, h.2⟩
    exact scanFrom_leads hr.1.placed.nodup hr.1.placed.stacked h

theorem steps_advanceToChoices {n : Node} {f : Frame} {below : List Frame} :
    Steps P (Walks n f below) (advanceToChoices host) fun _ => Place.Stands := by
  refine (steps_scan hh).bind fun a => .ite (fun _ => ?_) fun _ => .pure fun p h => h.1.stands
  have hadopt : Steps P (fun p => Walks n f below p ∧ a.Leads n) (modifyRunner fun r => r.adopt a : Play σ μ Unit)
      fun _ p => ({ p with menu := a.choices } : Place).Stands := by
    refine .modifyRunner (fun _ => rfl) (fun _ h => .inl h) fun r h => .inr ?_
    exact ⟨n, h.2.adopt h.1.placed.nodup r⟩
  exact hadopt.bind fun _ => steps_openMenu hh fun _ h => h

omit hh in
theorem steps_skip {n : Node} {f : Frame} {below : List Frame} {count : Nat} {A : Place → Prop}
    {Q : Memo → Prop} (hA : ∀ p, A p → Walks n f below p ∧ (f.skip count).Within p.memo ∧ Q p.memo) :
    Steps P A (modifyRunner fun r => r.skip count : Play σ μ Unit)
      fun _ p => Walks n (f.skip count) below p ∧ Q p.memo := by
  refine .modifyRunner (fun r => r.busy_skip count) (fun r h => .inl ((r.session_skip count).trans h)) fun r h => .inr ?_
  obtain ⟨hw, hin, hq⟩ := hA _ h
  exact ⟨hw.skip hin, by rwa [show (r.skip count).place.memo = r.memo from r.memo_skip count]⟩

theorem steps_display {A : Place → Prop} (l : Line) (h : ∀ p, A p → p.Stands) :
    Steps P A (display host l) fun _ => A :=
  (Steps.tending' (.render hh l.text) h).bind fun _ => (Steps.tending' (.publish hh _) h).bind fun _ => .pure fun _ h => h

section
variable {n : Node} {f : Frame} {below : List Frame} {items : List Content}

/-- In front of the item that is to be acted on. -/
abbrev Faces (n : Node) (f : Frame) (below : List Frame) (items : List Content) (p : Place) : Prop :=
  Walks n f below p ∧ f.items p.memo = some items

omit hh in
theorem within_next {p : Place} {item : Content} (h : Faces n f below items p)
    (hi : items[f.index]? = some item) :
    (f.skip 1).Within p.memo := by
  rw [Frame.Within, Frame.items_skip, h.2]
  exact (List.getElem?_eq_some_iff.1 hi).1

theorem steps_actChoice {c : Choice} (hi : items[f.index]? = some (.choice c)) :
    Steps P (Faces n f below items) (act host (.choice c) (items.drop f.index)) fun _ => Place.Stands := by
  have hcollect := Steps.tending (P := P) (A := Faces n f below items)
    (R := fun a => a.2 = (choiceRun (items.drop f.index)).length ∧ ∀ c ∈ a.1, c ∈ choiceRun (items.drop f.index))
    (.collectChoices hh (items.drop f.index)) (fun w a w' _ h => collectChoices_ok h) fun p h => h.1.stands
  refine hcollect.bind fun ⟨live, run⟩ => ?_
  have hskip : Steps P (fun p => Faces n f below items p ∧
        run = (choiceRun (items.drop f.index)).length ∧ ∀ c ∈ live, c ∈ choiceRun (items.drop f.index))
      (modifyRunner fun r => r.skip run : Play σ μ Unit)
      fun _ p => Walks n (f.skip run) below p ∧ ∀ c ∈ live, (f.skip run).Holds p.memo (.choice c) :=
    steps_skip (Q := fun m => ∀ c ∈ live, (f.skip run).Holds m (.choice c)) fun p ⟨⟨hw, hitems⟩, hrun, hlive⟩ =>
      ⟨hw, hrun ▸ Frame.within_choiceRun hitems hi, fun c hc => hrun ▸ Frame.holds_choiceRun hitems (hlive c hc)⟩
  refine hskip.bind fun _ => .ite (fun _ => ?_) fun _ => ?_
  · exact (Steps.tending' (.log hh _ _ _) fun p h => h.1.stands).bind fun _ => .pure fun p h => h.1.stands
  · have hmenu : ∀ p, Walks n (f.skip run) below p ∧ (∀ c ∈ live, (f.skip run).Holds p.memo (.choice c)) →
        ({ p with menu := live } : Place).Stands :=
      fun p h => ⟨n, h.1.placed, fun c hc => ⟨_, _, h.1.stack, h.2 c hc⟩⟩
    exact (steps_openMenu hh hmenu).bind fun _ => .pure fun _ h => h

theorem steps_actLine {l : Line} (hi : items[f.index]? = some (.line l)) (following : List Content) :
    Steps P (Faces n f below items) (act host (.line l) following) fun _ => Place.Stands := by
  have hskip : Steps P (Faces n f below items) (modifyRunner fun r => r.skip 1 : Play σ μ Unit)
      fun _ p => Walks n (f.skip 1) below p ∧ True :=
    steps_skip (Q := fun _ => True) fun p h => ⟨h.1, within_next h hi, trivial⟩
  refine hskip.bind fun _ => (steps_display hh l fun p h => h.1.stands).bind fun _ => .get fun w => .runner fun r _ _ => ?_
  refine .ite (fun _ => ?_) fun _ => .pure fun p h => h.1.1.stands
  exact ((steps_advanceToChoices hh).mono (fun p h => h.1.1) fun _ _ h => h).bind fun _ => .pure fun _ h => h

theorem steps_getNode {A : Place → Prop} (name : String) (h : ∀ p, A p → p.Stands) :
    Steps P A (getNode name : Play σ μ Node) fun n p => A p ∧ n.Parsed :=
  .tending (.getNode hh name) (fun _ n _ hw hn => hw.parsed _ n (getNode_ok hn).1) h

/-- Whatever the item is, acting on it leads to where the runner stands well again. -/
theorem steps_act {item : Content} (hi : items[f.index]? = some item) :
    Steps P (Faces n f below items) (act host item (items.drop f.index)) fun _ => Place.Stands := by
  have hstands : ∀ p, Faces n f below items p → p.Stands := fun p h => h.1.stands
  cases item with
  | condition c =>
    have hpush : Steps P (Faces n f below items) (modifyRunner fun r => (r.skip 1).push (.condition c) : Play σ μ Unit)
        fun _ => Place.Stands := by
      refine .modifyRunner (fun r => r.busy_skip 1) (fun r h => .inl ((r.session_skip 1).trans h)) fun r h => .inr ?_
      rw [Runner.skip_cons h.1.stack]
      exact Place.stands_of_menu (h.1.placed'.pushCondition h.2 hi) h.1.menu
    exact hpush.bind fun _ => .pure fun _ h => h
  | choice c => exact steps_actChoice hh hi
  | line l => exact steps_actLine hh hi _
  | command c pos =>
    have hskip : Steps P (Faces n f below items) (modifyRunner fun r => r.skip 1 : Play σ μ Unit)
        fun _ => Place.Stands :=
      (steps_skip (Q := fun _ => True) fun p h => ⟨h.1, within_next h hi, trivial⟩).mono (fun _ h => h)
        fun _ _ h => h.1.stands
    have hobey {c : Command} : Steps P (Faces n f below items) (obey host c pos.line) fun _ => Place.Stands := by
      refine (Steps.tending' (.execute hh c pos.line) hstands).bind fun target => ?_
      split
      · refine (steps_getNode hh _ hstands).bind fun n => ?_
        exact (steps_enterNode hh fun _ h => h.2.nodup).bind fun _ => .pure fun _ h => h
      · exact hskip.bind fun _ => .pure fun _ h => h
    cases c with
    | wait e =>
      refine (Steps.tending' (.waitDuration hh e pos.line) hstands).bind fun duration => ?_
      have hwait : Steps P (Faces n f below items)
          (modifyRunner fun r => { r.skip 1 with wait := some duration } : Play σ μ Unit) fun _ => Place.Stands := by
        refine .modifyRunner (fun r => r.busy_skip 1) (fun r h => .inl ((r.session_skip 1).trans h)) fun r h => .inr ?_
        have hw := h.1.skip (within_next h hi)
        exact Place.stands_of_menu (p := ⟨_, _, _, _, _⟩) hw.placed hw.menu
      refine hwait.bind fun _ => ?_
      exact (Steps.tending' (.publish hh _) fun _ h => h).bind fun _ => .pure fun _ h => h
    | assign | call | jump => exact hobey

end

theorem steps_stepOnce :
    Steps P (fun p => p.Stands ∧ p.menu = []) (stepOnce host) fun _ => Place.Stands := by
  refine .runner fun r _ hr => ?_
  cases hs : r.stack with
  | nil => exact (steps_complete hh).bind fun _ => .pure fun _ h => h
  | cons f below =>
    have hwalk {n : Node} : Steps P (Walks n f below) (frameItems host f >>= actIn host f) fun _ => Place.Stands := by
      refine (steps_frameItems hh).bind fun items => ?_
      unfold actIn
      split
      · exact (steps_leaveFrame hh).mono (fun p h => h.1) fun _ _ h => h
      · next item hitem =>
        obtain ⟨items, rfl, hi⟩ := Option.bind_eq_some_iff.1 hitem
        exact steps_act hh hi
    rcases hr with hr | ⟨⟨n, hn, -⟩, hmenu⟩
    · refine .live ((hwalk (n := default)).mono (fun p h => ?_) fun _ _ h => h)
      exact absurd h.2 (by simp [show p.session = none from (congrArg Place.session h.1.2).trans hr])
    · refine (hwalk (n := n)).mono (fun p h => ?_) fun _ _ h => h
      rw [h.2]
      exact ⟨hn, hs, hmenu⟩

theorem steps_advanceFrom (fuel steps : Nat) :
    Steps P Place.Stands (advanceFrom host fuel steps) fun _ => Place.Stands := by
  induction fuel generalizing steps with
  | zero => exact .throw fun _ h => h
  | succ fuel ih =>
    refine .runner fun r _ hr => .ite (fun _ => .pure fun _ h => h.1) fun hgo => ?_
    simp only [not_or, Bool.not_eq_true, Bool.not_eq_false', List.isEmpty_iff] at hgo
    refine .get fun w => .ite (fun _ => ?_) fun _ => ?_
    · exact (Steps.tending' (tending_failLimit hh _) fun p h => h.1).mono (fun _ h => h) fun _ _ h => h.1
    · refine ((steps_stepOnce hh).mono (fun p h => ⟨h.1, ?_⟩) fun _ _ h => h).bind fun stop => ?_
      · rw [h.2]; exact hgo.2
      · exact .ite (fun _ => .pure fun _ h => h) fun _ => ih _

theorem steps_advance : Steps P Place.Stands (advance host) fun _ => Place.Stands := by
  have hwait : Steps P Place.Stands (modifyRunner fun r => { r with wait := none } : Play σ μ Unit)
      fun _ => Place.Stands :=
    .modifyRunner (fun _ => rfl) (fun _ h => .inl h) fun r h => .inr h
  exact hwait.bind fun _ => .get fun w => steps_advanceFrom hh _ _

end Play
end
end Parley
