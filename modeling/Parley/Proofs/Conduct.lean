import Parley.Proofs.Stretches
import Parley.Proofs.Midstep

/-! # Stepping is a stretch

`Goes hosts A x B`: from a place with `A`, in the middle of a step, `x` goes to one with `B`, or fails, and all that
happens on the way is a stretch. Nothing is evaluated between a look at the place and a move from there that could end
the session, since functions are modest; notices come after the moves, so whatever their handlers do, the runner is
then where the step has left it or without a session. -/

namespace Parley
variable {σ μ : Type}

theorem Act.of_shift {hosts : Nat → Host σ μ} {w v : World σ μ} (hv : w.SamePlaces v)
    (hparsed : ∀ name n, v.nodes.get? name = some n → n.Parsed) {r : Runner} (hr : Shift hosts w r.place) :
    Act hosts w (v.withRunner r) := by
  refine ⟨hparsed, .inr ⟨r.place, hr, fun s => ?_⟩⟩
  rw [World.place?_withRunner, hv.seat]
  split
  · rfl
  · exact hv.places s

namespace World
variable {hosts : Nat → Host σ μ} {w₀ w v : World σ μ}

/-- On a stretch, and sound. -/
structure Going (hosts : Nat → Host σ μ) (w₀ w : World σ μ) : Prop where
  stretch : Stretch hosts w₀ w
  sound : w.Sound

namespace Going

theorem act (h : w₀.Going hosts w) (hact : Act hosts w v) : w₀.Going hosts v :=
  ⟨h.stretch.tail hact, hact.sound h.sound⟩

theorem still (h : w₀.Going hosts w) (hplaces : ∀ s, v.place? s = w.place? s)
    (hparsed : ∀ name n, v.nodes.get? name = some n → n.Parsed) : w₀.Going hosts v :=
  h.act ⟨hparsed, .inl hplaces⟩

theorem stay (h : w₀.Going hosts w) {r : Runner} (hr : r.place = w.runner.place) : w₀.Going hosts (w.withRunner r) := by
  refine h.still (fun s => ?_) h.sound.parsed
  rw [place?_withRunner]
  split
  · next hs => rw [hs, place?_seat, hr]
  · rfl

theorem move (h : w₀.Going hosts w) {r : Runner} (hr : Move w.runner.place r.place) : w₀.Going hosts (w.withRunner r) :=
  h.act (Act.of_shift (.refl w) h.sound.parsed (.moved hr))

theorem turnTo (h : w₀.Going hosts w) (seat : Nat) : w₀.Going hosts (w.turnTo seat) := by
  refine h.still (fun s => ?_) ?_
  · rw [place?, place?, at?_turnTo]
  · rw [nodes_turnTo]; exact h.sound.parsed

end Going

/-- And the runner in front is in the middle of a step. -/
structure Afoot (hosts : Nat → Host σ μ) (w₀ w : World σ μ) : Prop extends World.Going hosts w₀ w where
  busy : w.runner.busy = true

end World

/-- What moves no runner, and tends, is a stretch. -/
theorem Staying.going {α : Type} {x : Play σ μ α} (hx : Staying x) (ht : Tending (fun _ => True) x)
    (hosts : Nat → Host σ μ) (w₀ : World σ μ) : Upholds (w₀.Going hosts) (fun _ => True) x := fun w hw =>
  wp_mono (wp_and (hx.wp w) (ht.wp hw.sound.inOrder)) (fun _ _ h => hw.still h.1.places h.2.order.parsed)
    fun _ _ h => ⟨hw.still h.1.places h.2.order.parsed, trivial⟩

def Goes {α : Type} (hosts : Nat → Host σ μ) (A : Place → Prop) (x : Play σ μ α) (B : α → Place → Prop) : Prop :=
  Carries (World.Afoot hosts) (fun w₀ _ => World.Afoot hosts w₀) (fun r => A r.place) x fun a r => B a r.place

namespace Goes
variable {α β : Type} {hosts : Nat → Host σ μ} {A A' B : Place → Prop} {x : Play σ μ α} {f : α → Play σ μ β}
  {C C' : α → Place → Prop} {D : β → Place → Prop}

theorem mono (h : Goes hosts A x C) (hA : ∀ p, A' p → A p) (hC : ∀ a p, C a p → C' a p) : Goes hosts A' x C' :=
  Carries.mono h (fun r => hA r.place) fun a r => hC a r.place

theorem bind (hx : Goes hosts A x C) (hf : ∀ a, Goes hosts (C a) (f a) D) : Goes hosts A (x >>= f) D :=
  Carries.bind hx hf

theorem pure {a : α} (h : ∀ p, A p → C a p) : Goes hosts A (pure a : Play σ μ α) C := Carries.pure fun r => h r.place

theorem throw {e : Fault} : Goes hosts A (throw e : Play σ μ α) C := Carries.throw fun hw => hw

theorem ite {c : Prop} [Decidable c] {y : Play σ μ α} (hx : c → Goes hosts A x C) (hy : ¬c → Goes hosts A y C) :
    Goes hosts A (if c then x else y) C :=
  Carries.ite hx hy

theorem get {g : World σ μ → Play σ μ β} (h : ∀ w, Goes hosts A (g w) D) : Goes hosts A (get >>= g) D := Carries.get h

theorem settled (h : Goes hosts (fun p => A p ∧ p.Settled) x C) : Goes hosts A x C :=
  fun _ _ hw hA => h hw ⟨hA, hw.sound.front⟩

/-- What `A` says apart from the place may be used throughout. -/
theorem given {φ : Prop} (hA : ∀ p, A p → φ) (h : φ → Goes hosts A x C) : Goes hosts A x C :=
  Carries.given (fun r => hA r.place) h

/-- A stretch in which nothing moves, with the results that it can have. -/
theorem staying_of {R : α → Prop} (hx : Staying x) (ht : Tending (fun _ => True) x)
    (hR : ∀ w a v, World.Sound w → x w = .ok a v → R a) : Goes hosts A x fun a p => A p ∧ R a := by
  intro w₀ w hw hA
  have hstay := wp_and (hx.wp w) (ht.wp hw.sound.inOrder)
  have hafoot {v : World σ μ} (h : w.SamePlaces v ∧ w.Tends (fun _ => True) v) : w₀.Afoot hosts v := by
    refine ⟨hw.still h.1.places h.2.order.parsed, ?_⟩
    obtain ⟨r, hr, hbusy, -⟩ := h.2.busy w.seat w.runner w.at?_seat hw.busy
    rw [← h.1.seat, World.at?_seat] at hr
    cases hr
    exact hbusy
  unfold wp at hstay ⊢
  cases hr : x w with
  | ok a v =>
    rw [hr] at hstay
    refine ⟨hafoot hstay, ?_, hR w a v hw.sound hr⟩
    rw [hstay.1.place]
    exact hA
  | error f v => rw [hr] at hstay; exact hafoot hstay

theorem staying (hx : Staying x) (ht : Tending (fun _ => True) x) : Goes hosts A x fun _ => A :=
  (staying_of (R := fun _ => True) hx ht fun _ _ _ _ _ => trivial).mono (fun _ h => h) fun _ _ h => h.1

/-- Handlers may have ended the session, but not gone on with it. -/
theorem interrupted (hx : ∀ w₀ : World σ μ, Upholds (w₀.Going hosts) (fun _ => True) x) (ht : Tending (fun _ => True) x)
    (hA : ∀ p, p.Empty → A p) : Goes hosts A x fun _ => A := by
  intro w₀ w hw hp
  have hafoot {v : World σ μ} (h : w₀.Going hosts v ∧ w.Tends (fun _ => True) v) :
      w₀.Afoot hosts v ∧ A v.runner.place := by
    obtain ⟨r, hr, hbusy, hplace⟩ := h.2.busy w.seat w.runner w.at?_seat hw.busy
    rw [← h.2.seat, World.at?_seat] at hr
    cases hr
    refine ⟨⟨h.1, hbusy⟩, ?_⟩
    rcases hplace with hnone | hplace
    · exact hA _ (h.1.sound.front.empty hnone)
    · rw [hplace]; exact hp
  exact wp_mono (wp_and (hx w₀ hw.toGoing) (ht.wp hw.sound.inOrder)) (fun _ _ h => hafoot h)
    fun _ _ h => (hafoot ⟨h.1.1, h.2⟩).1

/-- The same, with no more said about the place. -/
theorem upheld (hx : ∀ w₀ : World σ μ, Upholds (w₀.Going hosts) (fun _ => True) x) (ht : Tending (fun _ => True) x) :
    Goes hosts A x fun _ _ => True :=
  (interrupted (A := fun _ => True) hx ht fun _ _ => trivial).mono (fun _ _ => trivial) fun _ _ h => h

theorem log (level : LogLevel) (channel : LogChannel) (message : String) :
    Goes hosts A (Play.log level channel message : Play σ μ Unit) fun _ => A :=
  fun _ _ hw hA => ⟨⟨hw.still (fun _ => rfl) hw.sound.parsed, hw.busy⟩, hA⟩

theorem move {g : Runner → Runner} (hb : ∀ r, (g r).busy = r.busy)
    (h : ∀ r : Runner, A r.place → Move r.place (g r).place ∧ B (g r).place) :
    Goes hosts A (Play.modifyRunner g : Play σ μ Unit) fun _ => B :=
  fun _ _ hw hA => ⟨⟨hw.move (h _ hA).1, (hb _).trans hw.busy⟩, (h _ hA).2⟩

theorem runner {g : Runner → Play σ μ β}
    (h : ∀ r : Runner, r.place.Settled → A r.place → Goes hosts (fun p => A p ∧ p = r.place) (g r) D) :
    Goes hosts A (Play.runner >>= g) D :=
  fun _ w hw hA => h w.runner hw.sound.front hA hw ⟨hA, rfl⟩

end Goes

/-- Functions drive no runner, host code tends, and what the handlers of this depth do is a stretch. -/
structure Nesting (hosts : Nat → Host σ μ) (depth : Nat) : Prop where
  modest : ∀ depth, (hosts depth).Modest
  tends : ∀ depth, (hosts depth).Tends fun _ => True
  handle : ∀ (w₀ : World σ μ) seat h n, Upholds (w₀.Going hosts) (fun _ => True) ((hosts depth).handle seat h n)

namespace Nesting
variable {hosts : Nat → Host σ μ} {depth : Nat} (hn : Nesting hosts depth)
include hn

theorem upkeep (w₀ : World σ μ) : Upkeep (hosts depth) Node.Parsed (w₀.Going hosts) fun _ => True where
  own _ _ := trivial
  noting h _ _ := h.still (fun _ => rfl) h.sound.parsed
  custom h _ _ := h.still (fun _ => rfl) h.sound.parsed
  withVars h _ := h.still (fun _ => rfl) h.sound.parsed
  withFunctions h _ := h.still (fun _ => rfl) h.sound.parsed
  withBus h _ := h.stay rfl
  configured {w} h c := by
    unfold World.setRunnerConfig
    split
    · exact h.stay rfl
    · exact h.still (fun _ => rfl) h.sound.parsed
  putNode {w} h n hn := by
    refine h.still (fun _ => rfl) fun name m hm => ?_
    rw [Table.get?_put] at hm
    split at hm
    · cases hm; exact hn
    · exact h.sound.parsed name m hm
  noNodes h := h.still (fun _ => rfl) fun _ _ hm => by cases hm
  read hd := ((hn.modest depth).read hd).going ((hn.tends depth).read hd) hosts w₀
  write hd v := ((hn.modest depth).write hd v).going ((hn.tends depth).write hd v) hosts w₀
  call hd args := ((hn.modest depth).call hd args).going ((hn.tends depth).call hd args) hosts w₀
  callRaw hd args := ((hn.modest depth).callRaw hd args).going ((hn.tends depth).callRaw hd args) hosts w₀
  handle := hn.handle w₀

theorem going_publish (n : Notice) (w₀ : World σ μ) :
    Upholds (w₀.Going hosts) (fun _ => True) (Play.publish (hosts depth) n) :=
  Play.upholds_publish (hn.upkeep w₀) fun h => h.still (fun _ => rfl) h.sound.parsed

variable {A : Place → Prop}

theorem publish (n : Notice) (hA : ∀ p, p.Empty → A p) : Goes hosts A (Play.publish (hosts depth) n) fun _ => A :=
  .interrupted (hn.going_publish n) (.publish (hn.tends depth) n) hA

theorem announce (n : Notice) : Goes hosts A (Play.publish (hosts depth) n) fun _ _ => True :=
  .upheld (hn.going_publish n) (.publish (hn.tends depth) n)

theorem going_complete (w₀ : World σ μ) : Upholds (w₀.Going hosts) (fun _ => True) (Play.complete (hosts depth)) := by
  have hreset : Upholds (w₀.Going hosts) (fun _ => True) (Play.modifyRunner Runner.reset : Play σ μ Unit) :=
    .modify fun _ h => h.move .ended
  refine .runner fun r => hreset.bind fun _ => (Play.upholds_log (hn.upkeep w₀) ..).bind fun _ => ?_
  exact (hn.going_publish _ w₀).bind fun _ => .pure _

theorem complete : Goes hosts A (Play.complete (hosts depth)) fun _ _ => True :=
  .upheld hn.going_complete (Play.tending_complete (hn.tends depth))

theorem enterNode {n : Node} (hnode : (contentKeys n.content).Nodup) :
    Goes hosts (fun p => p.session.isSome) (Play.enterNode (hosts depth) n) fun _ _ => True := by
  have henter : Goes hosts (fun p => p.session.isSome)
      (Play.modifyRunner fun r => { r with stack := [⟨.node n, 0⟩], memo := [], menu := [] } : Play σ μ Unit)
      fun _ _ => True :=
    .move (fun _ => rfl) fun r hlive => ⟨.entered hlive hnode, trivial⟩
  refine henter.bind fun _ => (Goes.log _ _ _).bind fun _ => ?_
  exact (hn.announce _).bind fun _ => .pure fun _ h => h

theorem getNode (name : String) :
    Goes hosts A (Play.getNode name : Play σ μ Node) fun n p => A p ∧ (contentKeys n.content).Nodup := by
  have hstay : Staying (Play.getNode name : Play σ μ Node) := fun w =>
    Play.upholds_getNode ((hn.modest depth).upkeep w) name
  exact .staying_of hstay (.getNode (hn.tends depth) name) fun w n _ hw hnode =>
    (hw.parsed _ n (getNode_ok hnode).1).nodup

omit hn in
theorem popFrame {f g : Frame} {below : List Frame} :
    Goes hosts (fun p => p.stack = f :: g :: below ∧ p.menu = []) (Play.popFrame : Play σ μ Unit) fun _ _ => True := by
  refine .runner fun r _ hr => ?_
  rw [show r.stack = f :: g :: below from hr.1]
  refine .move (fun _ => rfl) fun r' hr' => ⟨?_, trivial⟩
  exact .popped hr'.1.1 hr'.1.2

/-- Leaving the last frame ends the session. -/
theorem leaveFrame {f : Frame} {below : List Frame} :
    Goes hosts (fun p => p.stack = f :: below ∧ p.menu = []) (Play.leaveFrame (hosts depth)) fun _ _ => True := by
  refine .runner fun r _ hr => .ite (fun _ => ?_) fun hlength => ?_
  · exact hn.complete.bind fun _ => .pure fun _ h => h
  · cases below with
    | nil => exact absurd (congrArg List.length hr.1) hlength
    | cons g below => exact (popFrame.mono (fun _ h => h.1) fun _ _ h => h).bind fun _ => .pure fun _ h => h

/-- The condition in front has chosen a branch. -/
theorem decided {w₀ w v : World σ μ} {c : Condition} {i : Nat} {below : List Frame} {b : Branching}
    (hw : w₀.Going hosts w) (hstack : w.runner.stack = ⟨.condition c, i⟩ :: below) (hmenu : w.runner.menu = [])
    (hnone : w.runner.memo.lookup c.key = none) (h : Play.selectBranch (hosts depth) c w = .ok b v) :
    w₀.Going hosts (v.withRunner { v.runner with memo := v.runner.memo.record c.key b }) := by
  have hv := (Play.staying_selectBranch (hn.modest depth) c).ok h
  have htends := (wp_ok h).1 ((Tending.selectBranch (hn.tends depth) c).wp hw.sound.inOrder)
  refine hw.act (.of_shift hv htends.order.parsed ?_)
  have hshift := Shift.decided hstack hmenu hnone h
  rw [← hv.place, show w.runner.memo = v.runner.memo from (congrArg Place.memo hv.place).symm] at hshift
  exact hshift

/-- A condition that has no branch on record chooses one. -/
theorem choosing {n : Node} {f : Frame} {below : List Frame} {c : Condition} (hc : f.container = .condition c) :
    Goes hosts (fun p => Walks n f below p ∧ p.memo.lookup c.key = none)
      (do
        let b ← Play.selectBranch (hosts depth) c
        Play.modifyRunner fun r => { r with memo := r.memo.record c.key b }
        return c.contentIn b)
      fun items p => Walks n f below p ∧ f.items p.memo = items := by
  intro w₀ w hw ⟨hwalk, hnone⟩
  have hstack : w.runner.stack = ⟨.condition c, f.index⟩ :: below := by
    rw [← hc]; exact hwalk.stack
  have hstay := Play.staying_selectBranch (hn.modest depth) c
  have htends := Tending.selectBranch (hn.tends depth) c
  have hafoot := (Goes.staying (A := Walks n f below) hstay htends) hw hwalk
  rw [wp_bind]
  unfold wp at hafoot ⊢
  cases hselect : Play.selectBranch (hosts depth) c w with
  | error e v => rw [hselect] at hafoot; exact hafoot
  | ok b v =>
    rw [hselect] at hafoot
    have hwalk' : Walks n f below v.runner.place := hafoot.2
    have hmemo : v.runner.memo = w.runner.memo := congrArg Place.memo (hstay.ok hselect).place
    have hnone' : v.runner.memo.lookup c.key = none := by rw [hmemo]; exact hnone
    have hdecided := hn.decided hw.toGoing hstack hwalk.menu hnone hselect
    refine ⟨⟨hdecided, hafoot.1.busy⟩, ⟨?_, hwalk'.stack, hwalk'.menu⟩, ?_⟩
    · show Placed n v.runner.stack (v.runner.memo.record c.key b)
      rw [show v.runner.stack = f :: below from hwalk'.stack]
      exact hwalk'.placed'.record hc hnone' b
    · show f.items (v.runner.memo.record c.key b) = _
      simp [Frame.items, hc, Memo.lookup_record]

theorem frameItems {n : Node} {f : Frame} {below : List Frame} :
    Goes hosts (Walks n f below) (Play.frameItems (hosts depth) f)
      fun items p => Walks n f below p ∧ f.items p.memo = items := by
  unfold Play.frameItems
  split
  · next n' hc => exact .pure fun p h => ⟨h, by rw [Frame.items, hc]⟩
  · next c hc => exact .pure fun p h => ⟨h, by rw [Frame.items, hc]⟩
  · next c hc =>
    refine .runner fun r _ hr => ?_
    split
    · next b hb =>
      refine .pure fun p h => ⟨h.1, ?_⟩
      rw [Frame.items, hc, h.2]
      exact congrArg (·.bind c.contentIn) hb
    · next hb => exact (hn.choosing hc).mono (fun p h => ⟨h.1, by rw [h.2]; exact hb⟩) fun _ _ h => h

/-- The choices stand right before the position of the frame in front. -/
theorem openMenu {choices : List Choice} :
    Goes hosts (fun p => ∀ c ∈ choices, ∃ f below, p.stack = f :: below ∧ f.Holds p.memo (.choice c))
      (Play.openMenu (hosts depth) choices) fun _ _ => True := by
  have hmenu : Goes hosts (fun p => ∀ c ∈ choices, ∃ f below, p.stack = f :: below ∧ f.Holds p.memo (.choice c))
      (Play.modifyRunner fun r => { r with menu := choices } : Play σ μ Unit) fun _ _ => True :=
    .move (fun _ => rfl) fun r h => ⟨.opened h, trivial⟩
  have htexts : Goes hosts (fun _ => True) (Play.renderAll (hosts depth) choices) fun _ _ => True :=
    .upheld (fun w₀ => Play.upholds_renderAll (hn.upkeep w₀) choices) (.renderAll (hn.tends depth) choices)
  refine hmenu.bind fun _ => htexts.bind fun texts => ?_
  exact (hn.announce _).bind fun _ => .pure fun _ h => h

/-- The runner has come to where it is to take over a walk ahead. -/
theorem advanceToChoices {w₀ w : World σ μ} (hw : w₀.Afoot hosts w) (hauto : w.runnerConfig.autoChoices)
    (hlive : w.runner.session.isSome) (hmenu : w.runner.menu = []) :
    wp (Play.advanceToChoices (hosts depth)) (fun _ => w₀.Afoot hosts) (fun _ => w₀.Afoot hosts) w := by
  have hstay := Play.staying_scan (hn.modest depth)
  have htends := Play.tending_scan (hn.tends depth)
  have hafoot := (Goes.staying (A := fun _ => True) hstay htends) hw trivial
  obtain ⟨n, hplaced, -⟩ := hw.sound.front.stands hlive
  rw [Play.advanceToChoices, wp_bind]
  unfold wp at hafoot ⊢
  cases hscan : Play.scan (hosts depth) w with
  | error e v => rw [hscan] at hafoot; exact hafoot
  | ok a v =>
    rw [hscan] at hafoot
    have hv := hstay.ok hscan
    have hleads : a.Leads n := Play.scanFrom_leads hplaced.nodup hplaced.stacked hscan
    change wp (if a.kind = .choice then _ else _) _ _ v
    split
    · have hplace : (v.runner.adopt a).place = (w.runner.adopt a).place := by
        simp only [Runner.adopt, Runner.place, show v.runner.menu = w.runner.menu from congrArg Place.menu hv.place,
          show v.runner.session = w.runner.session from congrArg Place.session hv.place,
          show v.runner.wait = w.runner.wait from congrArg Place.wait hv.place]
      have hadopted : w₀.Afoot hosts (v.withRunner (v.runner.adopt a)) := by
        refine ⟨hw.act (.of_shift hv hafoot.1.sound.parsed ?_), hafoot.1.busy⟩
        rw [hplace]
        exact .adopted hlive hmenu ⟨hauto, depth, v, hscan⟩
      exact wp_mono (hn.openMenu hadopted (hleads.adopt hplaced.nodup v.runner).2) (fun _ _ h => h.1) fun _ _ h => h
    · exact hafoot.1

section
variable {n : Node} {f : Frame} {below : List Frame} {items : List Content}

omit hn in
theorem skip {count : Nat} {Q : Memo → Prop}
    (hA : ∀ p, A p → Walks n f below p ∧ (f.skip count).Within p.memo ∧ Q p.memo) :
    Goes hosts A (Play.modifyRunner fun r => r.skip count : Play σ μ Unit)
      fun _ p => Walks n (f.skip count) below p ∧ Q p.memo := by
  refine .move (fun r => r.busy_skip count) fun r h => ?_
  obtain ⟨hwalk, hwithin, hq⟩ := hA _ h
  refine ⟨?_, hwalk.skip hwithin, ?_⟩
  · rw [Runner.skip_cons hwalk.stack]
    exact .skipped hwalk.stack hwalk.menu hwithin
  · rwa [show (r.skip count).place.memo = r.memo from r.memo_skip count]

omit hn in
theorem next {item : Content} (hi : items[f.index]? = some item) :
    Goes hosts (Play.Faces n f below items) (Play.modifyRunner fun r => r.skip 1 : Play σ μ Unit)
      fun _ => Walks n (f.skip 1) below :=
  (skip (Q := fun _ => True) fun _ h => ⟨h.1, Play.within_next h hi, trivial⟩).mono (fun _ h => h) fun _ _ h => h.1

theorem actChoice {c : Choice} (hi : items[f.index]? = some (.choice c)) :
    Goes hosts (Play.Faces n f below items) (Play.act (hosts depth) (.choice c) (items.drop f.index))
      fun _ _ => True := by
  have hcollect : Goes hosts (Play.Faces n f below items) (Play.collectChoices (hosts depth) (items.drop f.index))
      fun a p => Play.Faces n f below items p ∧
        a.2 = (choiceRun (items.drop f.index)).length ∧ ∀ c ∈ a.1, c ∈ choiceRun (items.drop f.index) :=
    .staying_of (Play.staying_collectChoices (hn.modest depth) _) (.collectChoices (hn.tends depth) _)
      fun _ _ _ _ h => collectChoices_ok h
  refine hcollect.bind fun ⟨live, run⟩ => .given (fun _ h => h.2) fun ⟨hrun, hlive⟩ => ?_
  change run = _ at hrun
  subst hrun
  refine (skip (Q := fun m => ∀ c ∈ live, (f.skip _).Holds m (.choice c)) fun p h => ⟨h.1.1,
    Frame.within_choiceRun h.1.2 hi, fun c hc => Frame.holds_choiceRun h.1.2 (hlive c hc)⟩).bind fun _ => ?_
  refine .ite (fun _ => ?_) fun _ => ?_
  · exact (Goes.log _ _ _).bind fun _ => .pure fun _ _ => trivial
  · refine (hn.openMenu.mono (fun p h c hc => ?_) fun _ _ h => h).bind fun _ => .pure fun _ h => h
    exact ⟨_, _, h.1.stack, h.2 c hc⟩

theorem display (l : Line) (hA : ∀ p, p.Empty → A p) : Goes hosts A (Play.display (hosts depth) l) fun _ => A := by
  have htext : Goes hosts A (Play.render (hosts depth) l.text) fun _ => A :=
    .interrupted (fun w₀ => Play.upholds_render (hn.upkeep w₀) l.text) (.render (hn.tends depth) l.text) hA
  exact htext.bind fun text => (hn.publish _ hA).bind fun _ => .pure fun _ h => h

/-- After the line the session is looked at again, and so is whether menus are opened at once. -/
theorem actLine {l : Line} (hi : items[f.index]? = some (.line l)) (following : List Content) :
    Goes hosts (Play.Faces n f below items) (Play.act (hosts depth) (.line l) following) fun _ _ => True := by
  have hshown : Goes hosts (Walks n (f.skip 1) below) (Play.display (hosts depth) l) fun _ p => p.menu = [] :=
    (hn.display l (A := fun p => p.menu = []) fun _ h => h.menu).mono (fun _ h => h.menu) fun _ _ h => h
  refine (next hi).bind fun _ => hshown.bind fun _ w₀ w hw hmenu => ?_
  change wp (if w.runnerConfig.autoChoices ∧ w.runner.session.isSome then do
      let _ ← Play.advanceToChoices (hosts depth)
      return true
    else return true) _ _ w
  rw [wp_ite]
  split
  · next hgo =>
    rw [wp_bind]
    exact wp_mono (hn.advanceToChoices hw hgo.1 hgo.2 hmenu) (fun _ _ h => ⟨h, trivial⟩) fun _ _ h => h
  · exact ⟨hw, trivial⟩

theorem obey (c : Command) (line : Int) {item : Content} (hi : items[f.index]? = some item) :
    Goes hosts (Play.Faces n f below items) (Play.obey (hosts depth) c line) fun _ _ => True := by
  have hexecute : Goes hosts (Play.Faces n f below items) (Play.execute (hosts depth) c line)
      fun _ => Play.Faces n f below items :=
    .staying (Play.staying_execute (hn.modest depth) c line) (.execute (hn.tends depth) c line)
  refine hexecute.bind fun target => ?_
  split
  · refine (hn.getNode _).bind fun n' => .given (fun _ h => h.2) fun hnode => ?_
    have henter : Goes hosts (Play.Faces n f below items) (Play.enterNode (hosts depth) n') fun _ _ => True :=
      .settled ((hn.enterNode hnode).mono (fun p h => (h.2.of_stack h.1.1.stack).1) fun _ _ h => h)
    exact (henter.mono (fun _ h => h.1) fun _ _ h => h).bind fun _ => .pure fun _ h => h
  · exact (next hi).bind fun _ => .pure fun _ _ => trivial

theorem act {item : Content} (hi : items[f.index]? = some item) :
    Goes hosts (Play.Faces n f below items) (Play.act (hosts depth) item (items.drop f.index)) fun _ _ => True := by
  cases item with
  | condition c =>
    have hpush : Goes hosts (Play.Faces n f below items)
        (Play.modifyRunner fun r => (r.skip 1).push (.condition c) : Play σ μ Unit) fun _ _ => True := by
      refine .move (fun r => r.busy_skip 1) fun r h => ⟨?_, trivial⟩
      rw [Runner.skip_cons h.1.stack]
      exact .pushed h.1.stack h.1.menu h.2 hi
    exact hpush.bind fun _ => .pure fun _ h => h
  | choice c => exact hn.actChoice hi
  | line l => exact hn.actLine hi _
  | command c pos =>
    cases c with
    | wait e =>
      have hduration : Goes hosts (Play.Faces n f below items) (Play.waitDuration (hosts depth) e pos.line)
          fun _ => Play.Faces n f below items :=
        .staying (Play.staying_waitDuration (hn.modest depth) e pos.line) (.waitDuration (hn.tends depth) e pos.line)
      refine hduration.bind fun duration => ?_
      have hwait : Goes hosts (Play.Faces n f below items)
          (Play.modifyRunner fun r => { r.skip 1 with wait := some duration } : Play σ μ Unit) fun _ _ => True := by
        refine .move (fun r => r.busy_skip 1) fun r h => ⟨?_, trivial⟩
        rw [Runner.skip_cons h.1.stack]
        exact .skipped h.1.stack h.1.menu (Play.within_next h hi)
      exact hwait.bind fun _ => (hn.announce _).bind fun _ => .pure fun _ h => h
    | assign | call | jump => exact hn.obey _ _ hi

end

theorem stepOnce :
    Goes hosts (fun p => p.session.isSome ∧ p.menu = []) (Play.stepOnce (hosts depth)) fun _ _ => True := by
  refine .runner fun r hsettled hr => ?_
  obtain ⟨n, hplaced, -⟩ := hsettled.stands hr.1
  cases hstack : r.stack with
  | nil => rw [show r.place.stack = [] from hstack] at hplaced; cases hplaced.stacked
  | cons f below =>
    have hitems : Goes hosts (fun p => (p.session.isSome ∧ p.menu = []) ∧ p = r.place) (Play.frameItems (hosts depth) f)
        fun items p => Walks n f below p ∧ f.items p.memo = items := by
      refine hn.frameItems.mono (fun p h => ?_) fun _ _ h => h
      rw [h.2]
      exact ⟨hplaced, hstack, hr.2⟩
    refine hitems.bind fun items => ?_
    unfold Play.actIn
    split
    · exact hn.leaveFrame.mono (fun p h => ⟨h.1.stack, h.1.menu⟩) fun _ _ h => h
    · next item hitem =>
      obtain ⟨items, rfl, hi⟩ := Option.bind_eq_some_iff.1 hitem
      exact hn.act hi

theorem failLimit {α : Type} {C : α → Place → Prop} (limit : Nat) :
    Goes hosts A (Play.failLimit limit : Play σ μ α) C := by
  intro w₀ w hw hA
  have hstay := (Goes.staying (A := A) (Play.staying_failLimit (α := α) (hn.modest depth) limit)
    (Play.tending_failLimit (hn.tends depth) limit)) hw hA
  unfold wp at hstay ⊢
  cases hr : (Play.failLimit limit : Play σ μ α) w with
  | ok a v => exact absurd hr Play.failLimit_ne_ok
  | error e v => rw [hr] at hstay; exact hstay

theorem advanceFrom (fuel steps : Nat) :
    Goes hosts (fun _ => True) (Play.advanceFrom (hosts depth) fuel steps) fun _ _ => True := by
  induction fuel generalizing steps with
  | zero => exact .throw
  | succ fuel ih =>
    refine .runner fun r _ _ => .ite (fun _ => .pure fun _ _ => trivial) fun hgo => ?_
    rw [not_or] at hgo
    have hlive : r.session.isSome := by simpa [Option.isSome_iff_ne_none] using hgo.1
    have hmenu : r.menu = [] := by simpa using hgo.2
    refine .get fun w => .ite (fun _ => hn.failLimit _) fun _ => ?_
    have hstep : Goes hosts (fun p => True ∧ p = r.place) (Play.stepOnce (hosts depth)) fun _ _ => True :=
      hn.stepOnce.mono (fun p h => by rw [h.2]; exact ⟨hlive, hmenu⟩) fun _ _ h => h
    exact hstep.bind fun stop => .ite (fun _ => .pure fun _ h => h) fun _ => ih _

/-- Stepping as far as it goes, from wherever the runner is. -/
theorem advance : Goes hosts A (Play.advance (hosts depth)) fun _ _ => True := by
  have hresume : Goes hosts A (Play.modifyRunner fun r => { r with wait := none } : Play σ μ Unit) fun _ _ => True :=
    .move (fun _ => rfl) fun r _ => ⟨.resumed, trivial⟩
  exact hresume.bind fun _ => .get fun w => hn.advanceFrom _ _

end Nesting

end Parley
