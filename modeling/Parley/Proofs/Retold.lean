import Parley.Proofs.Alongside
import Parley.Proofs.Foresight
import Parley.Proofs.Reserved
import Parley.Proofs.Tales

/-! # Stepping retells the script

Wherever a runner is in a node, driving it on comes to the same as telling what its stack has still to tell (`retells`),
by induction on the calls that are left and, inside a call, on the room of its loop: each step of the runner is one of
the telling, case by case of what the innermost frame shows (`enacts_next`). -/

namespace Parley
variable {σ μ : Type}

section
variable (host : Host σ μ)

/-- A node from its first item on, where at most so many jumps may follow. -/
abbrev tellWhole (id : SessionId) (jumps : Nat) (n : Node) :
    Tale σ μ := tellNode host id jumps n n.content

namespace Node

/-- What a stack in a node has still to tell in a session. -/
def tale (n : Node) (id : SessionId) (m : Memo) (stack : List Frame) (jumps : Nat) : Tale σ μ :=
  taleOf host n.name (tellWhole host id jumps) (Tale.finish host id) m stack

/-- What the outer frames have still to tell, after the end of the innermost one. -/
def taleBelow (n : Node) (id : SessionId) (m : Memo) (below : List Frame) (jumps : Nat) : Tale σ μ :=
  if below.isEmpty then Tale.finish host id else Tale.step n.name (n.tale host id m below jumps)

/-- Items of the innermost frame, and then the outer frames. -/
abbrev taleFrom (n : Node) (id : SessionId) (m : Memo) (below : List Frame) (items : List Content)
    (jumps : Nat) :
    Tale σ μ :=
  tellAll host n.name (tellWhole host id jumps) false items (n.taleBelow host id m below jumps)

/-- Behind some of the items, the tale is that of those that are left. -/
theorem tale_skipped {n : Node} {id : SessionId} {m : Memo} {f : Frame} {below : List Frame}
    {items : List Content} (hitems : f.items m = some items) (count jumps : Nat) :
    n.tale host id m (f.skip count :: below) jumps =
      n.taleFrom host id m below (items.drop (f.index + count)) jumps :=
  Frame.tale_of_items host n.name _ (f := f.skip count) hitems

end Node

/-- Wherever a runner is in a node, stepping on with this many calls left, and this much room in the one that is
going on, retells what there is to tell. -/
def Retells (calls fuel : Nat) : Prop :=
  ∀ (steps : Nat) (picks : List Int) {n : Node} {stack : List Frame} {m : Memo} {id : SessionId} {wait : Option Binary64}
    {w w' : World σ μ}, Placed n stack m → Here ⟨stack, m, [], some id, wait⟩ w w' →
    Follows (Play.thenDrive host calls picks (Play.advanceFrom host fuel steps))
      (fun jumps => Tale.step n.name (n.tale host id m stack jumps) ⟨calls, picks, fuel, steps⟩) w w'

end

theorem World.begun_rested {w : World σ μ} (h : w.runner.busy = true) : w.rested.begun = w := by
  show { w with runner := { w.runner with busy := true } } = w
  rw [← h]

theorem drop_eq_cons {items : List Content} {i : Nat} {item : Content} (h : items[i]? = some item) :
    items.drop i = item :: items.drop (i + 1) := by
  obtain ⟨hlt, rfl⟩ := List.getElem?_eq_some_iff.1 h
  exact List.drop_eq_getElem_cons hlt

theorem Frame.within_next {m : Memo} {f : Frame} {items : List Content} {item : Content}
    (hitems : f.items m = some items) (hi : items[f.index]? = some item) : (f.skip 1).Within m := by
  show f.index + 1 ≤ _
  rw [Frame.items_skip, hitems]
  exact (List.getElem?_eq_some_iff.1 hi).1

theorem keeps_display {host : Host σ μ} {p : Place} (hc : Congruent host (Here p)) (l : Line) :
    Keeps (Here p) (Play.display host l) := by
  refine (Play.keeps_render hc l.text).bind fun text => ?_
  refine (Play.keeps_publish hc (.displayed l text) fun h => h.noting _).bind fun _ => ?_
  exact .pure _

theorem drive_idle {host : Host σ μ} {w : World σ μ} (h : w.runner.session = none) (calls : Nat)
    (picks : List Int) :
    drive host calls picks w = .ok () w := by
  cases calls with
  | zero => rfl
  | succ calls =>
    have hidle : w.runner.state = .idle := by rw [Runner.state, h]; rfl
    rewrite [drive, run_bind_ok (show Play.runner w = .ok w.runner w from rfl), hidle]
    rfl

/-- At a menu the host picks, as long as it has a pick left. -/
theorem drive_menu (host : Host σ μ) {w : World σ μ} (h : w.runner.state = .awaitingChoice) (calls : Nat) :
    drive host (calls + 1) [] w = .ok () w ∧ ∀ i picks,
      drive host (calls + 1) (i :: picks) w = (do Play.select host i; drive host calls picks : Play σ μ Unit) w := by
  have hrunner : Play.runner w = .ok w.runner w := rfl
  constructor
  · rewrite [drive, run_bind_ok hrunner, h]
    rfl
  · intro i picks
    rw [drive, run_bind_ok hrunner, h]

section
variable {host : Host σ μ} {calls fuel steps : Nat} {picks : List Int} {n : Node} {stack : List Frame}
  {m : Memo} {id : SessionId} {wait : Option Binary64} {w w' : World σ μ}

/-- Another call steps on afresh. -/
theorem follows_advance (hcalls : ∀ fuel, Retells host calls fuel) (hp : Placed n stack m)
    (h : Here ⟨stack, m, [], some id, wait⟩ w w') :
    Follows (Play.thenDrive host calls picks (Play.advance host))
      (fun jumps => Tale.fresh host (Tale.step n.name (n.tale host id m stack jumps)) ⟨calls, picks, fuel, steps⟩)
      w w' := by
  have hmoved : Here ⟨stack, m, [], some id, none⟩ (w.withRunner { w.runner with wait := none }) w' :=
    h.moved fun p => { p with wait := none }
  have hlimit : w.runnerConfig.maxSteps = w'.runnerConfig.maxSteps :=
    (congrArg Config.maxSteps (World.runnerConfig_of_outline h.1.outline) :)
  refine .move rfl (.move rfl ((hcalls _ 0 picks hp hmoved).congr rfl fun jumps => ?_))
  show Tale.step _ _ ⟨calls, picks, host.patience + w'.runnerConfig.maxSteps + 2, 0⟩ w' = _
  rw [← hlimit]
  rfl

/-- After something to see, the host goes on if it has a call left. -/
theorem follows_pause (hcalls : ∀ less, less < calls → ∀ fuel, Retells host less fuel)
    (hp : Placed n stack m) (h : Here ⟨stack, m, [], some id, wait⟩ w w') :
    Follows (Play.thenDrive host calls picks (pure ()))
      (fun jumps => Tale.pause host (Tale.step n.name (n.tale host id m stack jumps)) ⟨calls, picks, fuel, steps⟩)
      w w' := by
  cases calls with
  | zero => exact .of_same (.ok () h.1.outline)
  | succ calls =>
    have hsession : w.rested.runner.session = some id := congrArg Place.session h.1.place
    have hmenu : w.rested.runner.menu = [] := congrArg Place.menu h.1.place
    have hactive : w.rested.runner.state = .active := by
      rw [Runner.state, hsession, hmenu]
      rfl
    have hless := hcalls calls (Nat.lt_succ_self calls)
    refine (follows_advance hless hp h).congr ?_ fun _ => rfl
    rw [Play.thenDrive_pure, drive, run_bind_ok (show Play.runner w.rested = .ok w.rested.runner w.rested from rfl),
      hactive]
    refine run_bind_congr ?_ _
    rw [Play.resume_eq host hactive rfl, Play.busyStep_eq, World.begun_rested h.1.busy, Play.advance_eq]

end

section
variable {host : Host σ μ} (hc : ∀ p, Congruent host (Here p : World σ μ → World σ μ → Prop))
  {calls fuel steps : Nat} {picks : List Int} {n : Node} {f : Frame} {below : List Frame} {m : Memo}
  {id : SessionId} {wait : Option Binary64} {w w' : World σ μ} (hp : Placed n (f :: below) m)
include hc hp

/-- A pick from the open menu leads into the block of the choice, or past it if that is empty. -/
theorem follows_picked {live : List Choice} (hcalls : ∀ fuel, Retells host calls fuel) {choice : Choice}
    (hchoice : f.Holds m (.choice choice)) (i : Nat) (h : Here ⟨f :: below, m, live, some id, wait⟩ w w') :
    Follows (Play.thenDrive host calls picks (Play.follow host choice i))
      (fun jumps => do
        let _ ← Play.publish host (.selected choice i)
        Tale.fresh host ((Content.choice choice).tell host n.name (tellWhole host id jumps)
          (Tale.step n.name (n.tale host id m (f :: below) jumps))) ⟨calls, picks, fuel, steps⟩) w w' := by
  refine .step (Play.keeps_publish (hc _) _ (fun h => h.noting _) h) ?_
  intro _ v v' h _
  have hsession : v.runner.session = some id := congrArg Place.session h.1.place
  have hclosed : Here ⟨f :: below, m, [], some id, wait⟩ (v.withRunner { v.runner with menu := [] }) v' :=
    h.moved fun p => { p with menu := [] }
  refine .move rfl ?_
  rw [if_neg (by simp [hsession])]
  refine .move rfl ?_
  simp only [tell_choice]
  cases choice.content.isEmpty with
  | true => exact follows_advance hcalls hp hclosed
  | false =>
    have hpushed : Here ⟨⟨.choice choice, 0⟩ :: f :: below, m, [], some id, wait⟩
        ((v.withRunner { v.runner with menu := [] }).withRunner
          ({ v.runner with menu := [] }.push (.choice choice))) v' :=
      hclosed.moved fun p => { p with stack := ⟨.choice choice, 0⟩ :: p.stack }
    refine .move rfl ?_
    exact (follows_advance hcalls (hp.pushChoice hchoice) hpushed).congr rfl fun _ => rfl

/-- At an open menu, the host picks from it if it has a call and a pick left. -/
theorem follows_pick {live : List Choice} (hcalls : ∀ less, less < calls → ∀ fuel, Retells host less fuel)
    (hlive : live.isEmpty = false) (hholds : ∀ choice ∈ live, f.Holds m (.choice choice))
    (h : Here ⟨f :: below, m, live, some id, wait⟩ w w') :
    Follows (Play.thenDrive host calls picks (pure ()))
      (fun jumps => Tale.pick host (live.map fun choice => (choice, (Content.choice choice).tell host n.name
          (tellWhole host id jumps) (Tale.step n.name (n.tale host id m (f :: below) jumps))))
        ⟨calls, picks, fuel, steps⟩) w w' := by
  cases calls with
  | zero => exact .of_same (.ok () h.1.outline)
  | succ calls =>
    have hsession : w.rested.runner.session = some id := congrArg Place.session h.1.place
    have hmenu : w.rested.runner.menu = live := congrArg Place.menu h.1.place
    have hawaits : w.rested.runner.state = .awaitingChoice := by
      rw [Runner.state, hsession, hmenu, hlive]
      rfl
    obtain ⟨hstay, hdrive⟩ := drive_menu host hawaits calls
    cases picks with
    | nil =>
      have hsame : Same (fun v v' => v.outline = v'.outline) ((pure () : Play σ μ Unit) w.rested)
          ((pure () : Play σ μ Unit) w') :=
        .ok () h.1.outline
      exact (Follows.of_same hsame).congr hstay fun _ => rfl
    | cons i picks =>
      have hselect := Play.select_eq host (w := w.rested) rfl (by rw [hmenu]; exact hlive) i
      rw [hmenu] at hselect
      cases hpicked : (if i < 0 then none else live[i.toNat]?) with
      | none =>
        rw [hpicked] at hselect
        have hrefuse : Same (fun v v' => v.outline = v'.outline)
            ((Play.refuse (.choiceRange i live.length) : Play σ μ Unit) w.rested)
            (Play.refuse (.choiceRange i live.length) w') :=
          .error _ (World.outline_noting_congr (w := w.rested) h.1.outline rfl)
        refine (Follows.of_same hrefuse).congr ?_ fun jumps => ?_
        · rw [Play.thenDrive_pure, hdrive]
          exact run_bind_error (hselect.trans rfl)
        · rw [Tale.pick_map, hpicked]
      | some choice =>
        have hmem : choice ∈ live := by
          split at hpicked
          · cases hpicked
          · exact List.mem_of_getElem? hpicked
        rw [hpicked] at hselect
        have hless := hcalls calls (Nat.lt_succ_self calls)
        have hthen := @follows_picked _ _ _ hc _ fuel steps picks _ _ _ _ _ _ _ _ hp _ hless _
          (hholds choice hmem) i.toNat h
        refine hthen.congr ?_ fun jumps => ?_
        · rw [Play.thenDrive_pure, hdrive]
          refine run_bind_congr (hselect.trans ?_) _
          show Play.busyStep (Play.follow host choice i.toNat) w.rested = _
          rw [Play.busyStep_eq, World.begun_rested h.1.busy]
        · rw [Tale.pick_map, hpicked]

/-- The branch of a condition is chosen by both as it is entered. -/
theorem enacts_chosen {cond : Condition} {i : Nat} (hf : f = ⟨.condition cond, i⟩)
    (hb : m.lookup cond.key = none) (h : Here ⟨f :: below, m, [], some id, wait⟩ w w')
    {next : Option (List Content) → Play σ μ Bool} {c : Course}
    (hnext : ∀ m' v v', Placed n (f :: below) m' → Here ⟨f :: below, m', [], some id, wait⟩ v v' →
      Enacts host calls fuel steps picks (next (f.items m'))
        (fun jumps => n.taleFrom host id m' below (((f.items m').getD []).drop f.index) jumps c) v v') :
    Enacts host calls fuel steps picks
      (do
        let b ← Play.selectBranch host cond
        Play.modifyRunner fun r => { r with memo := r.memo.record cond.key b }
        next (cond.contentIn b))
      (fun jumps => do
        let b ← Play.selectBranch host cond
        n.taleFrom host id m below (((cond.contentIn b).getD []).drop i) jumps c) w w' := by
  subst hf
  refine .step (Play.keeps_selectBranch (hc _) cond h) ?_
  intro b v v' h _
  have hrecorded : Here ⟨⟨.condition cond, i⟩ :: below, m.record cond.key b, [], some id, wait⟩
      (v.withRunner { v.runner with memo := v.runner.memo.record cond.key b }) v' :=
    h.moved fun p => { p with memo := p.memo.record cond.key b }
  have hitems : (⟨.condition cond, i⟩ : Frame).items (m.record cond.key b) = cond.contentIn b := by
    show ((m.record cond.key b).lookup cond.key).bind cond.contentIn = _
    rw [Memo.lookup_record, if_pos rfl]
    rfl
  have hthen := hnext _ _ _ (hp.record rfl hb b) hrecorded
  rw [hitems] at hthen
  refine .move rfl (hthen.congr rfl fun jumps => ?_)
  -- the outer frames have other keys, so they do not see the new entry
  have hbelow : n.tale host id (m.record cond.key b) below jumps = n.tale host id m below jumps := by
    refine taleOf_congr _ _ _ fun key hkey => ?_
    rw [Memo.lookup_record, if_neg]
    rintro rfl
    exact hp.stacked.key_notMem hp.nodup rfl hkey
  unfold Node.taleFrom Node.taleBelow
  rw [hbelow]

/-- The items of a frame are the same for both, and chosen by both if they have not been yet. -/
theorem enacts_frameItems (h : Here ⟨f :: below, m, [], some id, wait⟩ w w')
    {next : Option (List Content) → Play σ μ Bool} {c : Course}
    (hnext : ∀ m' v v', Placed n (f :: below) m' → Here ⟨f :: below, m', [], some id, wait⟩ v v' →
      Enacts host calls fuel steps picks (next (f.items m'))
        (fun jumps => n.taleFrom host id m' below (((f.items m').getD []).drop f.index) jumps c) v v') :
    Enacts host calls fuel steps picks (Play.frameItems host f >>= next)
      (fun jumps => n.tale host id m (f :: below) jumps c) w w' := by
  obtain ⟨container, i⟩ := f
  have hmemo : w.runner.memo = m := congrArg Place.memo h.1.place
  cases container with
  | node | choice => exact hnext m w w' hp h
  | condition cond =>
    cases hb : m.lookup cond.key with
    | some b =>
      have hitems : (⟨.condition cond, i⟩ : Frame).items m = cond.contentIn b := by
        show (m.lookup cond.key).bind cond.contentIn = _
        rw [hb]
        rfl
      have hthen := hnext m w w' hp h
      rw [hitems] at hthen
      refine .move (Play.frameItems_known rfl (by rw [hmemo, hb])) (hthen.congr rfl fun jumps => ?_)
      unfold Node.tale taleOf Frame.tale
      dsimp only
      rewrite [hb]
      rfl
    | none =>
      have hunknown : Play.frameItems host ⟨.condition cond, i⟩ w = _ :=
        Play.frameItems_unknown rfl (by rw [hmemo, hb])
      refine (enacts_chosen hc hp rfl hb h hnext).congr ?_ fun jumps => ?_
      · rw [run_bind_congr hunknown next]
        simp only [bind_assoc, pure_bind]
      · unfold Node.tale taleOf Frame.tale
        dsimp only
        rewrite [hb]
        rfl

omit hp in
/-- The end of the node is the end of the session. -/
theorem follows_complete {p : Place} (hid : p.session = some id) (h : Here p w w') (c : Course) :
    Follows (Play.thenDrive host calls picks (Play.complete host)) (fun _ => Tale.finish host id c) w w' := by
  have hsession : w.runner.session = some id := (congrArg Place.session h.1.place).trans hid
  have hreset : Here ⟨[], [], [], none, none⟩ (w.withRunner w.runner.reset) w' :=
    h.moved fun _ => ⟨[], [], [], none, none⟩
  refine .move rfl (.move rfl (.move rfl ?_))
  rw [hsession]
  refine .step (Play.keeps_publish (hc _) _ (fun h => h.noting _) (hreset.logged _)) ?_
  intro _ v v' h _
  have hidle : v.rested.runner.session = none := congrArg Place.session h.1.place
  have hsame : Same (fun v v' => v.outline = v'.outline) ((pure () : Play σ μ Unit) v.rested)
      ((pure () : Play σ μ Unit) v') :=
    .ok () h.1.outline
  exact (Follows.of_same hsame).congr (drive_idle hidle calls picks) fun _ => rfl

end

section
variable {host : Host σ μ} (hc : ∀ p, Congruent host (Here p : World σ μ → World σ μ → Prop))
  {calls fuel steps : Nat} {picks : List Int} (hroom : Retells host calls fuel)
  (hcalls : ∀ less, less < calls → ∀ room, Retells host less room) {n : Node} {f : Frame}
  {below : List Frame} {m : Memo} {id : SessionId} {wait : Option Binary64} {w w' : World σ μ}
  (hp : Placed n (f :: below) m) (h : Here ⟨f :: below, m, [], some id, wait⟩ w w') {items : List Content}
  (hitems : f.items m = some items)

include hc hroom hp h in
/-- Behind the last item of a frame. -/
theorem enacts_leave : Enacts host calls fuel steps picks (Play.leaveFrame host)
    (fun jumps => n.taleBelow host id m below jumps ⟨calls, picks, fuel, steps + 1⟩) w w' := by
  have hstack : w.runner.stack = f :: below := congrArg Place.stack h.1.place
  have hrunner : Play.runner w = .ok w.runner w := rfl
  cases below with
  | nil =>
    have hlast : (do if ← Play.leaveFrame host then return () else Play.advanceFrom host fuel (steps + 1) :
        Play σ μ Unit) w = Play.complete host w := by
      unfold Play.leaveFrame
      rw [bind_assoc, run_bind_ok hrunner, hstack, if_pos (show [f].length = 1 from rfl), bind_assoc]
      exact congrFun bind_pure_unit w
    exact (follows_complete hc rfl h ⟨calls, picks, fuel, steps + 1⟩).congr (Play.thenDrive_congr hlast) fun _ => rfl
  | cons g below =>
    have hpop : Play.leaveFrame host w = .ok false (w.withRunner
        { w.runner with stack := g :: below, memo := (f.key?.map w.runner.memo.forget).getD w.runner.memo }) := by
      unfold Play.leaveFrame Play.popFrame
      rewrite [run_bind_ok hrunner, hstack, if_neg (by simp), bind_assoc, run_bind_ok hrunner, hstack]
      rfl
    have hmoved : Here ⟨g :: below, (f.key?.map m.forget).getD m, [], some id, wait⟩ (w.withRunner
        { w.runner with stack := g :: below, memo := (f.key?.map w.runner.memo.forget).getD w.runner.memo }) w' :=
      h.moved fun p => { p with stack := g :: below, memo := (f.key?.map p.memo.forget).getD p.memo }
    refine Follows.move hpop ((hroom (steps + 1) picks hp.pop hmoved).congr rfl fun jumps => ?_)
    -- what is forgotten is the branch of a frame that is no longer there
    unfold Node.tale
    rewrite [taleOf_congr _ _ _ fun key hkey => hp.stacked.lookup_forget hp.nodup hkey]
    rfl

include hc hp h hitems

include hcalls in
theorem enacts_line {l : Line} (hi : items[f.index]? = some (.line l)) (following : List Content) :
    Enacts host calls fuel steps picks (Play.act host (.line l) following)
      (fun jumps => n.taleFrom host id m below (items.drop f.index) jumps ⟨calls, picks, fuel, steps + 1⟩) w w' := by
  have hskip : Placed n (f.skip 1 :: below) m := hp.skip (Frame.within_next hitems hi)
  have hline : Enacts host calls fuel steps picks (Play.act host (.line l) following)
      (fun jumps => Tale.line host l (Tale.step n.name (n.tale host id m (f.skip 1 :: below) jumps))
        ⟨calls, picks, fuel, steps + 1⟩) w w' := by
    refine .move rfl (.step (keeps_display (hc _) l (h.skipped 1)) ?_)
    intro _ v v' h _
    refine .move rfl (.move rfl ?_)
    rw [if_neg (by simp [h.1.off])]
    exact .stop (follows_pause hcalls hskip h)
  refine hline.congr rfl fun jumps => ?_
  rewrite [Node.tale_skipped host hitems 1]
  unfold Node.taleFrom
  rewrite [drop_eq_cons hi]
  rfl

include hcalls in
theorem enacts_wait {e : Expr} {pos : Pos} (hi : items[f.index]? = some (.command (.wait e) pos))
    (following : List Content) :
    Enacts host calls fuel steps picks (Play.act host (.command (.wait e) pos) following)
      (fun jumps => n.taleFrom host id m below (items.drop f.index) jumps ⟨calls, picks, fuel, steps + 1⟩) w w' := by
  have hskip : Placed n (f.skip 1 :: below) m := hp.skip (Frame.within_next hitems hi)
  have hwait : Enacts host calls fuel steps picks (Play.act host (.command (.wait e) pos) following)
      (fun jumps => Tale.wait host e pos (Tale.step n.name (n.tale host id m (f.skip 1 :: below) jumps))
        ⟨calls, picks, fuel, steps + 1⟩) w w' := by
    refine .step (Play.keeps_waitDuration (hc _) e pos.line h) ?_
    intro duration v v' h _
    have hmoved : Here ⟨f.skip 1 :: below, m, [], some id, some duration⟩
        (v.withRunner { v.runner.skip 1 with wait := some duration }) v' :=
      (h.skipped 1).moved fun p => { p with wait := some duration }
    refine .move rfl (.step (Play.keeps_publish (hc _) _ (fun h => h.noting _) hmoved) ?_)
    intro _ v v' h _
    exact .stop (follows_pause hcalls hskip h)
  refine hwait.congr rfl fun jumps => ?_
  rewrite [Node.tale_skipped host hitems 1]
  unfold Node.taleFrom
  rewrite [drop_eq_cons hi]
  rfl

omit hc in
include hroom in
theorem enacts_condition {cond : Condition} (hi : items[f.index]? = some (.condition cond))
    (following : List Content) :
    Enacts host calls fuel steps picks (Play.act host (.condition cond) following)
      (fun jumps => n.taleFrom host id m below (items.drop f.index) jumps ⟨calls, picks, fuel, steps + 1⟩) w w' := by
  have hpushed := hp.pushCondition hitems hi
  have hfresh : m.lookup cond.key = none := by
    refine Memo.lookup_eq_none fun entry he hkey => ?_
    exact hpushed.stacked.key_notMem hp.nodup rfl (hkey ▸ hp.remembered entry he)
  have hmoved : Here ⟨⟨.condition cond, 0⟩ :: f.skip 1 :: below, m, [], some id, wait⟩
      (w.withRunner ((w.runner.skip 1).push (.condition cond))) w' :=
    (h.skipped 1).moved fun p => { p with stack := ⟨.condition cond, 0⟩ :: p.stack }
  refine .move rfl (.goOn ((hroom (steps + 1) picks hpushed hmoved).congr rfl fun jumps => ?_))
  have hafter := @Node.tale_skipped _ _ host n id m f below items hitems 1 jumps
  unfold Node.taleFrom at hafter ⊢
  rw [drop_eq_cons hi]
  show (Content.condition cond).tell host n.name _ (Tale.step n.name _) _ _ = _
  rewrite [tell_entered host n.name _ hfresh, ← hafter]
  rfl

omit hp h hitems in
include hroom in
/-- A jump leaves the whole stack for another node. -/
theorem enacts_jump {p : Place} (hid : p.session = some id) (h : Here p w w') {other : Node}
    (hother : (contentKeys other.content).Nodup) :
    Enacts host calls fuel steps picks
      (do
        Play.enterNode host other
        return false)
      (fun jumps => do
        let _ ← Play.publish host (.entered other.name)
        Tale.step other.name (tellWhole host id jumps other) ⟨calls, picks, fuel, steps + 1⟩) w w' := by
  have hentered : Placed other [⟨.node other, 0⟩] [] := .enter hother (Nat.zero_le _)
  have hmoved : Here ⟨[⟨.node other, 0⟩], [], [], some id, p.wait⟩
      (w.withRunner { w.runner with stack := [⟨.node other, 0⟩], memo := [], menu := [] }) w' := by
    rw [← hid]
    exact h.moved fun p => { p with stack := [⟨.node other, 0⟩], memo := [], menu := [] }
  have hlogged := hmoved.logged ⟨.debug, .runner, s!"Entering node '{other.name}'"⟩
  have hpublished := Play.keeps_publish (hc _) (.entered other.name) (fun h => h.noting _) hlogged
  unfold Play.enterNode
  simp only [bind_assoc, pure_bind]
  refine .move rfl (.move rfl (.step hpublished ?_))
  intro _ v v' h _
  exact .goOn (.of_succ (hroom (steps + 1) picks hentered h))

include hroom in
theorem enacts_command {cmd : Command} {pos : Pos} (hi : items[f.index]? = some (.command cmd pos))
    (hwait : ∀ e, cmd ≠ .wait e) (following : List Content) :
    Enacts host calls fuel steps picks (Play.act host (.command cmd pos) following)
      (fun jumps => n.taleFrom host id m below (items.drop f.index) jumps ⟨calls, picks, fuel, steps + 1⟩) w w' := by
  have hskip : Placed n (f.skip 1 :: below) m := hp.skip (Frame.within_next hitems hi)
  have hobey : Enacts host calls fuel steps picks (Play.obey host cmd pos.line)
      (fun jumps => Tale.command host (tellWhole host id jumps) cmd pos
        (Tale.step n.name (n.tale host id m (f.skip 1 :: below) jumps)) ⟨calls, picks, fuel, steps + 1⟩) w w' := by
    refine .step (Play.keeps_execute (hc _) cmd pos.line h) ?_
    intro target v v' h _
    cases target with
    | none => exact .move rfl (.goOn (hroom (steps + 1) picks hskip (h.skipped 1)))
    | some target =>
      refine .step (Play.keeps_getNode (hc _) (fun h => (congrArg World.nodes h.1.outline :)) target h) ?_
      intro other u u' hu hget
      obtain ⟨hother, rfl⟩ := getNode_ok hget
      exact enacts_jump hc hroom rfl hu (hu.2.parsed target other hother).nodup
  refine hobey.congr ?_ fun jumps => ?_
  · cases cmd with
    | wait e => exact absurd rfl (hwait e)
    | assign | call | jump => rfl
  · rw [Node.tale_skipped host hitems 1]
    unfold Node.taleFrom
    rw [drop_eq_cons hi]
    cases cmd with
    | wait e => exact absurd rfl (hwait e)
    | assign | call | jump => rfl

omit h hitems in
include hcalls in
/-- The host picks from the menu that is opened. -/
theorem enacts_openMenu {live : List Choice} (hlive : live.isEmpty = false)
    (hholds : ∀ choice ∈ live, f.Holds m (.choice choice))
    (h : Here ⟨f :: below, m, [], some id, wait⟩ w w') :
    Enacts host calls fuel steps picks
      (do
        Play.openMenu host live
        return true)
      (fun jumps => do
        let texts ← Play.renderAll host live
        let _ ← Play.publish host (.menuOpened live texts)
        Tale.pick host (live.map fun choice => (choice, (Content.choice choice).tell host n.name
          (tellWhole host id jumps) (Tale.step n.name (n.tale host id m (f :: below) jumps))))
          ⟨calls, picks, fuel, steps + 1⟩) w w' := by
  have hopened : Here ⟨f :: below, m, live, some id, wait⟩ (w.withRunner { w.runner with menu := live }) w' :=
    h.moved fun p => { p with menu := live }
  unfold Play.openMenu
  simp only [bind_assoc, pure_bind]
  refine .move rfl (.step (Play.keeps_renderAll (hc _) live hopened) ?_)
  intro texts v v' h _
  refine .step (Play.keeps_publish (hc _) (.menuOpened live texts) (fun h => h.noting _) h) ?_
  intro _ v v' h _
  exact .stop (follows_pick hc hp hcalls hlive hholds h)

include hroom hcalls in
theorem enacts_choice {first : Choice} (hi : items[f.index]? = some (.choice first)) :
    Enacts host calls fuel steps picks (Play.act host (.choice first) (items.drop f.index))
      (fun jumps => n.taleFrom host id m below (items.drop f.index) jumps ⟨calls, picks, fuel, steps + 1⟩) w w' := by
  let run := (choiceRun (items.drop f.index)).length
  have hskip : Placed n (f.skip run :: below) m := hp.skip (Frame.within_choiceRun hitems hi)
  have hchoice : Enacts host calls fuel steps picks (Play.act host (.choice first) (items.drop f.index))
      (fun jumps => Tale.offerRun host n.name (tellWhole host id jumps) (items.drop f.index)
        (Tale.step n.name (n.tale host id m (f.skip run :: below) jumps)) ⟨calls, picks, fuel, steps + 1⟩) w w' := by
    refine .step (Play.keeps_collectChoices (hc _) _ h) fun collected v v' h hcollect => .move rfl ?_
    obtain ⟨live, count⟩ := collected
    obtain ⟨rfl, hlive⟩ := collectChoices_ok hcollect
    have hskipped : Here ⟨f.skip run :: below, m, [], some id, wait⟩ (v.withRunner (v.runner.skip run)) v' :=
      h.skipped run
    dsimp only
    cases hempty : live.isEmpty with
    | true =>
      have hlogged := hskipped.logged
        ⟨.debug, .runner, s!"No live choices at line {first.pos.line}; skipping the menu"⟩
      exact Enacts.congr (.move rfl (.goOn (hroom (steps + 1) picks hskip hlogged))) rfl fun _ => rfl
    | false =>
      have hholds (choice : Choice) (hmem : choice ∈ live) : (f.skip run).Holds m (.choice choice) :=
        Frame.holds_choiceRun hitems (hlive choice hmem)
      exact (enacts_openMenu hc hcalls hskip hempty hholds hskipped).congr rfl fun _ => rfl
  refine hchoice.congr rfl fun jumps => ?_
  have hrun := tellAll_run host n.name (tellWhole host id jumps) first (items.drop (f.index + 1))
    (n.taleBelow host id m below jumps)
  rw [← drop_eq_cons hi] at hrun
  rw [Node.tale_skipped host hitems, ← List.drop_drop]
  exact congrFun (congrFun hrun _) w'

omit hitems in
include hroom hcalls in
/-- What a frame shows, told and acted on. -/
theorem enacts_next : Enacts host calls fuel steps picks (Play.actIn host f (f.items m))
    (fun jumps => n.taleFrom host id m below (((f.items m).getD []).drop f.index) jumps
      ⟨calls, picks, fuel, steps + 1⟩) w w' := by
  have hleave := @enacts_leave _ _ _ hc _ _ steps picks hroom _ _ _ _ _ _ _ _ hp h
  -- with no items left, the tale is that of the frames below
  have hnothing {left : List Content} (hleft : left = []) (jumps : Nat) :
      n.taleFrom host id m below left jumps = n.taleBelow host id m below jumps := by
    subst hleft
    rfl
  unfold Play.actIn
  cases hitems : f.items m with
  | none =>
    have hleft : ((none : Option (List Content)).getD []).drop f.index = [] := List.drop_nil
    exact hleave.congr rfl fun jumps => by rw [hnothing hleft]
  | some items =>
    simp only [Option.bind_some, Option.getD_some]
    cases hi : items[f.index]? with
    | none =>
      have hleft : items.drop f.index = [] := List.drop_eq_nil_of_le (List.getElem?_eq_none_iff.1 hi)
      exact hleave.congr rfl fun jumps => by rw [hnothing hleft]
    | some item =>
      cases item with
      | line l => exact enacts_line hc hcalls hp h hitems hi _
      | choice c => exact enacts_choice hc hroom hcalls hp h hitems hi
      | condition cond => exact enacts_condition hroom hp h hitems hi _
      | command cmd pos =>
        by_cases hwait : ∃ e, cmd = .wait e
        · obtain ⟨e, rfl⟩ := hwait
          exact enacts_wait hc hcalls hp h hitems hi _
        · exact enacts_command hc hroom hp h hitems hi (fun e he => hwait ⟨e, he⟩) _

end

/-- One more round of the loop. -/
theorem retells_succ {host : Host σ μ} (hc : ∀ p, Congruent host (Here p : World σ μ → World σ μ → Prop))
    {calls fuel : Nat} (hcalls : ∀ less, less < calls → ∀ room, Retells host less room)
    (hroom : Retells host calls fuel) : Retells host calls (fuel + 1) := by
  intro steps picks n stack m id wait w w' hp h
  have hstack : w.runner.stack = stack := congrArg Place.stack h.1.place
  have hmemo : w.runner.memo = m := congrArg Place.memo h.1.place
  have hsession : w.runner.session = some id := congrArg Place.session h.1.place
  have hmenu : w.runner.menu = [] := congrArg Place.menu h.1.place
  have hrunner : Play.runner w = .ok w.runner w := rfl
  have hlive : ¬(w.runner.session.isNone ∨ (!w.runner.menu.isEmpty) = true) := by simp [hsession, hmenu]
  have hlimits : w'.runnerConfig.maxSteps = w.runnerConfig.maxSteps :=
    (congrArg Config.maxSteps (World.runnerConfig_of_outline h.1.outline) :).symm
  have hloop : Play.advanceFrom host (fuel + 1) steps w = (if w.runnerConfig.maxSteps ≤ steps then
      Play.failLimit w.runnerConfig.maxSteps
    else do if ← Play.stepOnce host then return () else Play.advanceFrom host fuel (steps + 1) : Play σ μ Unit) w := by
    rw [Play.advanceFrom, run_bind_ok hrunner, if_neg hlive,
      run_bind_ok (show Play.runnerConfig w = .ok w.runnerConfig w from rfl)]
  have htale (jumps : Nat) : Tale.step n.name (n.tale host id m stack jumps) ⟨calls, picks, fuel + 1, steps⟩ w' =
      (if w.runnerConfig.maxSteps ≤ steps then
        Play.failOn .runner (.limit w.runnerConfig.maxSteps (some n.name))
      else n.tale host id m stack jumps ⟨calls, picks, fuel, steps + 1⟩ : Play σ μ Unit) w' := by
    rw [← hlimits]
    rfl
  by_cases hlimit : w.runnerConfig.maxSteps ≤ steps
  · have hplaced : Placed n w.runner.stack w.runner.memo := by rw [hstack, hmemo]; exact hp
    have hnode := Play.currentNode_of_placed hplaced
    rw [if_pos hlimit, Play.failLimit_eq hnode] at hloop
    refine .of_error (Play.thenDrive_error hloop) (fun jumps => (htale jumps).trans ?_)
      (World.outline_noting_congr h.1.outline rfl)
    rewrite [if_pos hlimit]
    rfl
  · simp only [if_neg hlimit] at hloop htale
    cases stack with
    | nil => cases hp.stacked
    | cons f below =>
      have hstep : Play.stepOnce host w = (Play.frameItems host f >>= Play.actIn host f) w := by
        rewrite [Play.stepOnce, run_bind_ok hrunner, hstack]
        rfl
      have hframe := enacts_frameItems (c := ⟨calls, picks, fuel, steps + 1⟩) hc hp h
        fun m' v v' hp h => enacts_next hc hroom hcalls hp h
      exact Follows.congr (hframe.congr hstep fun _ => rfl) (Play.thenDrive_congr hloop) htale

/-- Stepping on retells what there is to tell, with as many calls and as much room as there are. -/
theorem retells {host : Host σ μ} (hc : ∀ p, Congruent host (Here p : World σ μ → World σ μ → Prop))
    (calls fuel : Nat) : Retells host calls fuel := by
  -- a call that goes on needs less room, and one that begins has fewer calls after it
  induction calls using Nat.strongRecOn generalizing fuel with
  | ind calls hcalls =>
    induction fuel with
    | zero =>
      intro steps picks n stack m id wait w w' hp h
      exact ⟨0, fun _ _ => .error _ h.1.outline⟩
    | succ fuel hroom => exact retells_succ hc hcalls hroom

/-- Opening a session and driving it on is telling it. -/
theorem follows_session {host : Host σ μ}
    (hc : ∀ p, Congruent host (Here p : World σ μ → World σ μ → Prop)) {w : World σ μ}
    (horder : w.InOrder fun _ => True) (hoff : w.runnerConfig.autoChoices = false) {n : Node}
    (hn : (contentKeys n.content).Nodup) {index : Nat} (hindex : index ≤ n.content.length) (name : String)
    (calls : Nat) (picks : List Int) :
    Follows
      (Play.thenDrive host calls picks do
        let id ← Play.openSession n index
        Play.log .debug .runner s!"Session {sessionName (some id)} started at '{name}'"
        let _ ← Play.publish host (.started id name)
        let _ ← Play.publish host (.entered name)
        Play.advance host)
      (fun jumps => tellSession host jumps n name index ⟨calls, picks, 0, 0⟩)
      (w.withRunner w.runner.reset).begun w := by
  have hplaced : Placed n [⟨.node n, index⟩] [] := .enter hn hindex
  -- the runner stands at the item as soon as the session is open
  have hopened : Here ⟨[⟨.node n, index⟩], [], [], some (w.sessions + 1), none⟩
      ({ w with sessions := w.sessions + 1 }.withRunner
        { w.runner.reset with busy := true, session := some (w.sessions + 1), stack := [⟨.node n, index⟩] })
      { w with sessions := w.sessions + 1 } := by
    have hnumber : w.Tends (fun _ => True) { w with sessions := w.sessions + 1 } :=
      horder.tends.aside rfl (fun _ => rfl) rfl fun _ hm => hm
    exact ⟨⟨rfl, rfl, rfl, hoff⟩, hnumber.order.withRunner fun hr => absurd hr.2 (by simp)⟩
  have hlogged := hopened.logged
    ⟨.debug, .runner, s!"Session {sessionName (some (w.sessions + 1))} started at '{name}'"⟩
  have hstarted := Play.keeps_publish (hc _) (.started (w.sessions + 1) name) (fun h => h.noting _) hlogged
  refine .move rfl (.move rfl (Follows.congr (.step (t := fun jumps _ => do
    let _ ← Play.publish host (.entered name)
    Tale.fresh host (Tale.step n.name (tellNode host (w.sessions + 1) jumps n (n.content.drop index)))
      ⟨calls, picks, 0, 0⟩) hstarted ?_) rfl fun _ => rfl))
  intro _ v v' h _
  refine .step (Play.keeps_publish (hc _) (.entered name) (fun h => h.noting _) h) ?_
  intro _ v v' h _
  exact .of_succ (follows_advance (retells hc calls) hplaced h)

/-- Stepping refines the direct reading of a script: a session that starts at an item of a node and is driven on for so
many calls, picking from the menus in turn, comes to the same as telling it; it publishes the same and leaves the same
variables, or fails with the same fault. -/
theorem drive_retells {host : Host σ μ} (hhost : host.RunsCode) (hh : host.Aloof) {w : World σ μ}
    (hw : Reachable host w) (hidle : w.runner.busy = false) (hnone : w.runner.session = none)
    (hoff : w.runnerConfig.autoChoices = false) {name : Option String} {n : Node}
    (hn : w.nodes.get? (Play.startName name w.runnerConfig.startNode) = some n) {index : Nat}
    (hindex : index < n.content.length) (calls : Nat) (picks : List Int) :
    ∃ least, ∀ jumps, least ≤ jumps →
      Same (fun v v' => v.outline = v'.outline ∧ v.published = v'.published ∧ v.vars = v'.vars)
        ((do
          Play.start host name index false
          drive host calls picks : Play σ μ Unit) w)
        (tellSession host jumps n (Play.startName name w.runnerConfig.startNode) index ⟨calls, picks, 0, 0⟩ w) := by
  have hc (p : Place) : Congruent host (Here p : World σ μ → World σ μ → Prop) := Here.congruent hh hhost.tends
  have horder := hw.inOrder hhost.tends
  have hnode := (horder.parsed _ n hn).nodup
  obtain ⟨least, hleast⟩ := follows_session hc horder hoff hnode (Nat.le_of_lt hindex)
    (Play.startName name w.runnerConfig.startNode) calls picks
  refine ⟨least, fun jumps hjumps => ?_⟩
  rw [run_bind_congr (Play.start_eq host hidle hnone hn hindex false) fun _ => drive host calls picks]
  refine (hleast jumps hjumps).mono fun v v' h => ⟨h, ?_, (congrArg World.vars h :)⟩
  rw [← v.published_outline, h, v'.published_outline]

/-- A menu inside a condition, and a jump to another node. -/
def jumpingScript : String :=
  ":: start\nif true\n    -> a\n        A: hi\n    -> b [if false]\nendif\njump end\n:: end\nA: bye\n"

theorem drive_retells_jumping :
    ∃ (host : Host Unit Unit) (w v : World Unit Unit) (n : Node) (least : Nat),
      Reachable host w ∧ w.nodes.get? "start" = some n ∧
      (do
        Play.start host none 0 false
        drive host 5 [0] : Play Unit Unit Unit) w = .ok () v ∧ v.published.length = 8 ∧ v.runner.session = none ∧
      ∀ jumps, least ≤ jumps → ∃ v', tellSession host jumps n "start" 0 ⟨5, [0], 0, 0⟩ w = .ok () v' ∧
        v.published = v'.published := by
  let host : Host Unit Unit := Host.ofBehaviour (Behaviour.attentive ()) 0 1
  let run : Play Unit Unit Unit := do
    Play.start host none 0 false
    drive host 5 [0]
  obtain ⟨w, v, hw, hrun, ⟨hidle, hnone, hoff, hname, hnode⟩, hcount, hdone⟩ : ∃ w v : World Unit Unit, Reachable host w ∧
      run w = .ok () v ∧
      (w.runner.busy = false ∧ w.runner.session = none ∧ w.runnerConfig.autoChoices = false ∧
        Play.startName none w.runnerConfig.startNode = "start" ∧ ((w.nodes.get? "start").any fun n => 0 < n.content.length)) ∧
      v.published.length = 8 ∧ v.runner.session = none := by
    let w := after (Play.perform host (.register jumpingScript)) { config := { autoChoices := false }, host := () }
    have hrun : answer? (run w) = some () := by decide +kernel
    exact ⟨w, after run w, (Reachable.opened (.alone _ ())).called _, ok_of_answer hrun, by decide +kernel, by decide +kernel⟩
  obtain ⟨n, hn, hcontent⟩ := (Option.any_eq_true _ _).1 hnode
  have hstart : w.nodes.get? (Play.startName none w.runnerConfig.startNode) = some n := by rw [hname]; exact hn
  obtain ⟨least, hleast⟩ := drive_retells ⟨_, _, _, rfl⟩ ((Behaviour.reserved_attentive ()).aloof 0 1) hw hidle hnone hoff
    hstart (by simpa using hcontent) 5 [0]
  refine ⟨host, w, v, n, least, hw, hn, hrun, hcount, hdone, fun jumps hjumps => ?_⟩
  have hsame : Same _ (run w) _ := hleast jumps hjumps
  rw [hname, hrun] at hsame
  obtain ⟨v', htold, h⟩ := hsame.ok_left
  exact ⟨v', htold, h.2.1⟩

end Parley
