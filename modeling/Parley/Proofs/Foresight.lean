import Parley.Proofs.Guards
import Parley.Proofs.Sight
import Parley.Proofs.StepOrder
import Parley.Proofs.Trail

/-! # Walking ahead agrees with stepping

In a steady node a walk ahead and the steps of a call come, one by one, to the same sights: what the frame in
front shows is found out by the same guards (`seen`), and the two memos answer alike for all that is on the
stack (`Trails`). So they meet at the same place, with the same live choices, or fail with the same fault
(`scan_meets`). -/

namespace Parley
variable {σ μ : Type}

namespace Play
variable (host : Host σ μ)

/-- What a walk ahead sees, with the memo that it has then. -/
def sightIn (memo : Memo) (f : Frame) (isLast : Bool) : Play σ μ (Sight × Memo) := do
  let (items, memo) ← frameItemsIn host memo f
  return (← seen host f isLast items, memo)

end Play

/-- The stack after a silent sight. -/
def Sight.moved (f : Frame) (below : List Frame) : Sight → List Frame
  | leave => below
  | enter c => ⟨.condition c, 0⟩ :: f.skip 1 :: below
  | passBy _ run => f.skip run :: below
  | _ => f :: below

namespace Play
variable (host : Host σ μ)

theorem scanFrom_succ (fuel steps : Nat) (f : Frame) (below : List Frame) (memo : Memo) :
    scanFrom host (fuel + 1) steps (f :: below) memo = (do
      let limit := (← runnerConfig).maxSteps
      if limit ≤ steps then failLimit limit
      else
        let (s, memo) ← sightIn host memo f below.isEmpty
        if s.isSilent then scanFrom host fuel (steps + 1) (s.moved f below) memo
        else return ⟨s.next, f :: below, memo, s.choices, s.run⟩) := by
  rw [scanFrom]
  refine bind_congr fun c => ?_
  dsimp only
  split
  · rfl
  · simp only [sightIn, bind_assoc, pure_bind]
    refine bind_congr fun r => ?_
    obtain ⟨items, memo⟩ := r
    unfold seen
    dsimp only
    cases items.bind fun items => items[f.index]? with
    | none => cases below.isEmpty <;> simp [Sight.isSilent, Sight.moved, Sight.next, Sight.choices, Sight.run]
    | some item =>
      cases item with
      | line | condition | command => rfl
      | choice c =>
        simp only [bind_assoc, pure_bind]
        refine bind_congr fun collected => ?_
        cases collected.1.isEmpty <;> rfl

end Play

/-- From `u`, where a walk ahead has the memo `memo'`, and from `v`, where the runner stands: a computation of
the walk and one of the runner come to the same answer, the memos go on to agree, and apart from the runner's
memo all is as it was. -/
def Matches {α : Type} (S : World σ μ → Prop) (n : Node) (stack : List Frame) (u v : World σ μ)
    (x : Play σ μ (α × Memo)) (y : Play σ μ α) (Q : α → Memo → Prop) : Prop :=
  ∃ (a : Except Fault α) (memo' memo : Memo) (u' v' : World σ μ),
    x u = Except.inWorld (a.map fun a => (a, memo')) u' ∧ y v = Except.inWorld a v' ∧ S u' ∧ S v' ∧ u.Alike u' ∧
    (v.withRunner { v.runner with memo }).Alike v' ∧ Placed n stack memo ∧ Trails stack memo' memo ∧
    ∀ b, a = .ok b → Q b memo

namespace Play
variable {host : Host σ μ} {S : World σ μ → Prop} {n : Node} {f : Frame} {below : List Frame}
  {memo' : Memo} {u v : World σ μ}

theorem frameItems_known {c : Condition} {b : Branching} (hc : f.container = .condition c)
    (hb : v.runner.memo.lookup c.key = some b) : frameItems host f v = .ok (c.contentIn b) v := by
  simp only [frameItems, hc]
  rewrite [run_bind_ok (show runner v = .ok v.runner v from rfl), hb]
  rfl

theorem frameItems_unknown {c : Condition} (hc : f.container = .condition c)
    (hb : v.runner.memo.lookup c.key = none) : frameItems host f v = (do
      let b ← selectBranch host c
      modifyRunner fun r => { r with memo := r.memo.record c.key b }
      return c.contentIn b : Play σ μ _) v := by
  simp only [frameItems, hc]
  rw [run_bind_ok (show runner v = .ok v.runner v from rfl), hb]

theorem matches_frameItems (hst : Steady host S n) (hu : S u) (hv : S v)
    (hp : Placed n (f :: below) v.runner.memo) (ht : Trails (f :: below) memo' v.runner.memo) :
    Matches S n (f :: below) u v (frameItemsIn host memo' f) (frameItems host f) fun items m => f.items m = items := by
  have hknown {items : Option (List Content)} (hx : frameItemsIn host memo' f u = .ok (items, memo') u)
      (hy : frameItems host f v = .ok items v) (hitems : f.items v.runner.memo = items) :
      Matches S n (f :: below) u v (frameItemsIn host memo' f) (frameItems host f) fun items m => f.items m = items :=
    ⟨.ok items, memo', v.runner.memo, u, v, hx, hy, hu, hv, .refl u, .refl v, hp, ht, by rintro _ ⟨⟩; exact hitems⟩
  cases hc : f.container with
  | node | choice =>
    exact hknown (by simp only [frameItemsIn, hc]; rfl) (by simp only [frameItems, hc]; rfl) (by rw [Frame.items, hc])
  | condition c =>
    have hkey : memo'.lookup c.key = v.runner.memo.lookup c.key :=
      ht.lookup (by simp [stackKeys_cons, Frame.key?_condition hc])
    cases hb : v.runner.memo.lookup c.key with
    | some b =>
      refine hknown (by simp only [frameItemsIn, hc, hkey, hb]; rfl) (frameItems_known hc hb) ?_
      rw [Frame.items, hc]
      exact congrArg (·.bind c.contentIn) hb
    | none =>
      have hguard := hp.stacked.guarded hst.guards f List.mem_cons_self
      rw [hc] at hguard
      obtain ⟨a, ha⟩ := answering_selectBranch hguard
      obtain ⟨u', hxu, hSu, hau⟩ := ha u hu
      obtain ⟨v', hxv, hSv, hav⟩ := ha v hv
      have hx : frameItemsIn host memo' f u = (do
          let b ← selectBranch host c
          return (c.contentIn b, memo'.record c.key b) : Play σ μ _) u := by
        simp only [frameItemsIn, hc, hkey, hb]
      cases a with
      | error e =>
        exact ⟨.error e, memo', v.runner.memo, u', v', hx.trans (run_bind_error hxu),
          (frameItems_unknown hc hb).trans (run_bind_error hxv), hSu, hSv, hau, hav, hp, ht, by rintro _ ⟨⟩⟩
      | ok b =>
        refine ⟨.ok (c.contentIn b), memo'.record c.key b, v.runner.memo.record c.key b, u',
          v'.withRunner { v'.runner with memo := v'.runner.memo.record c.key b }, hx.trans (run_bind_ok hxu),
          (frameItems_unknown hc hb).trans (run_bind_ok hxv), hSu, hst.moved hSv rfl rfl, hau, ?_,
          hp.record hc hb b, ht.record hp hc hb b, ?_⟩
        · exact ⟨by rw [hav.runner]; rfl, hav.vars, hav.config, hav.published⟩
        · rintro _ ⟨⟩
          simp [Frame.items, hc, Memo.lookup_record]

/-- In its innermost frame, the runner sees what the items of that frame show. -/
theorem sight_eq (hs : v.runner.stack = f :: below) : sight host v = (do
    let items ← frameItems host f
    seen host f ((← runner).stack.length = 1) items : Play σ μ Sight) v := by
  unfold sight
  rewrite [run_bind_ok (show runner v = .ok v.runner v from rfl), hs]
  rfl

theorem sight_of_items {items : Option (List Content)} {v' : World σ μ} (hs : v.runner.stack = f :: below)
    (hitems : frameItems host f v = .ok items v') (hs' : v'.runner.stack = f :: below) :
    sight host v = seen host f below.isEmpty items v' := by
  rw [sight_eq hs, run_bind_ok hitems, run_bind_ok (show runner v' = .ok v'.runner v' from rfl), hs']
  cases below <;> rfl

end Play

/-- What a frame can show. -/
def Sight.Fits (f : Frame) (below : List Frame) (m : Memo) : Sight → Prop
  | leave => below ≠ []
  | enter c => ∃ items, f.items m = some items ∧ items[f.index]? = some (.condition c)
  | passBy _ run | menu _ run => (f.skip run).Within m
  | _ => True

namespace Play
variable {host : Host σ μ} {S : World σ μ → Prop} {n : Node} {f : Frame} {below : List Frame}
  {memo' : Memo} {u v : World σ μ}

theorem answering_seen {m : Memo} (isLast : Bool)
    (hf : f.container.Guarded fun what e => Answering S (test host what e)) :
    Answering S (seen host f isLast (f.items m)) := by
  unfold seen
  split
  · exact .pure _
  · exact .pure _
  · next c hc =>
    obtain ⟨items, hitems, -⟩ := Option.bind_eq_some_iff.1 hc
    rw [hitems]
    have hguard : contentGuarded (fun what e => Answering S (test host what e)) (items.drop f.index) :=
      contentGuarded_iff.2 fun d hd => contentGuarded_iff.1 (Frame.guarded_items hf hitems) d (List.mem_of_mem_drop hd)
    exact (answering_collectChoices hguard).bind fun _ => .pure _
  · exact .pure _
  · exact .pure _

theorem fits_seen {m : Memo} {s : Sight} {w w' : World σ μ}
    (h : seen host f below.isEmpty (f.items m) w = .ok s w') : s.Fits f below m := by
  unfold seen at h
  cases hitem : (f.items m).bind fun items => items[f.index]? with
  | none =>
    rw [hitem] at h
    cases h
    cases below <;> simp [Sight.Fits]
  | some item =>
    obtain ⟨items, hitems, hc⟩ := Option.bind_eq_some_iff.1 hitem
    rw [hitem] at h
    cases item with
    | condition c => cases h; exact ⟨items, hitems, hc⟩
    | line | command => cases h; trivial
    | choice c =>
      obtain ⟨⟨live, run⟩, v, hlive, h⟩ := bind_ok h
      obtain ⟨rfl, -⟩ := collectChoices_ok hlive
      cases h
      rw [hitems, Option.getD_some]
      split <;> exact Frame.within_choiceRun hitems hc

theorem matches_sight (hst : Steady host S n) (hu : S u) (hv : S v) (hs : v.runner.stack = f :: below)
    (hp : Placed n (f :: below) v.runner.memo) (ht : Trails (f :: below) memo' v.runner.memo) :
    Matches S n (f :: below) u v (sightIn host memo' f below.isEmpty) (sight host) fun s m => s.Fits f below m := by
  obtain ⟨a, m', m, u', v', hx, hy, hu', hv', hau, hav, hp', ht', hitems⟩ := matches_frameItems hst hu hv hp ht
  cases a with
  | error e =>
    exact ⟨.error e, m', m, u', v', run_bind_error hx, (sight_eq hs).trans (run_bind_error hy), hu', hv', hau, hav, hp', ht',
      by rintro _ ⟨⟩⟩
  | ok items =>
    obtain rfl := hitems items rfl
    have hs' : v'.runner.stack = f :: below := by rw [hav.runner]; exact hs
    obtain ⟨b, hb⟩ := answering_seen (m := m) below.isEmpty
      (hp.stacked.guarded hst.guards f List.mem_cons_self)
    obtain ⟨u'', hxu, hSu, hau'⟩ := hb u' hu'
    obtain ⟨v'', hxv, hSv, hav'⟩ := hb v' hv'
    have hx' : sightIn host memo' f below.isEmpty u = Except.inWorld (b.map fun s => (s, m')) u'' := by
      rw [sightIn, run_bind_ok hx]
      cases b with
      | error e => exact run_bind_error hxu
      | ok s => exact run_bind_ok hxu
    refine ⟨b, m', m, u'', v'', hx', (sight_of_items hs hy hs').trans hxv, hSu, hSv, hau.trans hau', hav.trans hav', hp', ht', ?_⟩
    rintro s rfl
    exact fits_seen hxu

end Play

/-- What the memo keeps after a silent sight. -/
def Sight.left (f : Frame) (m : Memo) : Sight → Memo
  | leave => (f.key?.map m.forget).getD m
  | _ => m

section
variable {n : Node} {f : Frame} {below : List Frame} {memo' memo : Memo} {s : Sight}

theorem Placed.moved (h : Placed n (f :: below) memo) (hs : s.isSilent) (hfit : s.Fits f below memo) :
    Placed n (s.moved f below) (s.left f memo) := by
  cases s with
  | leave =>
    cases below with
    | nil => exact absurd rfl hfit
    | cons g below => exact h.pop
  | enter c => obtain ⟨items, hitems, hc⟩ := hfit; exact h.pushCondition hitems hc
  | passBy c run => exact h.skip hfit
  | finish | menu | line | command => cases hs

theorem Trails.moved (hp : Placed n (f :: below) memo) (h : Trails (f :: below) memo' memo)
    (hs : s.isSilent) (hfit : s.Fits f below memo) : Trails (s.moved f below) memo' (s.left f memo) := by
  cases s with
  | leave =>
    cases below with
    | nil => exact absurd rfl hfit
    | cons g below => exact h.pop hp
  | enter c => obtain ⟨items, hitems, hc⟩ := hfit; exact h.pushCondition hitems hc
  | passBy c run => exact h.skip run
  | finish | menu | line | command => cases hs

end

/-- The walk has stopped where the runner has come to, in front of the same. -/
structure Lookahead.Meets (a : Lookahead) (s : Sight) (r r' : Runner) : Prop where
  acts : s.isSilent = false
  kind : a.kind = s.next
  choices : a.choices = s.choices
  run : a.run = s.run
  runner : r' = { r with stack := a.stack, memo := a.memo.filter fun entry => (stackKeys a.stack).contains entry.1 }

namespace Play
variable {host : Host σ μ} {S : World σ μ → Prop} {n : Node}

/-- A silent sight only moves the runner. -/
theorem carryOut_moved {v : World σ μ} {f : Frame} {below : List Frame} {s : Sight}
    (hst : Steady host S n) (hv : S v) (hs : s.isSilent) (hstack : v.runner.stack = f :: below) :
    ∃ v', carryOut host s v = .ok false v' ∧ S v' ∧
      (v.withRunner { v.runner with stack := s.moved f below, memo := s.left f v.runner.memo }).Alike v' := by
  have hmoved {stack : List Frame} {memo : Memo} : S (v.withRunner { v.runner with stack, memo }) := hst.moved hv rfl rfl
  cases s with
  | leave =>
    refine ⟨_, ?_, hmoved, .refl _⟩
    refine run_bind_ok (show popFrame v = .ok () _ from ?_)
    rw [popFrame, run_bind_ok (show runner v = .ok v.runner v from rfl), hstack]
    rfl
  | enter c =>
    refine ⟨_, run_bind_ok (show modifyRunner _ v = .ok () _ from ?_), hmoved, .refl _⟩
    show EStateM.Result.ok () (v.withRunner ((v.runner.skip 1).push (.condition c))) = _
    rw [Runner.skip_cons hstack]
    rfl
  | passBy c run =>
    refine ⟨_, ?_, hst.logged ⟨.debug, .runner, s!"No live choices at line {c.pos.line}; skipping the menu"⟩ hmoved,
      ⟨rfl, rfl, rfl, rfl⟩⟩
    show EStateM.Result.ok false ((v.withRunner (v.runner.skip run)).noting _) = _
    rw [Runner.skip_cons hstack]
    rfl
  | finish | menu | line | command => cases hs

/-- And so it does behind the look that shows it, which only moves the memo. -/
theorem carryOut_onward {v v' : World σ μ} {f : Frame} {below : List Frame} {m : Memo} {s : Sight}
    (hst : Steady host S n) (hv' : S v') (hs : s.isSilent) (hstack : v.runner.stack = f :: below)
    (hav : (v.withRunner { v.runner with memo := m }).Alike v') :
    ∃ v'', carryOut host s v' = .ok false v'' ∧ S v'' ∧
      (v.withRunner { v.runner with stack := s.moved f below, memo := s.left f m }).Alike v'' := by
  have hstack' : v'.runner.stack = f :: below := by rw [hav.runner]; exact hstack
  obtain ⟨v'', hcarry, hSv'', hav''⟩ := carryOut_moved hst hv' hs hstack'
  refine ⟨v'', hcarry, hSv'', ?_, hav''.vars.trans hav.vars, hav''.config.trans hav.config,
    hav''.published.trans hav.published⟩
  rw [hav''.runner, hav.runner]
  rfl

theorem currentNode_of_placed {r : Runner} (h : Placed n r.stack r.memo) :
    r.currentNode = .ok (some n.name) := by
  obtain ⟨inner, i, hs, -⟩ := h.stacked.node_below
  rw [Runner.currentNode, hs, List.getLast?_concat]

/-- A walk ahead from where the runner is and the silent steps of the runner end alike. -/
theorem scanFrom_meets (hst : Steady host S n) (fuel steps : Nat) {u v : World σ μ} {memo' : Memo}
    (hu : S u) (hv : S v) (hconfig : u.runnerConfig = v.runnerConfig)
    (hname : u.runner.currentNode = .ok (some n.name)) (hlive : v.runner.session.isSome)
    (hmenu : v.runner.menu = []) (hp : Placed n v.runner.stack v.runner.memo)
    (ht : Trails v.runner.stack memo' v.runner.memo) :
    ∃ (o : Except Fault (Lookahead × Halt)) (u' v' : World σ μ),
      scanFrom host fuel steps v.runner.stack memo' u = Except.inWorld (o.map Prod.fst) u' ∧
      approachFrom host fuel steps v = Except.inWorld (o.map fun p => some p.2) v' ∧
      S u' ∧ S v' ∧ u.Alike u' ∧ (v.withRunner v'.runner).Alike v' ∧
      ∀ a h, o = .ok (a, h) → a.Meets h.sight v.runner v'.runner := by
  induction fuel generalizing steps u v memo' with
  | zero => exact ⟨.error .exhausted, u, v, rfl, rfl, hu, hv, .refl u, .refl v, by rintro _ _ ⟨⟩⟩
  | succ fuel ih =>
    cases hs : v.runner.stack with
    | nil => rw [hs] at hp; cases hp.stacked
    | cons f below =>
      have hgo : ¬(v.runner.session.isNone ∨ (!v.runner.menu.isEmpty) = true) := by
        simp [hmenu, Option.isSome_iff_ne_none.1 hlive]
      rw [scanFrom_succ, run_bind_ok (show runnerConfig u = .ok u.runnerConfig u from rfl), approachFrom,
        run_bind_ok (show runner v = .ok v.runner v from rfl), if_neg hgo,
        run_bind_ok (show runnerConfig v = .ok v.runnerConfig v from rfl), hconfig]
      dsimp only
      by_cases hlimit : v.runnerConfig.maxSteps ≤ steps
      · rw [if_pos hlimit, if_pos hlimit, failLimit_eq hname, failLimit_eq (currentNode_of_placed hp)]
        exact ⟨.error _, _, _, rfl, rfl, hst.logged _ hu, hst.logged _ hv, ⟨rfl, rfl, rfl, rfl⟩, ⟨rfl, rfl, rfl, rfl⟩,
          by rintro _ _ ⟨⟩⟩
      · rw [if_neg hlimit, if_neg hlimit]
        rw [hs] at hp ht
        obtain ⟨a, m', m, u', v', hx, hy, hSu, hSv, hau, hav, hp', ht', hfit⟩ := matches_sight hst hu hv hs hp ht
        have hown : (v.withRunner v'.runner).Alike v' := ⟨rfl, hav.vars, hav.config, hav.published⟩
        cases a with
        | error e =>
          exact ⟨.error e, u', v', run_bind_error hx, run_bind_error hy, hSu, hSv, hau, hown, by rintro _ _ ⟨⟩⟩
        | ok s =>
          rw [run_bind_ok hx, run_bind_ok hy]
          dsimp only
          cases hsilent : s.isSilent with
          | false =>
            refine ⟨.ok (⟨s.next, f :: below, m', s.choices, s.run⟩, ⟨s, fuel, steps⟩), u', v', rfl, rfl, hSu, hSv, hau,
              hown, ?_⟩
            rintro _ _ ⟨⟩
            refine ⟨hsilent, rfl, rfl, rfl, ?_⟩
            rw [hav.runner]
            dsimp only [World.withRunner]
            rw [ht'.kept, ← hs]
          | true =>
            obtain ⟨v'', hcarry, hSv'', hav''⟩ := carryOut_onward hst hSv hsilent hs hav
            have hr : v''.runner = { v.runner with stack := s.moved f below, memo := s.left f m } := hav''.runner
            have hconfig'' : u'.runnerConfig = v''.runnerConfig := by
              rw [hau.runnerConfig, hconfig, World.runnerConfig, World.runnerConfig, hr, hav''.config]
              rfl
            have hmoved := hp'.moved hsilent (hfit s rfl)
            have htrails' : Trails v''.runner.stack m' v''.runner.memo := by
              rw [hr]
              exact ht'.moved hp' hsilent (hfit s rfl)
            obtain ⟨o, u₂, v₂, hscan, happroach, hSu₂, hSv₂, hau₂, hav₂, hmeets⟩ := ih (steps + 1) hSu hSv'' hconfig''
              (by rw [hau.runner]; exact hname) (by rw [hr]; exact hlive) (by rw [hr]; exact hmenu) (by rw [hr]; exact hmoved)
              htrails'
            rw [hr] at hscan hmeets
            rw [if_pos rfl, if_pos rfl, run_bind_ok hcarry]
            refine ⟨o, u₂, v₂, hscan, happroach, hSu₂, hSv₂, hau.trans hau₂, ?_, fun a h ho => ?_⟩
            · exact ⟨rfl, hav₂.vars.trans hav''.vars, hav₂.config.trans hav''.config, hav₂.published.trans hav''.published⟩
            · have hmeet := hmeets a h ho
              exact ⟨hmeet.acts, hmeet.kind, hmeet.choices, hmeet.run, hmeet.runner⟩

/-- The same for a whole query and a call that begins where the query was made. -/
theorem scan_meets (hst : Steady host S n) {w : World σ μ} (hw : S w) (hlive : w.runner.session.isSome)
    (hmenu : w.runner.menu = []) (hp : Placed n w.runner.stack w.runner.memo) :
    ∃ (o : Except Fault (Lookahead × Halt)) (u v : World σ μ),
      scan host w = Except.inWorld (o.map Prod.fst) u ∧
      approach host w.begun = Except.inWorld (o.map fun p => some p.2) v ∧
      S u ∧ S v ∧ w.Alike u ∧ (w.withRunner v.runner).Alike v ∧
      ∀ a h, o = .ok (a, h) → a.Meets h.sight { w.begun.runner with wait := none } v.runner := by
  have hv : S (w.begun.withRunner { w.begun.runner with wait := none }) := hst.moved (hst.moved hw rfl rfl) rfl rfl
  exact scanFrom_meets hst (host.patience + w.runnerConfig.maxSteps + 2) 0 hw hv rfl (currentNode_of_placed hp) hlive hmenu hp
    (.refl hp)

end Play
end Parley
