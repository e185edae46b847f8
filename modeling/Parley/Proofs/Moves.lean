import Parley.Proofs.StepOrder

/-! # Moves of a runner

All that stepping does to the place of a runner comes down to a few moves, and to the choice of a branch for the
condition in front. Without a session nothing is left at a place, and with one it is inside a node (`Place.Settled`);
a move keeps this so, in the middle of a step as well. The branches on record are those of conditions that the runner
is in, and no move adds one or changes one: it forgets those of the conditions that the runner leaves. -/

namespace Parley

namespace Place

/-- Nothing is left of a session. -/
structure Empty (p : Place) : Prop where
  session : p.session = none
  stack : p.stack = []
  memo : p.memo = []
  menu : p.menu = []

/-- Nothing is left of a session, or it stands inside a node. -/
def Settled (p : Place) : Prop := p.Empty ∨ p.session.isSome ∧ p.Stands

theorem Settled.stands {p : Place} (h : p.Settled) (hlive : p.session.isSome) : p.Stands :=
  h.elim (fun h => by rw [h.session] at hlive; cases hlive) fun h => h.2

theorem Settled.empty {p : Place} (h : p.Settled) (hnone : p.session = none) : p.Empty :=
  h.elim id fun h => by rw [hnone] at h; cases h.1

theorem Settled.of_stack {p : Place} {f : Frame} {below : List Frame} (h : p.Settled) (hstack : p.stack = f :: below) :
    p.session.isSome ∧ p.Stands :=
  h.resolve_left fun h => by rw [h.stack] at hstack; cases hstack

theorem Settled.walks {p : Place} {f : Frame} {below : List Frame} (h : p.Settled) (hstack : p.stack = f :: below)
    (hmenu : p.menu = []) : ∃ n, Walks n f below p := by
  obtain ⟨-, n, hn, -⟩ := h.of_stack hstack
  exact ⟨n, hn, hstack, hmenu⟩

/-- Only conditions that the runner is in have a branch on record. -/
theorem Settled.recorded {p : Place} (h : p.Settled) {k : ConditionKey} (hk : (p.memo.lookup k).isSome) :
    k ∈ stackKeys p.stack := by
  rcases h with h | ⟨-, n, hn, -⟩
  · rw [h.memo] at hk; cases hk
  · refine Classical.byContradiction fun hnot => ?_
    have hnone : p.memo.lookup k = none :=
      Memo.lookup_eq_none fun entry he heq => hnot (heq ▸ hn.remembered entry he)
    rw [hnone] at hk
    cases hk

end Place

/-- What the engine does to the place of a runner, apart from choosing branches. -/
inductive Move : Place → Place → Prop
  /-- The session ends, or is discarded. -/
  | ended {p : Place} : Move p ⟨[], [], [], none, none⟩
  | began {n : Node} {i : Nat} {id : SessionId} (hn : (contentKeys n.content).Nodup) (hi : i ≤ n.content.length) :
      Move ⟨[], [], [], none, none⟩ ⟨[⟨.node n, i⟩], [], [], some id, none⟩
  | entered {p : Place} {n : Node} (hlive : p.session.isSome) (hn : (contentKeys n.content).Nodup) :
      Move p { p with stack := [⟨.node n, 0⟩], memo := [], menu := [] }
  | skipped {p : Place} {f : Frame} {below : List Frame} {count : Nat} {wait : Option Binary64}
      (hstack : p.stack = f :: below) (hmenu : p.menu = []) (hin : (f.skip count).Within p.memo) :
      Move p { p with stack := f.skip count :: below, wait }
  | pushed {p : Place} {f : Frame} {below : List Frame} {items : List Content} {c : Condition}
      (hstack : p.stack = f :: below) (hmenu : p.menu = []) (hitems : f.items p.memo = some items)
      (hc : items[f.index]? = some (.condition c)) :
      Move p { p with stack := ⟨.condition c, 0⟩ :: f.skip 1 :: below }
  | popped {p : Place} {f g : Frame} {below : List Frame} (hstack : p.stack = f :: g :: below) (hmenu : p.menu = []) :
      Move p { p with stack := g :: below, memo := (f.key?.map p.memo.forget).getD p.memo }
  /-- A menu is opened, or closed. -/
  | opened {p : Place} {choices : List Choice}
      (hchoices : ∀ c ∈ choices, ∃ f below, p.stack = f :: below ∧ f.Holds p.memo (.choice c)) :
      Move p { p with menu := choices }
  | picked {p : Place} {f : Frame} {below : List Frame} {c : Choice} (hstack : p.stack = f :: below)
      (hmenu : p.menu = []) (hc : f.Holds p.memo (.choice c)) :
      Move p { p with stack := ⟨.choice c, 0⟩ :: f :: below }
  | resumed {p : Place} : Move p { p with wait := none }

namespace Move
variable {p q : Place}

theorem settled (h : Move p q) (hp : p.Settled) : q.Settled := by
  cases h with
  | ended => exact .inl ⟨rfl, rfl, rfl, rfl⟩
  | began hn hi => exact .inr ⟨rfl, Place.stands_of_menu (.enter hn hi) rfl⟩
  | entered hlive hn => exact .inr ⟨hlive, Place.stands_of_menu (.enter hn (Nat.zero_le _)) rfl⟩
  | skipped hstack hmenu hin =>
    obtain ⟨n, hn⟩ := hp.walks hstack hmenu
    exact .inr ⟨(hp.of_stack hstack).1, Place.stands_of_menu (hn.placed'.skip hin) hmenu⟩
  | pushed hstack hmenu hitems hc =>
    obtain ⟨n, hn⟩ := hp.walks hstack hmenu
    exact .inr ⟨(hp.of_stack hstack).1, Place.stands_of_menu (hn.placed'.pushCondition hitems hc) hmenu⟩
  | popped hstack hmenu =>
    obtain ⟨n, hn⟩ := hp.walks hstack hmenu
    exact .inr ⟨(hp.of_stack hstack).1, Place.stands_of_menu hn.placed'.pop hmenu⟩
  | opened hchoices =>
    rcases hp with hp | ⟨hlive, n, hn, -⟩
    · refine .inl ⟨hp.session, hp.stack, hp.memo, List.eq_nil_iff_forall_not_mem.2 fun c hc => ?_⟩
      obtain ⟨f, below, hstack, -⟩ := hchoices c hc
      rw [hp.stack] at hstack
      cases hstack
    · exact .inr ⟨hlive, n, hn, hchoices⟩
  | picked hstack hmenu hc =>
    obtain ⟨n, hn⟩ := hp.walks hstack hmenu
    exact .inr ⟨(hp.of_stack hstack).1, Place.stands_of_menu (hn.placed'.pushChoice hc) hmenu⟩
  | resumed => exact hp.imp (fun h => ⟨h.session, h.stack, h.memo, h.menu⟩) fun h => h

/-- A condition that the runner is still in keeps the branch that it has on record. -/
theorem kept (h : Move p q) (hp : p.Settled) {k : ConditionKey} {b : Branching} (hb : p.memo.lookup k = some b)
    (hk : k ∈ stackKeys q.stack) : q.memo.lookup k = some b := by
  cases h with
  | ended | began | entered => cases hk
  | skipped | pushed | opened | picked | resumed => exact hb
  | popped hstack hmenu =>
    obtain ⟨n, hn⟩ := hp.walks hstack hmenu
    exact (hn.placed'.stacked.lookup_forget hn.placed.nodup hk).trans hb

/-- No branch comes onto the record. -/
theorem unborn (h : Move p q) {k : ConditionKey} (hk : p.memo.lookup k = none) : q.memo.lookup k = none := by
  cases h with
  | ended | began | entered => rfl
  | skipped | pushed | opened | picked | resumed => exact hk
  | @popped _ f =>
    cases f.key? with
    | none => exact hk
    | some key =>
      show (p.memo.forget key).lookup k = none
      rw [Memo.lookup_forget, hk, ite_self]

/-- The runner leaves a condition by leaving its frame, which is in front, or by leaving all frames at once. -/
theorem left (h : Move p q) {k : ConditionKey} (hk : k ∈ stackKeys p.stack) (hq : k ∉ stackKeys q.stack) :
    (∃ f, p.stack = f :: q.stack ∧ f.key? = some k) ∨ q.stack = [] ∨ ∃ n i, q.stack = [⟨.node n, i⟩] := by
  cases h with
  | ended => exact .inr (.inl rfl)
  | began => cases hk
  | entered => exact .inr (.inr ⟨_, _, rfl⟩)
  | skipped hstack => rw [hstack] at hk; exact absurd hk hq
  | pushed hstack => rw [hstack] at hk; exact absurd (List.mem_cons_of_mem _ hk) hq
  | picked hstack => rw [hstack] at hk; exact absurd hk hq
  | opened | resumed => exact absurd hk hq
  | @popped _ f g below hstack =>
    rw [hstack, stackKeys_cons, List.mem_append, Option.mem_toList] at hk
    exact .inl ⟨f, hstack, hk.resolve_right hq⟩

end Move

end Parley
