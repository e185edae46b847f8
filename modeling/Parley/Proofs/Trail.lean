import Parley.Proofs.Placement

/-! # The memo of a walk ahead

A walk ahead keeps a memo of its own, in which it forgets nothing. `Trails stack memo' memo` relates it to the
memo of a runner that has stepped to the same stack and has forgotten what it left: of the conditions on the
stack both know the same, and neither knows anything of those ahead. -/

namespace Parley

structure Trails (stack : List Frame) (memo' memo : Memo) : Prop where
  kept : memo'.filter (fun entry => (stackKeys stack).contains entry.1) = memo
  unknown : ∀ k ∈ stack.flatMap (Frame.ahead memo), memo'.lookup k = none

theorem Frame.ahead_skip_subset (m : Memo) (f : Frame) (count : Nat) :
    (f.skip count).ahead m ⊆ f.ahead m := by
  unfold Frame.ahead
  rw [Frame.items_skip]
  cases f.items m with
  | none => exact List.Subset.refl _
  | some items =>
    refine List.Sublist.subset ?_
    show (contentKeys (items.drop (f.index + count))).Sublist (contentKeys (items.drop f.index))
    rw [← List.drop_drop]
    exact contentKeys_drop_sublist _ _

/-- A choice of branch brings nothing new before a frame. -/
theorem Frame.ahead_record_subset {m : Memo} {k : ConditionKey} (hk : m.lookup k = none) (b : Branching)
    (f : Frame) :
    f.ahead (m.record k b) ⊆ f.ahead m := by
  by_cases hf : f.key? = some k
  · have hitems : f.items m = none := by
      unfold Frame.key? at hf
      split at hf
      · next c hc => cases hf; rw [Frame.items, hc]; simp [hk]
      · cases hf
    rw [show f.ahead m = f.container.inner by rw [Frame.ahead, hitems]; rfl]
    exact (f.ahead_sublist _).subset
  · have hitems : f.items (m.record k b) = f.items m := Frame.items_congr fun k' hk' => by
      rw [Memo.lookup_record, if_neg]
      rintro rfl
      exact hf hk'
    rw [Frame.ahead, hitems]
    exact List.Subset.refl _

theorem Memo.filter_eq_of_lookup {m : Memo} {k : ConditionKey} (hk : m.lookup k = none)
    (keys : List ConditionKey) :
    m.filter (fun entry => (k :: keys).contains entry.1) = m.filter fun entry => keys.contains entry.1 := by
  refine List.filter_congr fun entry he => ?_
  have hne : entry.1 ≠ k := fun h => by
    have := List.lookup_eq_none_iff.1 hk entry he
    simp [h] at this
  rw [List.contains_cons, beq_false_of_ne hne, Bool.false_or]

namespace Trails
variable {n : Node} {f g : Frame} {below stack : List Frame} {memo' memo : Memo} {c : Condition}

theorem refl (h : Placed n stack memo) : Trails stack memo memo :=
  ⟨List.filter_eq_self.2 fun entry he => by simpa using h.remembered entry he, fun _ => h.lookup_ahead⟩

theorem lookup (h : Trails stack memo' memo) {k : ConditionKey} (hk : k ∈ stackKeys stack) :
    memo'.lookup k = memo.lookup k := by
  rw [← h.kept, lookup_filter fun key : ConditionKey => (stackKeys stack).contains key, if_pos (by simpa using hk)]

theorem skip (h : Trails (f :: below) memo' memo) (count : Nat) :
    Trails (f.skip count :: below) memo' memo := by
  refine ⟨h.kept, fun k hk => h.unknown k ?_⟩
  rw [List.flatMap_cons, List.mem_append] at hk ⊢
  exact hk.imp_left fun hk => Frame.ahead_skip_subset _ _ _ hk

theorem pushCondition {items : List Content} (h : Trails (f :: below) memo' memo)
    (hitems : f.items memo = some items) (hc : items[f.index]? = some (.condition c)) :
    Trails (⟨.condition c, 0⟩ :: f.skip 1 :: below) memo' memo := by
  -- the key of the condition and those inside it lie ahead
  have hahead : ∀ k ∈ c.key :: c.inner, k ∈ (f :: below).flatMap (Frame.ahead memo) := by
    intro k hk
    rw [List.flatMap_cons, List.mem_append, Frame.ahead_eq hitems]
    refine .inl ((keys_sublist (c := .condition c) ?_).subset (by rwa [keys_condition]))
    exact List.mem_of_getElem? (i := 0) (by rw [List.getElem?_drop]; exact hc)
  have hkey : memo'.lookup c.key = none := h.unknown _ (hahead _ List.mem_cons_self)
  refine ⟨?_, fun k hk => ?_⟩
  · show memo'.filter (fun entry => (c.key :: stackKeys (f :: below)).contains entry.1) = memo
    rw [Memo.filter_eq_of_lookup hkey]
    exact h.kept
  · rw [List.flatMap_cons, List.mem_append] at hk
    rcases hk with hk | hk
    · exact h.unknown k (hahead k (List.mem_cons_of_mem _ ((Frame.ahead_sublist _ _).subset hk)))
    · exact (h.skip 1).unknown k hk

theorem record (hp : Placed n (f :: below) memo) (h : Trails (f :: below) memo' memo)
    (hc : f.container = .condition c) (hm : memo.lookup c.key = none) (b : Branching) :
    Trails (f :: below) (memo'.record c.key b) (memo.record c.key b) := by
  have hkey : c.key ∈ stackKeys (f :: below) := by simp [stackKeys_cons, Frame.key?_condition hc]
  refine ⟨?_, fun k hk => ?_⟩
  · have hforget : (memo'.forget c.key).filter (fun entry => (stackKeys (f :: below)).contains entry.1) =
        memo.forget c.key := by
      rw [← h.kept]
      simp only [Memo.forget, List.filter_filter, Bool.and_comm]
    rw [Memo.record, List.filter_cons, if_pos (by simpa using hkey), hforget]
    rfl
  · have hne : k ≠ c.key := by
      rintro rfl
      have := (hp.record hc hm b).lookup_ahead hk
      simp [Memo.lookup_record] at this
    rw [Memo.lookup_record, if_neg hne]
    obtain ⟨g, hg, hk⟩ := List.mem_flatMap.1 hk
    exact h.unknown k (List.mem_flatMap.2 ⟨g, hg, Frame.ahead_record_subset hm b g hk⟩)

theorem pop (hp : Placed n (f :: g :: below) memo) (h : Trails (f :: g :: below) memo' memo) :
    Trails (g :: below) memo' ((f.key?.map memo.forget).getD memo) := by
  cases hk : f.key? with
  | none =>
    refine ⟨?_, fun k hk => h.unknown k (List.mem_append_right _ hk)⟩
    have := h.kept
    rwa [stackKeys_cons, hk] at this
  | some key =>
    have hnot : key ∉ stackKeys (g :: below) := by
      unfold Frame.key? at hk
      split at hk
      · next c hc => cases hk; exact hp.stacked.key_notMem hp.nodup hc
      · cases hk
    refine ⟨?_, fun k hahead => ?_⟩
    · have hkept := h.kept
      rw [stackKeys_cons, hk] at hkept
      show _ = memo.filter _
      rw [← hkept, List.filter_filter]
      refine List.filter_congr fun entry _ => ?_
      by_cases he : entry.1 = key
      · simp [he, hnot]
      · simp [he]
    · obtain ⟨g', hg', hk'⟩ := List.mem_flatMap.1 hahead
      have hitems : g'.items (memo.forget key) = g'.items memo := Frame.items_congr fun k' hk'' => by
        rw [Memo.lookup_forget, if_neg]
        rintro rfl
        exact hnot (List.mem_filterMap.2 ⟨g', hg', hk''⟩)
      refine h.unknown k (List.mem_append_right _ (List.mem_flatMap.2 ⟨g', hg', ?_⟩))
      rw [Frame.ahead, ← hitems]
      exact hk'

end Trails
end Parley
