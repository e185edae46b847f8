import Parley.Engine.Step
import Parley.Proofs.ConditionKeys

/-! # Stacks that stand in a tree

`Stacked m n stack`: the frames of a stack, read with the branches of the memo `m`, lead from the node
`n` inward, each container being the child of the frame below it that was entered last. Everything else
that is said about stacks follows from that and from the keys of the node being distinct: `Stacked.nodup`
lists the conditions on a stack together with those that still lie ahead of it, each once. `Stacked`
survives what the engine does to stacks (`skip`, `pushCondition`, `pushChoice`, `pop`) and any change of
the memo that leaves the branches of the stack alone (`congr`). -/

namespace Parley

namespace Memo

theorem lookup_forget (m : Memo) (key other : ConditionKey) :
    (m.forget key).lookup other = if other = key then none else m.lookup other := by
  rw [forget, lookup_filter fun k : ConditionKey => k != key]
  by_cases h : other = key <;> simp [h]

theorem lookup_record (m : Memo) (key other : ConditionKey) (b : Branching) :
    (m.record key b).lookup other = if other = key then some b else m.lookup other := by
  rw [record, List.lookup_cons, lookup_forget]
  by_cases h : other = key
  · simp [h]
  · rw [if_neg h, if_neg h, beq_false_of_ne h]

theorem lookup_eq_none {m : Memo} {key : ConditionKey} (h : ∀ entry ∈ m, entry.1 ≠ key) :
    m.lookup key = none :=
  List.lookup_eq_none_iff.2 fun entry he => by simpa using (h entry he).symm

end Memo

/-- The items of a frame, as a memo has them; none for a condition with no branch chosen or taken. -/
def Frame.items (m : Memo) (f : Frame) : Option (List Content) :=
  match f.container with
  | .node n => some n.content
  | .choice c => some c.content
  | .condition c => (m.lookup c.key).bind c.contentIn

/-- The keys of the conditions inside a container. -/
def Container.inner : Container → List ConditionKey
  | .node n => contentKeys n.content
  | .choice c => contentKeys c.content
  | .condition c => c.inner

namespace Frame

/-- The keys of a frame's container, its own included. -/
def keys (f : Frame) : List ConditionKey := f.key?.toList ++ f.container.inner

/-- The keys that a frame has before it: those from its position on, or all inside it while it has no
items. -/
def ahead (m : Memo) (f : Frame) : List ConditionKey :=
  (f.items m).elim f.container.inner fun items => contentKeys (items.drop f.index)

/-- The key of a frame and the keys ahead of it. -/
def agenda (m : Memo) (f : Frame) : List ConditionKey := f.key?.toList ++ f.ahead m

/-- The position of a frame is one of its items or the end of them; it is 0 where there are none. -/
def Within (m : Memo) (f : Frame) : Prop := f.index ≤ ((f.items m).getD []).length

end Frame

/-- The choice stands in the run of choices that ends right before a position. -/
def InRun (items : List Content) (stop : Nat) (c : Choice) : Prop :=
  ∃ i, i < stop ∧ items[i]? = some (.choice c) ∧
    (∀ j, i ≤ j → j < stop → ∃ d, items[j]? = some (.choice d)) ∧ ∀ d, items[stop]? ≠ some (.choice d)

/-- The container is a child of the frame, entered right before the frame's position: a condition stands
there, a choice in the run of choices that ends there. -/
def Frame.Holds (m : Memo) (f : Frame) : Container → Prop
  | .node _ => False
  | .choice c => ∃ items, f.items m = some items ∧ InRun items f.index c
  | .condition c => ∃ items i, f.items m = some items ∧ f.index = i + 1 ∧ items[i]? = some (.condition c)

/-- The frames lead from a node inward, the innermost frame first. -/
inductive Stacked (m : Memo) (n : Node) : List Frame → Prop
  | node {i : Nat} (h : i ≤ n.content.length) : Stacked m n [⟨.node n, i⟩]
  | child {f g : Frame} {below : List Frame} (hchild : g.Holds m f.container) (hf : f.Within m)
      (h : Stacked m n (g :: below)) : Stacked m n (f :: g :: below)

/-- The keys of the conditions on a stack. -/
def stackKeys (stack : List Frame) : List ConditionKey := stack.filterMap Frame.key?

theorem stackKeys_cons (f : Frame) (below : List Frame) :
    stackKeys (f :: below) = f.key?.toList ++ stackKeys below := by
  rw [stackKeys, List.filterMap_cons]; cases f.key? <;> rfl

theorem Condition.contentKeys_contentIn_sublist (c : Condition) {b : Branching} {items : List Content}
    (h : c.contentIn b = some items) : (contentKeys items).Sublist c.inner := by
  cases b with
  | thenBranch => cases h; exact List.sublist_append_left _ _
  | elifBranch i =>
    obtain ⟨branch, hb, rfl⟩ := Option.map_eq_some_iff.1 h
    exact ((branchKeys_sublist (List.mem_of_getElem? hb)).trans (List.sublist_append_left _ _)).trans
      (List.sublist_append_right _ _)
  | elseBranch =>
    change c.elseBranch = some items at h
    unfold Condition.inner
    rw [h]
    exact (List.sublist_append_right _ _).trans (List.sublist_append_right _ _)
  | none => cases h

namespace Frame
variable {m m' : Memo} {f : Frame} {c : Condition}

@[simp] theorem key?_skip (f : Frame) (count : Nat) : (f.skip count).key? = f.key? := rfl

@[simp] theorem items_skip (m : Memo) (f : Frame) (count : Nat) :
    (f.skip count).items m = f.items m := rfl

theorem key?_condition (h : f.container = .condition c) : f.key? = some c.key := by
  rw [key?, h]

theorem key?_eq_some {key : ConditionKey} (h : f.key? = some key) :
    ∃ c, f.container = .condition c ∧ c.key = key := by
  unfold key? at h
  split at h
  · next c hc => exact ⟨c, hc, Option.some.inj h⟩
  · cases h

theorem items_congr (h : ∀ k, f.key? = some k → m'.lookup k = m.lookup k) : f.items m' = f.items m := by
  obtain ⟨container, i⟩ := f
  cases container with
  | node | choice => rfl
  | condition c => exact congrArg (·.bind c.contentIn) (h c.key rfl)

theorem holds_congr (h : f.items m' = f.items m) (c : Container) : f.Holds m' c ↔ f.Holds m c := by
  cases c <;> simp only [Holds, h]

theorem within_congr (h : f.items m' = f.items m) : f.Within m' ↔ f.Within m := by
  simp only [Within, h]

theorem contentKeys_items_sublist {items : List Content} (h : f.items m = some items) :
    (contentKeys items).Sublist f.container.inner := by
  obtain ⟨container, i⟩ := f
  cases container with
  | node n => cases h; exact List.Sublist.refl _
  | choice c => cases h; exact List.Sublist.refl _
  | condition c =>
    obtain ⟨b, -, hb⟩ := Option.bind_eq_some_iff.1 h
    exact c.contentKeys_contentIn_sublist hb

theorem ahead_eq {items : List Content} (h : f.items m = some items) :
    f.ahead m = contentKeys (items.drop f.index) := by
  rw [ahead, h]; rfl

theorem ahead_sublist (m : Memo) (f : Frame) : (f.ahead m).Sublist f.container.inner := by
  cases h : f.items m with
  | none => rw [ahead, h]; exact List.Sublist.refl _
  | some items =>
    rw [ahead_eq h]
    exact (contentKeys_drop_sublist _ _).trans (contentKeys_items_sublist h)

/-- A child has its keys in front of those ahead. -/
theorem Holds.keys_append_ahead_sublist {g : Frame} (h : g.Holds m f.container) :
    (f.keys ++ g.ahead m).Sublist g.container.inner := by
  obtain ⟨container, i⟩ := f
  cases container with
  | node n => exact h.elim
  | choice c =>
    obtain ⟨items, hitems, i, hi, hc, -⟩ := h
    have hsub := keys_append_drop_sublist hc hi
    rw [keys_choice] at hsub
    rw [ahead_eq hitems]
    exact hsub.trans (contentKeys_items_sublist hitems)
  | condition c =>
    obtain ⟨items, i, hitems, hidx, hc⟩ := h
    have hsub := keys_append_drop_sublist hc (Nat.lt_succ_self i)
    rw [keys_condition] at hsub
    rw [ahead_eq hitems, hidx]
    exact hsub.trans (contentKeys_items_sublist hitems)

end Frame

namespace Stacked
variable {m m' : Memo} {n : Node} {f g : Frame} {below stack : List Frame}

theorem congr (hm : ∀ k ∈ stackKeys stack, m'.lookup k = m.lookup k) (h : Stacked m n stack) :
    Stacked m' n stack := by
  induction h with
  | node h => exact .node h
  | @child f g below hchild hf h ih =>
    rw [stackKeys_cons] at hm
    have hbelow : ∀ k ∈ stackKeys (g :: below), m'.lookup k = m.lookup k := fun k hk =>
      hm k (List.mem_append_right _ hk)
    have hg : g.items m' = g.items m := Frame.items_congr fun k hk =>
      hbelow k (List.mem_filterMap.2 ⟨g, List.mem_cons_self, hk⟩)
    have hf' : f.items m' = f.items m := Frame.items_congr fun k hk => hm k (by simp [hk])
    exact .child ((Frame.holds_congr hg _).2 hchild) ((Frame.within_congr hf').2 hf) (ih hbelow)

/-- The keys of the innermost container, with the conditions further out and what lies ahead of them:
no key twice. -/
theorem nodup_keys (hn : (contentKeys n.content).Nodup) (h : Stacked m n (f :: below)) :
    (f.keys ++ below.flatMap (Frame.agenda m)).Nodup := by
  generalize hs : f :: below = stack at h
  induction h generalizing f below with
  | node =>
    obtain ⟨rfl, rfl⟩ := List.cons.inj hs
    simpa [Frame.keys, Frame.key?, Container.inner] using hn
  | @child f' g below' hchild hf h ih =>
    obtain ⟨rfl, rfl⟩ := List.cons.inj hs
    have hsub : (g.key?.toList ++ (f.keys ++ g.ahead m) ++ below'.flatMap (Frame.agenda m)).Sublist
        (g.keys ++ below'.flatMap (Frame.agenda m)) :=
      ((List.Sublist.refl _).append hchild.keys_append_ahead_sublist).append (List.Sublist.refl _)
    -- the key of `g` comes before those of its child there, and after them here
    have hperm : (f.keys ++ (g :: below').flatMap (Frame.agenda m)).Perm
        (g.key?.toList ++ (f.keys ++ g.ahead m) ++ below'.flatMap (Frame.agenda m)) := by
      rw [List.flatMap_cons, Frame.agenda]
      simp only [← List.append_assoc]
      exact (List.perm_append_comm.append_right _).append_right _
    exact hperm.nodup_iff.2 ((ih rfl).sublist hsub)

theorem nodup (hn : (contentKeys n.content).Nodup) (h : Stacked m n stack) :
    (stack.flatMap (Frame.agenda m)).Nodup := by
  cases stack with
  | nil => exact .nil
  | cons f below =>
    refine (h.nodup_keys hn).sublist ?_
    rw [List.flatMap_cons]
    exact ((List.Sublist.refl _).append (f.ahead_sublist m)).append (List.Sublist.refl _)

end Stacked

theorem agenda_perm (m : Memo) (stack : List Frame) :
    (stack.flatMap (Frame.agenda m)).Perm (stackKeys stack ++ stack.flatMap (Frame.ahead m)) := by
  induction stack with
  | nil => exact .refl _
  | cons f below ih =>
    rw [stackKeys_cons, List.flatMap_cons, List.flatMap_cons, Frame.agenda, List.append_assoc, List.append_assoc]
    refine .append_left _ ((ih.append_left _).trans ?_)
    simp only [← List.append_assoc]
    exact List.perm_append_comm.append_right _

namespace Stacked
variable {m m' : Memo} {n : Node} {f g : Frame} {below stack : List Frame} {c : Condition}

/-- The condition in front is not on the stack below it. -/
theorem key_notMem (hn : (contentKeys n.content).Nodup) (h : Stacked m n (f :: below))
    (hc : f.container = .condition c) : c.key ∉ stackKeys below := by
  have hnd := h.nodup_keys hn
  rw [List.nodup_append] at hnd
  intro hk
  exact hnd.2.2 c.key (by simp [Frame.keys, Frame.key?_condition hc]) c.key
    ((agenda_perm m below).mem_iff.2 (List.mem_append_left _ hk)) rfl

/-- Forgetting the condition in front leaves the branches of the others. -/
theorem lookup_forget (hn : (contentKeys n.content).Nodup) (h : Stacked m n (f :: below))
    {k : ConditionKey} (hk : k ∈ stackKeys below) :
    ((f.key?.map m.forget).getD m).lookup k = m.lookup k := by
  cases hkey : f.key? with
  | none => rfl
  | some key =>
    obtain ⟨c, hc, rfl⟩ := Frame.key?_eq_some hkey
    show (m.forget c.key).lookup k = _
    rw [Memo.lookup_forget, if_neg]
    rintro rfl
    exact h.key_notMem hn hc hk

theorem pop (h : Stacked m n (f :: g :: below)) : Stacked m n (g :: below) := by
  cases h with
  | child _ _ h => exact h

theorem within (h : Stacked m n stack) : ∀ f ∈ stack, f.Within m := by
  induction h with
  | node h => simpa [Frame.Within, Frame.items] using h
  | child _ hf _ ih => exact List.forall_mem_cons.2 ⟨hf, ih⟩

theorem node_below (h : Stacked m n stack) :
    ∃ inner i, stack = inner ++ [⟨.node n, i⟩] ∧ ∀ f ∈ inner, ∀ k, f.container ≠ .node k := by
  induction h with
  | @node i => exact ⟨[], i, rfl, by simp⟩
  | @child f g below hchild _ _ ih =>
    obtain ⟨inner, i, hs, hinner⟩ := ih
    refine ⟨f :: inner, i, by rw [hs]; rfl, List.forall_mem_cons.2 ⟨fun k hk => ?_, hinner⟩⟩
    rw [hk] at hchild
    exact hchild

theorem skip {count : Nat} (h : Stacked m n (f :: below)) (hf : (f.skip count).Within m) :
    Stacked m n (f.skip count :: below) := by
  cases h with
  | node h => exact .node hf
  | child hchild _ h => exact .child hchild hf h

theorem pushCondition {items : List Content} (h : Stacked m n (f :: below))
    (hitems : f.items m = some items) (hc : items[f.index]? = some (.condition c)) :
    Stacked m n (⟨.condition c, 0⟩ :: f.skip 1 :: below) := by
  have hlt : f.index < items.length := (List.getElem?_eq_some_iff.1 hc).1
  refine .child ⟨items, f.index, hitems, rfl, hc⟩ (Nat.zero_le _) (h.skip ?_)
  show f.index + 1 ≤ _
  rw [Frame.items_skip, hitems]
  exact hlt

theorem pushChoice {c : Choice} (h : Stacked m n (f :: below)) (hc : f.Holds m (.choice c)) :
    Stacked m n (⟨.choice c, 0⟩ :: f :: below) :=
  .child hc (Nat.zero_le _) h

/-- A branch is chosen for the condition in front. -/
theorem record (hn : (contentKeys n.content).Nodup) (h : Stacked m n (f :: below))
    (hc : f.container = .condition c) (hm : m.lookup c.key = none) (b : Branching) :
    Stacked (m.record c.key b) n (f :: below) := by
  have hbelow : ∀ k ∈ stackKeys below, (m.record c.key b).lookup k = m.lookup k := by
    intro k hk
    rw [Memo.lookup_record, if_neg]
    rintro rfl
    exact h.key_notMem hn hc hk
  have hitems : f.items m = none := by rw [Frame.items, hc]; simp [hm]
  cases h with
  | node => cases hc
  | @child _ g below' hchild hf h =>
    have hg : g.items (m.record c.key b) = g.items m := Frame.items_congr fun k hk =>
      hbelow k (List.mem_filterMap.2 ⟨g, List.mem_cons_self, hk⟩)
    refine .child ((Frame.holds_congr hg _).2 hchild) ?_ (h.congr hbelow)
    rw [Frame.Within, hitems] at hf
    exact Nat.le_trans hf (Nat.zero_le _)

end Stacked

/-- The choices that a list starts with. -/
def choiceRun : List Content → List Choice
  | .choice c :: rest => c :: choiceRun rest
  | _ => []

theorem getElem?_choiceRun {items : List Content} {j : Nat} {c : Choice}
    (h : (choiceRun items)[j]? = some c) :
    items[j]? = some (.choice c) := by
  induction items generalizing j with
  | nil => simp [choiceRun] at h
  | cons item rest ih =>
    cases item with
    | choice d =>
      cases j with
      | zero => simpa [choiceRun] using h
      | succ j => exact ih (by simpa [choiceRun] using h)
    | line | condition | command => simp [choiceRun] at h

theorem getElem?_length_choiceRun (items : List Content) (d : Choice) :
    items[(choiceRun items).length]? ≠ some (.choice d) := by
  induction items with
  | nil => simp
  | cons item rest ih => cases item <;> simp_all [choiceRun]

theorem length_choiceRun_le (items : List Content) : (choiceRun items).length ≤ items.length := by
  induction items with
  | nil => exact Nat.le_refl _
  | cons item rest ih => cases item <;> simp [choiceRun, ih]

/-- What a run of choices holds is a child of the frame that has moved behind it. -/
theorem Frame.holds_choiceRun {m : Memo} {f : Frame} {items : List Content} {c : Choice}
    (hitems : f.items m = some items) (hc : c ∈ choiceRun (items.drop f.index)) :
    (f.skip (choiceRun (items.drop f.index)).length).Holds m (.choice c) := by
  obtain ⟨j, hj⟩ := List.mem_iff_getElem?.1 hc
  have hlt := (List.getElem?_eq_some_iff.1 hj).1
  refine ⟨items, hitems, f.index + j, Nat.add_lt_add_left hlt _, ?_, fun k hk hstop => ?_, fun d => ?_⟩
  · rw [← List.getElem?_drop]; exact getElem?_choiceRun hj
  · obtain ⟨i, rfl⟩ := Nat.le.dest (Nat.le_trans (Nat.le_add_right _ _) hk)
    have hi : i < (choiceRun (items.drop f.index)).length := Nat.lt_of_add_lt_add_left hstop
    exact ⟨_, by rw [← List.getElem?_drop]; exact getElem?_choiceRun (List.getElem?_eq_getElem hi)⟩
  · show items[f.index + _]? ≠ _
    rw [← List.getElem?_drop]
    exact getElem?_length_choiceRun _ d

theorem Frame.within_choiceRun {m : Memo} {f : Frame} {items : List Content} {c : Content}
    (hitems : f.items m = some items) (hc : items[f.index]? = some c) :
    (f.skip (choiceRun (items.drop f.index)).length).Within m := by
  have hlt := (List.getElem?_eq_some_iff.1 hc).1
  have hrun := length_choiceRun_le (items.drop f.index)
  rw [List.length_drop] at hrun
  rw [Within, items_skip, hitems]
  show f.index + _ ≤ items.length
  omega

/-- What a walk ahead comes to, if it sets out from a stack in the node `n`. -/
structure Lookahead.Leads (n : Node) (a : Lookahead) : Prop where
  stacked : Stacked a.memo n a.stack
  within : ∀ f below, a.stack = f :: below → (f.skip a.run).Within a.memo
  choices : ∀ c ∈ a.choices, ∃ f below, a.stack = f :: below ∧ (f.skip a.run).Holds a.memo (.choice c)

/-- The runner of a stack and a memo stands inside the node: nothing is remembered but the branches of
the conditions that the stack is in. -/
structure Placed (n : Node) (stack : List Frame) (m : Memo) : Prop where
  nodup : (contentKeys n.content).Nodup
  stacked : Stacked m n stack
  remembered : ∀ entry ∈ m, entry.1 ∈ stackKeys stack

namespace Placed
variable {m : Memo} {n : Node} {f g : Frame} {below stack : List Frame} {c : Condition}

theorem enter (hn : (contentKeys n.content).Nodup) {i : Nat} (h : i ≤ n.content.length) :
    Placed n [⟨.node n, i⟩] [] :=
  ⟨hn, .node h, by simp⟩

theorem skip {count : Nat} (h : Placed n (f :: below) m) (hf : (f.skip count).Within m) :
    Placed n (f.skip count :: below) m :=
  ⟨h.nodup, h.stacked.skip hf, h.remembered⟩

theorem pushCondition {items : List Content} (h : Placed n (f :: below) m)
    (hitems : f.items m = some items) (hc : items[f.index]? = some (.condition c)) :
    Placed n (⟨.condition c, 0⟩ :: f.skip 1 :: below) m :=
  ⟨h.nodup, h.stacked.pushCondition hitems hc, fun entry he => List.mem_cons_of_mem _ (h.remembered entry he)⟩

theorem pushChoice {c : Choice} (h : Placed n (f :: below) m) (hc : f.Holds m (.choice c)) :
    Placed n (⟨.choice c, 0⟩ :: f :: below) m :=
  ⟨h.nodup, h.stacked.pushChoice hc, h.remembered⟩

theorem record (h : Placed n (f :: below) m) (hc : f.container = .condition c)
    (hm : m.lookup c.key = none) (b : Branching) : Placed n (f :: below) (m.record c.key b) := by
  refine ⟨h.nodup, h.stacked.record h.nodup hc hm b, fun entry he => ?_⟩
  rcases List.mem_cons.1 he with rfl | he
  · simp [stackKeys_cons, Frame.key?_condition hc]
  · exact h.remembered entry (List.mem_filter.1 he).1

/-- Leaving a frame forgets the branch of its condition. -/
theorem pop (h : Placed n (f :: g :: below) m) :
    Placed n (g :: below) ((f.key?.map m.forget).getD m) := by
  refine ⟨h.nodup, h.stacked.pop.congr fun k hk => h.stacked.lookup_forget h.nodup hk, fun entry he => ?_⟩
  cases hk : f.key? with
  | none =>
    rw [hk] at he
    have := h.remembered entry he
    rwa [stackKeys_cons, hk] at this
  | some key =>
    rw [hk] at he
    obtain ⟨hmem, hne⟩ := List.mem_filter.1 he
    have := h.remembered entry hmem
    rw [stackKeys_cons, hk, Option.toList_some, List.singleton_append, List.mem_cons] at this
    exact this.resolve_left (by simpa using hne)

/-- No branch has been chosen for a condition that lies ahead. -/
theorem lookup_ahead (h : Placed n stack m) {k : ConditionKey} (hk : k ∈ stack.flatMap (Frame.ahead m)) :
    m.lookup k = none := by
  have hnd := (agenda_perm m stack).nodup_iff.1 (h.stacked.nodup h.nodup)
  rw [List.nodup_append] at hnd
  exact Memo.lookup_eq_none fun entry he => hnd.2.2 _ (h.remembered entry he) k hk

end Placed

/-- A runner that takes over a walk ahead remembers the branches of the conditions that it is then in. -/
theorem Runner.lookup_adopt (r : Runner) (a : Lookahead) (k : ConditionKey) :
    (r.adopt a).memo.lookup k = if k ∈ stackKeys a.stack then a.memo.lookup k else none := by
  show (a.memo.filter fun entry => (stackKeys a.stack).contains entry.1).lookup k = _
  rw [lookup_filter fun key : ConditionKey => (stackKeys a.stack).contains key]
  simp

theorem Runner.stackKeys_adopt (r : Runner) (a : Lookahead) : stackKeys (r.adopt a).stack = stackKeys a.stack := by
  unfold Runner.adopt
  cases a.stack <;> rfl

/-- It stands where the walk stopped, behind the run of choices. -/
theorem Lookahead.Leads.adopt {n : Node} {a : Lookahead} (h : a.Leads n)
    (hn : (contentKeys n.content).Nodup) (r : Runner) : Placed n (r.adopt a).stack (r.adopt a).memo ∧
      ∀ c ∈ a.choices, ∃ f below, (r.adopt a).stack = f :: below ∧ f.Holds (r.adopt a).memo (.choice c) := by
  have hkeys : ∀ k ∈ stackKeys a.stack, (r.adopt a).memo.lookup k = a.memo.lookup k := fun k hk => by
    rw [r.lookup_adopt, if_pos hk]
  have hstacked : Stacked (r.adopt a).memo n a.stack := h.stacked.congr hkeys
  cases hs : a.stack with
  | nil => rw [hs] at hstacked; cases hstacked
  | cons f below =>
    have hadopt : (r.adopt a).stack = f.skip a.run :: below := by simp only [Runner.adopt, hs]
    have hitems : (f.skip a.run).items (r.adopt a).memo = (f.skip a.run).items a.memo :=
      Frame.items_congr fun k hk => hkeys k (List.mem_filterMap.2 ⟨f, by simp [hs], hk⟩)
    rw [hs] at hstacked
    refine ⟨⟨hn, ?_, fun entry he => ?_⟩, fun c hc => ?_⟩
    · rw [hadopt]
      exact hstacked.skip ((Frame.within_congr hitems).2 (h.within f below hs))
    · have := (List.mem_filter.1 he).2
      rw [hadopt]
      simpa [hs, stackKeys] using this
    · obtain ⟨f', below', hs', hf'⟩ := h.choices c hc
      rw [hs] at hs'; cases hs'
      exact ⟨_, _, hadopt, (Frame.holds_congr hitems _).2 hf'⟩

/-- Where a runner is in its session. -/
structure Place where
  stack : List Frame
  memo : Memo
  menu : List Choice
  session : Option SessionId
  wait : Option Binary64

namespace Runner

def place (r : Runner) : Place := ⟨r.stack, r.memo, r.menu, r.session, r.wait⟩

/-- Runs a session and no step. -/
def IsResting (r : Runner) : Prop := r.session.isSome ∧ r.busy = false

end Runner

end Parley
