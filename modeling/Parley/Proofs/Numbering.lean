import Parley.Parser
import Parley.Proofs.ConditionKeys

/-! # Conditions are numbered apart

While a node is parsed its counter only grows, and every condition takes the next number. So the keys
of what is parsed between two values of the counter ascend strictly within those bounds
(`Ascending`), and no two conditions of a parsed node share a key (`Node.keys_nodup`). Whatever reads
no condition leaves the counter alone (`Uncounted`). -/

namespace Parley

theorem bind_ok {ε σ α β : Type} {x : EStateM ε σ α} {f : α → EStateM ε σ β} {s s'' : σ} {b : β}
    (h : (x >>= f) s = .ok b s'') : ∃ a s', x s = .ok a s' ∧ f a s' = .ok b s'' := by
  change EStateM.bind x f s = _ at h
  unfold EStateM.bind at h
  split at h
  · next a s' hx => exact ⟨a, s', hx, h⟩
  · cases h

theorem bind_eq_of_ok {ε σ α β : Type} {x : EStateM ε σ α} {f : α → EStateM ε σ β} {s s' : σ} {a : α}
    (h : x s = .ok a s') : (x >>= f) s = f a s' := by
  change EStateM.bind x f s = _
  simp [EStateM.bind, h]

namespace ParseM

/-- A token of the given kind is taken, any other is left. -/
theorem accept_bind {α : Type} (wanted : TokenKind) (k : Bool → ParseM α) (s : ParseState) :
    (accept wanted >>= k) s =
      if (Reading.peek s.rest).kind = wanted then k true { s with rest := Reading.skip s.rest } else k false s := by
  have hkind : ParseM.kind s = .ok (Reading.peek s.rest).kind s := rfl
  rw [accept, bind_assoc, bind_eq_of_ok hkind]
  split <;> rfl

/-- Leaves the counter of conditions as it is. -/
def Uncounted {α : Type} (x : ParseM α) : Prop :=
  ∀ s a s', x s = .ok a s' → s'.conditions = s.conditions

namespace Uncounted
variable {α β : Type} {x : ParseM α}

theorem bind {f : α → ParseM β} (hx : Uncounted x) (hf : ∀ a, Uncounted (f a)) :
    Uncounted (x >>= f) := by
  intro s b s'' h
  obtain ⟨a, s', ha, hb⟩ := bind_ok h
  rw [hf a s' b s'' hb, hx s a s' ha]

theorem pure (a : α) : Uncounted (pure a : ParseM α) := by
  rintro s b s' ⟨⟩; rfl

theorem read (r : Reading α) : Uncounted (ParseM.read r) := by
  intro s a s' h
  unfold ParseM.read at h
  split at h
  · cases h; rfl
  · cases h

theorem ite {c : Prop} [Decidable c] {x y : ParseM α} (hx : Uncounted x) (hy : Uncounted y) :
    Uncounted (if c then x else y) := by
  split <;> assumption

end Uncounted

theorem uncounted_peek : Uncounted peek := by
  rintro s b s' ⟨⟩; rfl

theorem uncounted_kind : Uncounted kind := uncounted_peek.bind fun _ => .pure _

theorem uncounted_advance : Uncounted advance := by
  rintro s b s' ⟨⟩; rfl

theorem uncounted_consume (kind : TokenKind) (expected : String) :
    Uncounted (consume kind expected) := .read _

theorem uncounted_accept (wanted : TokenKind) : Uncounted (accept wanted) :=
  uncounted_kind.bind fun _ => .ite (uncounted_advance.bind fun _ => .pure _) (.pure _)

theorem uncounted_lineEnd : Uncounted lineEnd :=
  uncounted_kind.bind fun _ => .ite (.pure _) ((uncounted_consume _ _).bind fun _ => .pure _)

theorem uncounted_note (n : ParseNote) : Uncounted (note n) := by
  rintro s b s' ⟨⟩; rfl

theorem uncounted_commandAfter (t : Token) : Uncounted (commandAfter t) := by
  unfold commandAfter
  split
  · exact (uncounted_consume _ _).bind fun _ => .pure _
  · refine (uncounted_consume _ _).bind fun _ => (uncounted_accept _).bind fun _ => ?_
    exact .ite ((Uncounted.read _).bind fun _ => .pure _) ((Uncounted.pure _).bind fun _ => .pure _)
  · exact (Uncounted.read _).bind fun _ => .pure _
  · exact (uncounted_consume _ _).bind fun _ => (uncounted_accept _).bind fun _ =>
      (Uncounted.read _).bind fun _ => .pure _

theorem uncounted_lineBody : Uncounted lineBody :=
  (Uncounted.read _).bind fun _ => (Uncounted.read _).bind fun _ =>
    uncounted_lineEnd.bind fun _ => .pure _

theorem uncounted_guard : Uncounted guard :=
  (uncounted_accept _).bind fun _ => .ite
    ((uncounted_consume _ _).bind fun _ => (Uncounted.read _).bind fun _ =>
      (uncounted_consume _ _).bind fun _ => .pure _)
    (.pure _)

theorem uncounted_test : Uncounted test :=
  (Uncounted.read _).bind fun _ => uncounted_lineEnd.bind fun _ => .pure _

end ParseM

/-- The numbers of `keys` ascend strictly, after `a` and up to `b`. -/
structure Ascending (a b : Nat) (keys : List ConditionKey) : Prop where
  le : a ≤ b
  bounds : ∀ k ∈ keys, a < k.ordinal ∧ k.ordinal ≤ b
  sorted : keys.Pairwise fun k l => k.ordinal < l.ordinal

namespace Ascending
variable {a b c : Nat} {keys more : List ConditionKey}

theorem nil (a : Nat) : Ascending a a [] := ⟨Nat.le_refl a, by simp, .nil⟩

theorem next (node : String) (a : Nat) : Ascending a (a + 1) [⟨node, a + 1⟩] :=
  ⟨Nat.le_succ a, by simp, List.pairwise_singleton _ _⟩

theorem append (h : Ascending a b keys) (h' : Ascending b c more) : Ascending a c (keys ++ more) := by
  refine ⟨Nat.le_trans h.le h'.le, fun k hk => ?_, List.pairwise_append.2 ⟨h.sorted, h'.sorted, fun k hk l hl => ?_⟩⟩
  · rcases List.mem_append.1 hk with hk | hk
    · exact ⟨(h.bounds k hk).1, Nat.le_trans (h.bounds k hk).2 h'.le⟩
    · exact ⟨Nat.lt_of_le_of_lt h.le (h'.bounds k hk).1, (h'.bounds k hk).2⟩
  · exact Nat.lt_of_le_of_lt (h.bounds k hk).2 (h'.bounds l hl).1

end Ascending

/-- The numbers of its conditions ascend strictly, in reading order and from 1 on. -/
structure Node.Ascends (n : Node) : Prop where
  positive : ∀ k ∈ contentKeys n.content, 1 ≤ k.ordinal
  sorted : (contentKeys n.content).Pairwise fun k l => k.ordinal < l.ordinal

theorem Node.Ascends.nodup {n : Node} (h : n.Ascends) : (contentKeys n.content).Nodup :=
  h.sorted.imp fun hlt he => by rw [he] at hlt; exact Nat.lt_irrefl _ hlt

namespace ParseM

/-- After conditions with the keys `pre`, reads further ones with ascending numbers; what it answers
holds conditions of both kinds only, in the order of reading. -/
def Adds {α : Type} (pre : List ConditionKey) (keys : α → List ConditionKey) (x : ParseM α) : Prop :=
  ∀ s a s', x s = .ok a s' →
    ∃ more, (keys a).Sublist (pre ++ more) ∧ Ascending s.conditions s'.conditions more

namespace Adds
variable {α β : Type} {pre : List ConditionKey} {keys : β → List ConditionKey}

theorem bind {inner : α → List ConditionKey} {x : ParseM α} {f : α → ParseM β} (hx : Adds [] inner x)
    (hf : ∀ a, Adds (pre ++ inner a) keys (f a)) : Adds pre keys (x >>= f) := by
  intro s b s'' h
  obtain ⟨a, s', ha, hb⟩ := bind_ok h
  obtain ⟨read, hread, hr⟩ := hx s a s' ha
  obtain ⟨more, hmore, hm⟩ := hf a s' b s'' hb
  refine ⟨read ++ more, hmore.trans ?_, hr.append hm⟩
  rw [← List.append_assoc]
  exact (((List.Sublist.refl pre).append hread)).append (List.Sublist.refl more)

theorem skip {x : ParseM α} {f : α → ParseM β} (hx : Uncounted x) (hf : ∀ a, Adds pre keys (f a)) :
    Adds pre keys (x >>= f) := by
  intro s b s'' h
  obtain ⟨a, s', ha, hb⟩ := bind_ok h
  rw [← hx s a s' ha]
  exact hf a s' b s'' hb

theorem pure {b : β} (h : (keys b).Sublist pre) : Adds pre keys (pure b : ParseM β) := by
  rintro s c s' ⟨⟩
  exact ⟨[], by rw [List.append_nil]; exact h, .nil _⟩

theorem unfinished : Adds pre keys (throw .unfinished : ParseM β) := by
  rintro s b s' ⟨⟩

theorem fail (expected : String) : Adds pre keys (ParseM.fail expected : ParseM β) := by
  rintro s b s' ⟨⟩

theorem ite {c : Prop} [Decidable c] {x y : ParseM β} (hx : c → Adds pre keys x)
    (hy : ¬c → Adds pre keys y) : Adds pre keys (if c then x else y) := by
  split
  · exact hx ‹_›
  · exact hy ‹_›

/-- A condition takes the next number. -/
theorem next (node : String) {f : ParseState → ParseM β}
    (hf : ∀ s, Adds (pre ++ [⟨node, s.conditions⟩]) keys (f s)) :
    Adds pre keys (do modify fun s => { s with conditions := s.conditions + 1 }; f (← get)) := by
  intro s b s' h
  obtain ⟨more, hmore, hm⟩ := hf { s with conditions := s.conditions + 1 } _ b s' h
  refine ⟨⟨node, s.conditions + 1⟩ :: more, ?_, (Ascending.next node s.conditions).append hm⟩
  rw [← List.singleton_append, ← List.append_assoc]
  exact hmore

end Adds

/-- The keys in an item, if there is one. -/
def itemKeys (item : Option Content) : List ConditionKey := contentKeys item.toList

theorem adds_command : Adds [] itemKeys (some <$> command) := by
  rw [map_eq_pure_bind]
  unfold command
  simp only [bind_assoc]
  exact .skip uncounted_advance fun _ => .skip (uncounted_commandAfter _) fun _ =>
    .skip uncounted_lineEnd fun _ => .pure (List.Sublist.refl [])

theorem adds_dialogue : Adds [] itemKeys dialogue := by
  unfold dialogue
  refine .skip uncounted_advance fun speaker => .skip (uncounted_accept _) fun bracket => ?_
  -- whatever the emotion is, the rest of the line is read the same way
  extract_lets body
  have hbody (emotion : Option String) : Adds [] itemKeys (body () emotion) :=
    .skip (uncounted_consume _ _) fun _ => .skip uncounted_lineBody fun _ =>
      .ite (fun _ => .skip (uncounted_note _) fun _ => .pure (List.Sublist.refl []))
        fun _ => .pure (List.Sublist.refl [])
  refine .ite (fun _ => .skip uncounted_kind fun _ => .skip uncounted_kind fun _ => .ite ?_ ?_) fun _ => hbody _
  · exact fun _ => .skip uncounted_advance fun _ => .skip (uncounted_consume _ _) fun _ => hbody _
  · exact fun _ => .skip (uncounted_consume _ _) fun _ => hbody _

theorem adds_narration : Adds [] itemKeys narration := by
  refine .skip uncounted_peek fun _ => .skip uncounted_lineBody fun _ => .pure ?_
  split <;> exact List.Sublist.refl []

theorem adds_textLine (first : Token) : Adds [] itemKeys (textLine first) := by
  have get : Uncounted (get : ParseM ParseState) := by rintro s b s' ⟨⟩; rfl
  unfold textLine
  refine .skip get fun s => ?_
  split
  · exact .ite (fun _ => adds_dialogue) fun _ => adds_narration
  · exact .ite (fun _ => adds_dialogue) fun _ => adds_narration
  · exact adds_narration
  · exact adds_narration
  · exact .fail _

/-- What is read with some fuel numbers its conditions. -/
structure Numbers (node : String) (fuel : Nat) : Prop where
  content : Adds [] itemKeys (content node fuel)
  choice : Adds [] itemKeys (choice node fuel)
  condition : Adds [] itemKeys (condition node fuel)
  elifs : Adds [] branchKeys (elifs node fuel)
  block : Adds [] contentKeys (block node fuel)
  items : ∀ depth, Adds [] contentKeys (blockItems node depth fuel)

theorem contentKeys_item_append (item : Option Content) (rest : List Content) :
    contentKeys (item.toList ++ rest) = itemKeys item ++ contentKeys rest := contentKeys_append _ _

namespace Numbers
variable {node : String} {fuel : Nat}

theorem content_succ (h : Numbers node fuel) : Adds [] itemKeys (ParseM.content node (fuel + 1)) := by
  refine .skip uncounted_peek fun t => ?_
  split
  · exact h.choice
  · exact h.condition
  · exact .ite (fun _ => adds_command) fun _ => adds_textLine t

theorem choice_succ (h : Numbers node fuel) : Adds [] itemKeys (ParseM.choice node (fuel + 1)) := by
  refine .skip uncounted_advance fun arrow => .skip (.read _) fun text => .skip uncounted_guard fun guard =>
    .skip uncounted_lineEnd fun _ => .bind h.block fun content => .ite (fun _ => ?_) fun _ => .pure ?_
  · exact .skip (uncounted_note _) fun _ => .pure (List.nil_sublist _)
  · rw [itemKeys, Option.toList_some, contentKeys_cons, keys_choice, contentKeys, List.append_nil]
    exact List.Sublist.refl _

/-- A condition is numbered even if it turns out empty and is left out. -/
theorem condition_succ (h : Numbers node fuel) : Adds [] itemKeys (ParseM.condition node (fuel + 1)) := by
  unfold ParseM.condition
  refine .skip uncounted_advance fun opening => .next node fun s => .skip uncounted_test fun test =>
    .bind h.block fun thenBranch => .bind h.elifs fun elifs => .skip (uncounted_accept _) fun isElse => ?_
  extract_lets finish
  have hfinish (elseBranch : Option (List Content)) :
      Adds (([] ++ [⟨node, s.conditions⟩] ++ contentKeys thenBranch ++ branchKeys elifs) ++
        elseBranch.elim [] contentKeys) itemKeys (finish elseBranch) := by
    refine .skip (uncounted_consume _ _) fun _ => .skip uncounted_lineEnd fun _ =>
      .ite (fun _ => .skip (uncounted_note _) fun _ => .pure (List.nil_sublist _)) fun _ => .pure ?_
    rw [itemKeys, Option.toList_some, contentKeys_cons, keys_condition, contentKeys, List.append_nil]
    simp [Condition.inner]
  refine .ite (fun _ => .skip uncounted_lineEnd fun _ => ?_) fun _ => ?_
  · rw [map_eq_pure_bind, bind_assoc]
    refine .bind h.block fun content => ?_
    exact hfinish (some content)
  · have := hfinish none
    rw [Option.elim_none, List.append_nil] at this
    rwa [pure_bind]

theorem elifs_succ (h : Numbers node fuel) : Adds [] branchKeys (ParseM.elifs node (fuel + 1)) := by
  refine .skip uncounted_kind fun kind => .ite (fun _ => ?_) fun _ => .pure (List.Sublist.refl [])
  exact .skip uncounted_advance fun opening => .skip uncounted_test fun test => .bind h.block fun content =>
    .bind h.elifs fun more => .pure (List.Sublist.refl _)

theorem block_succ (h : Numbers node fuel) : Adds [] contentKeys (ParseM.block node (fuel + 1)) :=
  .skip (uncounted_accept _) fun _ => .ite (fun _ => h.items 0) fun _ => .pure (List.Sublist.refl [])

theorem items_succ (h : Numbers node fuel) (depth : Nat) :
    Adds [] contentKeys (ParseM.blockItems node depth (fuel + 1)) := by
  unfold ParseM.blockItems
  refine .skip uncounted_kind fun kind => ?_
  split
  · exact .skip uncounted_advance fun _ => h.items _
  · refine .skip uncounted_advance fun _ => ?_
    split
    · exact .pure (List.Sublist.refl [])
    · exact h.items _
  · exact .skip uncounted_advance fun _ => h.items _
  · exact .fail _
  · exact .fail _
  · refine .bind h.content fun item => .bind (h.items _) fun more => .pure ?_
    rw [contentKeys_item_append]
    exact List.Sublist.refl _

end Numbers

theorem numbers (node : String) (fuel : Nat) : Numbers node fuel := by
  induction fuel with
  | zero => exact ⟨.unfinished, .unfinished, .unfinished, .unfinished, .unfinished, fun _ => .unfinished⟩
  | succ fuel ih =>
    exact ⟨ih.content_succ, ih.choice_succ, ih.condition_succ, ih.elifs_succ, ih.block_succ, ih.items_succ⟩

theorem adds_nodeItems (node : String) (depth fuel : Nat) :
    Adds [] contentKeys (nodeItems node depth fuel) := by
  induction fuel generalizing depth with
  | zero => exact .unfinished
  | succ fuel ih =>
    unfold nodeItems
    refine .skip uncounted_kind fun kind => ?_
    split
    · exact .pure (List.Sublist.refl [])
    · exact .pure (List.Sublist.refl [])
    · exact .skip uncounted_advance fun _ => ih _
    · split
      · exact .fail _
      · exact .skip uncounted_advance fun _ => ih _
    · exact .skip uncounted_advance fun _ => ih _
    · refine .bind (numbers node fuel).content fun item => .bind (ih _) fun more => .pure ?_
      rw [contentKeys_item_append]
      exact List.Sublist.refl _

theorem ascends_of_node {fuel : Nat} {s s' : ParseState} {n : Node} (h : node fuel s = .ok n s') : n.Ascends := by
  obtain ⟨header, s₁, -, h⟩ := bind_ok h
  obtain ⟨name, s₂, -, h⟩ := bind_ok h
  obtain ⟨-, s₃, -, h⟩ := bind_ok h
  obtain ⟨-, s₄, -, h⟩ := bind_ok h
  obtain ⟨content, s₅, hc, h⟩ := bind_ok h
  obtain ⟨more, hsub, hmore⟩ := adds_nodeItems name.value 0 fuel s₄ content s₅ hc
  cases h
  exact ⟨fun k hk => Nat.lt_of_le_of_lt (Nat.zero_le _) (hmore.bounds k (hsub.subset hk)).1, hmore.sorted.sublist hsub⟩

theorem ascends_of_nodes {fuel : Nat} {s s' : ParseState} {made : List Node}
    (h : nodes fuel s = .ok made s') :
    ∀ n ∈ made, n.Ascends := by
  induction fuel generalizing s made with
  | zero => cases h
  | succ fuel ih =>
    unfold nodes at h
    obtain ⟨kind, s₁, -, h⟩ := bind_ok h
    split at h
    · obtain ⟨-, s₂, -, h⟩ := bind_ok h
      exact ih h
    · obtain ⟨-, s₂, -, h⟩ := bind_ok h
      exact ih h
    · cases h; simp
    · obtain ⟨n, s₂, hn, h⟩ := bind_ok h
      split at h
      · obtain ⟨-, s₃, -, h⟩ := bind_ok h
        exact ih h
      · obtain ⟨more, s₃, hmore, h⟩ := bind_ok h
        cases h
        intro m hm
        rcases List.mem_cons.1 hm with rfl | hm
        · exact ascends_of_node hn
        · exact ih hmore m hm
    · cases h

end ParseM

/-- The node stands in a script that parses. -/
def Node.Parsed (n : Node) : Prop := ∃ source s, (parseScript source).result = .ok s ∧ n ∈ s.nodes

theorem ParseM.ascends_of_tokens {tokens : List Token} {s : Script} (h : (parseTokens tokens).1 = .ok s) :
    ∀ n ∈ s.nodes, n.Ascends := by
  unfold parseTokens at h
  dsimp only at h
  split at h
  · next hnodes =>
    cases h
    exact ascends_of_nodes hnodes
  · cases h

/-- What parses as a text parses as the tokens of it. -/
theorem parseTokens_of_source {source : String} {s : Script} (h : (parseScript source).result = .ok s) :
    ∃ tokens, (parseTokens tokens).1 = .ok s := by
  unfold parseScript at h
  split at h
  · cases h
  · next tokens _ =>
    refine ⟨tokens, ?_⟩
    unfold Parsed.ofTokens at h
    rcases hp : parseTokens tokens with ⟨_ | script, notes⟩ <;> rw [hp] at h <;> cases h
    rfl

theorem Node.Parsed.ascends {n : Node} (h : n.Parsed) : n.Ascends := by
  obtain ⟨source, s, hs, hn⟩ := h
  obtain ⟨tokens, htokens⟩ := parseTokens_of_source hs
  exact ParseM.ascends_of_tokens htokens n hn

/-- No two conditions of a parsed node share a key. -/
theorem Node.Parsed.nodup {n : Node} (h : n.Parsed) : (contentKeys n.content).Nodup := h.ascends.nodup

end Parley
