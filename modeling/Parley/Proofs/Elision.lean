import Parley.Proofs.Numbering
import Parley.Proofs.Spelling

/-! # Nothing empty is kept

A line, a choice or a condition that comes to nothing is left out as soon as it has been read, before whatever is around
it is judged. So every part of a parsed node is something (`Content.Kept`), and is so too if emptiness is looked for
through all the blocks below (`Content.isVoid`): a container whose items have all been left out has no items. -/

namespace Parley

/-! ### Emptiness through blocks -/

mutual

/-- Comes to nothing, and so does all that it holds. -/
def Content.isVoid : Content → Bool
  | .line l => isBlankText l.text
  | .choice ⟨text, _, content, _⟩ => isBlankText text && areVoid content
  | .condition ⟨_, thenBranch, elifs, elseBranch, _, _⟩ =>
    areVoid thenBranch && areVoidBranches elifs &&
      match elseBranch with
      | some content => areVoid content
      | none => true
  | .command .. => false

def areVoid : List Content → Bool
  | [] => true
  | c :: rest => c.isVoid && areVoid rest

def areVoidBranches : List Branch → Bool
  | [] => true
  | ⟨_, content, _⟩ :: rest => areVoid content && areVoidBranches rest

end

section
variable {items : List Content}

/-- Where no part is void, only having no items is. -/
theorem areVoid_eq_isEmpty (h : ∀ part ∈ contentParts items, part.isVoid = false) : areVoid items = items.isEmpty := by
  cases items with
  | nil => rfl
  | cons c rest =>
    have hc : c.isVoid = false := h c (List.mem_append_left _ c.mem_parts_self)
    simp [areVoid, hc]

theorem areVoidBranches_eq_all {elifs : List Branch} (h : ∀ part ∈ branchParts elifs, part.isVoid = false) :
    areVoidBranches elifs = elifs.all fun b => b.content.isEmpty := by
  induction elifs with
  | nil => rfl
  | cons b rest ih =>
    obtain ⟨test, content, pos⟩ := b
    obtain ⟨hcontent, hrest⟩ := List.forall_mem_append.1 h
    rw [areVoidBranches, areVoid_eq_isEmpty hcontent, ih hrest]
    rfl

end

/-- Which conditions are void is told by their blocks. -/
theorem Content.isVoid_condition (c : Condition) : (Content.condition c).isVoid =
    (areVoid c.thenBranch && areVoidBranches c.elifs && c.elseBranch.elim true areVoid) := by
  obtain ⟨test, thenBranch, elifs, _ | elseBranch, key, pos⟩ := c <;> rfl

mutual

/-- What is something at every depth is so through all its blocks. -/
theorem Content.not_void_of_not_elidable (c : Content) (h : ∀ part ∈ c.parts, part.isElidable = false) :
    ∀ part ∈ c.parts, part.isVoid = false := by
  have hself := h c c.mem_parts_self
  match c with
  | .line l =>
    intro part hpart
    obtain rfl := List.mem_singleton.1 hpart
    exact hself
  | .command c pos =>
    intro part hpart
    obtain rfl := List.mem_singleton.1 hpart
    rfl
  | .choice ⟨text, guard, content, pos⟩ =>
    have hcontent := not_void_of_not_elidable_items content fun part hpart => h part (.tail _ hpart)
    refine List.forall_mem_cons.2 ⟨?_, hcontent⟩
    rw [Content.isVoid, areVoid_eq_isEmpty hcontent]
    exact hself
  | .condition ⟨test, thenBranch, elifs, elseBranch, key, pos⟩ =>
    simp only [parts_condition, List.forall_mem_cons, List.forall_mem_append, Content.isVoid_condition] at h ⊢
    obtain ⟨-, hthen, helifs, helse⟩ := h
    have hthen := not_void_of_not_elidable_items thenBranch hthen
    have helifs := not_void_of_not_elidable_branches elifs helifs
    have helse : (∀ part ∈ elseBranch.elim [] contentParts, part.isVoid = false) := by
      match elseBranch with
      | none => nofun
      | some content => exact not_void_of_not_elidable_items content helse
    refine ⟨?_, hthen, helifs, helse⟩
    rw [areVoid_eq_isEmpty hthen, areVoidBranches_eq_all helifs]
    cases elseBranch with
    | none => exact hself
    | some content =>
      rw [Option.elim_some, areVoid_eq_isEmpty helse]
      exact hself

theorem not_void_of_not_elidable_items (items : List Content) (h : ∀ part ∈ contentParts items, part.isElidable = false) :
    ∀ part ∈ contentParts items, part.isVoid = false := by
  match items with
  | [] => nofun
  | c :: rest =>
    obtain ⟨hc, hrest⟩ := List.forall_mem_append.1 h
    exact List.forall_mem_append.2 ⟨c.not_void_of_not_elidable hc, not_void_of_not_elidable_items rest hrest⟩

theorem not_void_of_not_elidable_branches (elifs : List Branch) (h : ∀ part ∈ branchParts elifs, part.isElidable = false) :
    ∀ part ∈ branchParts elifs, part.isVoid = false := by
  match elifs with
  | [] => nofun
  | ⟨test, content, pos⟩ :: rest =>
    obtain ⟨hcontent, hrest⟩ := List.forall_mem_append.1 h
    exact List.forall_mem_append.2 ⟨not_void_of_not_elidable_items content hcontent,
      not_void_of_not_elidable_branches rest hrest⟩

end

/-! ### What the parser answers -/

/-- A part of a node as the parser leaves it: something, and numbered within the node if it is a condition. -/
structure Content.Kept (node : String) (c : Content) : Prop where
  something : c.isElidable = false
  keyed : ∀ made, c = .condition made → made.key.node = node

def AllKept (node : String) (items : List Content) : Prop := ∀ part ∈ contentParts items, part.Kept node

namespace AllKept
variable {node : String} {items more : List Content}

theorem nil : AllKept node [] := nofun

theorem append (h : AllKept node items) (h' : AllKept node more) : AllKept node (items ++ more) := by
  induction items with
  | nil => exact h'
  | cons c rest ih =>
    obtain ⟨hc, hrest⟩ := List.forall_mem_append.1 h
    exact List.forall_mem_append.2 ⟨hc, ih hrest⟩

theorem line {l : Line} (h : isBlankText l.text = false) : AllKept node [.line l] := by
  intro part hpart
  obtain rfl : part = .line l := by simpa [contentParts, Content.parts] using hpart
  exact ⟨h, nofun⟩

theorem command (c : Command) (pos : Pos) : AllKept node [.command c pos] := by
  intro part hpart
  obtain rfl : part = .command c pos := by simpa [contentParts, Content.parts] using hpart
  exact ⟨rfl, nofun⟩

theorem choice {c : Choice} (hself : (Content.choice c).isElidable = false) (h : AllKept node c.content) :
    AllKept node [.choice c] := by
  intro part hpart
  have hparts : part = .choice c ∨ part ∈ contentParts c.content := by
    simpa [contentParts, parts_choice] using hpart
  rcases hparts with rfl | hpart
  · exact ⟨hself, nofun⟩
  · exact h part hpart

end AllKept

namespace ParseM

/-- Whatever is answered has `P`. -/
def Answers {α : Type} (P : α → Prop) (x : ParseM α) : Prop := ∀ s a s', x s = .ok a s' → P a

namespace Answers
variable {α β : Type} {P : β → Prop} {Q : α → Prop}

theorem bind {x : ParseM α} {f : α → ParseM β} (hx : Answers Q x) (hf : ∀ a, Q a → Answers P (f a)) :
    Answers P (x >>= f) := by
  intro s b s'' h
  obtain ⟨a, s', ha, hb⟩ := bind_ok h
  exact hf a (hx s a s' ha) s' b s'' hb

/-- Nothing need be known of what is answered before. -/
theorem next {x : ParseM α} {f : α → ParseM β} (hf : ∀ a, Answers P (f a)) : Answers P (x >>= f) := by
  intro s b s'' h
  obtain ⟨a, s', -, hb⟩ := bind_ok h
  exact hf a s' b s'' hb

theorem pure {b : β} (h : P b) : Answers P (pure b : ParseM β) := by
  rintro s c s' ⟨⟩
  exact h

theorem unfinished : Answers P (throw .unfinished : ParseM β) := by
  rintro s b s' ⟨⟩

theorem fail (expected : String) : Answers P (ParseM.fail expected : ParseM β) := by
  rintro s b s' ⟨⟩

theorem ite {c : Prop} [Decidable c] {x y : ParseM β} (hx : c → Answers P x) (hy : ¬c → Answers P y) :
    Answers P (if c then x else y) := by
  split
  · exact hx ‹_›
  · exact hy ‹_›

end Answers

/-- The item, if there is one, is kept. -/
def KeptItem (node : String) (item : Option Content) : Prop := AllKept node item.toList

/-- What is read with some fuel is sifted. -/
structure Sifts (node : String) (fuel : Nat) : Prop where
  content : Answers (KeptItem node) (content node fuel)
  choice : Answers (KeptItem node) (choice node fuel)
  condition : Answers (KeptItem node) (condition node fuel)
  elifs : Answers (fun bs => ∀ part ∈ branchParts bs, part.Kept node) (elifs node fuel)
  block : Answers (AllKept node) (block node fuel)
  items : ∀ depth, Answers (AllKept node) (blockItems node depth fuel)

section
variable {node : String} {fuel : Nat}

theorem answers_command : Answers (KeptItem node) (some <$> command) := by
  rw [map_eq_pure_bind]
  unfold command
  simp only [bind_assoc]
  exact .next fun _ => .next fun _ => .next fun _ => .pure (AllKept.command _ _)

theorem answers_dialogue : Answers (KeptItem node) dialogue := by
  unfold dialogue
  refine .next fun speaker => .next fun bracket => ?_
  extract_lets body
  have hbody (emotion : Option String) : Answers (KeptItem node) (body () emotion) := by
    refine .next fun _ => .next fun _ => .ite (fun _ => ?_) fun hkept => ?_
    · exact .next fun _ => .pure AllKept.nil
    · exact .pure (AllKept.line (Bool.eq_false_iff.2 hkept))
  refine .ite (fun _ => .next fun _ => .next fun _ => .ite (fun _ => ?_) fun _ => ?_) fun _ => hbody _
  · exact .next fun _ => .next fun _ => hbody _
  · exact .next fun _ => hbody _

theorem answers_narration : Answers (KeptItem node) narration := by
  refine .next fun start => .next fun body => .pure ?_
  split
  · exact AllKept.nil
  · next hkept => exact AllKept.line (Bool.eq_false_iff.2 hkept)

theorem answers_textLine (first : Token) : Answers (KeptItem node) (textLine first) := by
  unfold textLine
  refine .next fun s => ?_
  split
  · exact .ite (fun _ => answers_dialogue) fun _ => answers_narration
  · exact .ite (fun _ => answers_dialogue) fun _ => answers_narration
  · exact answers_narration
  · exact answers_narration
  · exact .fail _

namespace Sifts

theorem content_succ (h : Sifts node fuel) : Answers (KeptItem node) (ParseM.content node (fuel + 1)) := by
  refine .next fun t => ?_
  split
  · exact h.choice
  · exact h.condition
  · exact .ite (fun _ => answers_command) fun _ => answers_textLine t

/-- The block below has been sifted before the choice is judged. -/
theorem choice_succ (h : Sifts node fuel) : Answers (KeptItem node) (ParseM.choice node (fuel + 1)) := by
  refine .next fun arrow => .next fun text => .next fun guard => .next fun _ => .bind h.block fun content hcontent => ?_
  refine .ite (fun _ => .next fun _ => .pure AllKept.nil) fun hkept => .pure ?_
  exact AllKept.choice (Bool.eq_false_iff.2 hkept) hcontent

theorem condition_succ (h : Sifts node fuel) : Answers (KeptItem node) (ParseM.condition node (fuel + 1)) := by
  unfold ParseM.condition
  refine .next fun opening => .next fun _ => .next fun s => .next fun test => .bind h.block fun thenBranch hthen => ?_
  refine .bind h.elifs fun elifs helifs => .next fun isElse => ?_
  extract_lets finish
  have hfinish (elseBranch : Option (List Content)) (helse : ∀ content ∈ elseBranch, AllKept node content) :
      Answers (KeptItem node) (finish elseBranch) := by
    refine .next fun _ => .next fun _ => .ite (fun _ => .next fun _ => .pure AllKept.nil) fun hkept => .pure ?_
    intro part hpart
    rw [Option.toList_some, contentParts, contentParts, List.append_nil, parts_condition] at hpart
    rcases List.mem_cons.1 hpart with rfl | hpart
    · refine ⟨Bool.eq_false_iff.2 hkept, ?_⟩
      rintro made ⟨⟩
      rfl
    · rcases List.mem_append.1 hpart with hpart | hpart
      · exact hthen part hpart
      rcases List.mem_append.1 hpart with hpart | hpart
      · exact helifs part hpart
      cases elseBranch with
      | none => cases hpart
      | some content => exact helse content rfl part hpart
  refine .ite (fun _ => .next fun _ => ?_) fun _ => ?_
  · rw [map_eq_pure_bind, bind_assoc]
    refine .bind h.block fun content hcontent => hfinish (some content) ?_
    rintro _ ⟨⟩
    exact hcontent
  · rw [pure_bind]
    refine hfinish none fun content hcontent => ?_
    cases hcontent

theorem elifs_succ (h : Sifts node fuel) :
    Answers (fun bs => ∀ part ∈ branchParts bs, part.Kept node) (ParseM.elifs node (fuel + 1)) := by
  refine .next fun kind => .ite (fun _ => ?_) fun _ => .pure nofun
  refine .next fun opening => .next fun test => .bind h.block fun content hcontent => ?_
  exact .bind h.elifs fun more hmore => .pure (List.forall_mem_append.2 ⟨hcontent, hmore⟩)

theorem block_succ (h : Sifts node fuel) : Answers (AllKept node) (ParseM.block node (fuel + 1)) :=
  .next fun _ => .ite (fun _ => h.items 0) fun _ => .pure AllKept.nil

theorem items_succ (h : Sifts node fuel) (depth : Nat) :
    Answers (AllKept node) (ParseM.blockItems node depth (fuel + 1)) := by
  unfold ParseM.blockItems
  refine .next fun kind => ?_
  split
  · exact .next fun _ => h.items _
  · refine .next fun _ => ?_
    split
    · exact .pure AllKept.nil
    · exact h.items _
  · exact .next fun _ => h.items _
  · exact .fail _
  · exact .fail _
  · exact .bind h.content fun item hitem => .bind (h.items _) fun more hmore => .pure (hitem.append hmore)

end Sifts
end

theorem sifts (node : String) (fuel : Nat) : Sifts node fuel := by
  induction fuel with
  | zero => exact ⟨.unfinished, .unfinished, .unfinished, .unfinished, .unfinished, fun _ => .unfinished⟩
  | succ fuel ih =>
    exact ⟨ih.content_succ, ih.choice_succ, ih.condition_succ, ih.elifs_succ, ih.block_succ, ih.items_succ⟩

theorem answers_nodeItems (node : String) (depth fuel : Nat) : Answers (AllKept node) (nodeItems node depth fuel) := by
  induction fuel generalizing depth with
  | zero => exact .unfinished
  | succ fuel ih =>
    unfold nodeItems
    refine .next fun kind => ?_
    split
    · exact .pure AllKept.nil
    · exact .pure AllKept.nil
    · exact .next fun _ => ih _
    · split
      · exact .fail _
      · exact .next fun _ => ih _
    · exact .next fun _ => ih _
    · refine .bind (sifts node fuel).content fun item hitem => .bind (ih _) fun more hmore => ?_
      exact .pure (hitem.append hmore)

theorem answers_node (fuel : Nat) : Answers (fun n => AllKept n.name n.content) (node fuel) := by
  refine .next fun header => .next fun name => .next fun _ => .next fun _ => ?_
  exact .bind (answers_nodeItems name.value 0 fuel) fun content hcontent => .pure hcontent

/-- Nodes without content are left out too. -/
theorem answers_nodes (fuel : Nat) :
    Answers (fun made => ∀ n ∈ made, n.content ≠ [] ∧ AllKept n.name n.content) (nodes fuel) := by
  induction fuel with
  | zero => exact .unfinished
  | succ fuel ih =>
    unfold nodes
    refine .next fun kind => ?_
    split
    · exact .next fun _ => ih
    · exact .next fun _ => ih
    · exact .pure nofun
    · refine .bind (answers_node fuel) fun made hmade => .ite (fun _ => .next fun _ => ih) fun hne => ?_
      refine .bind ih fun more hmore => .pure (List.forall_mem_cons.2 ⟨⟨?_, hmade⟩, hmore⟩)
      exact fun hnil => hne (List.isEmpty_iff.2 hnil)
    · exact .fail _

end ParseM

theorem kept_of_tokens {tokens : List Token} {s : Script} (h : (parseTokens tokens).1 = .ok s) :
    ∀ n ∈ s.nodes, n.content ≠ [] ∧ AllKept n.name n.content := by
  unfold parseTokens at h
  dsimp only at h
  split at h
  · next hnodes =>
    cases h
    exact ParseM.answers_nodes _ _ _ _ hnodes
  · cases h

/-- Nothing empty gets into a script, at any depth: no node without content, no blank line, no blank choice with nothing
below it, no condition with nothing in its branches; nor anything that would be so without the empty things in it. -/
theorem parseTokens_nothing_empty {tokens : List Token} {s : Script} (h : (parseTokens tokens).1 = .ok s) :
    ∀ n ∈ s.nodes, n.content ≠ [] ∧ ∀ part ∈ contentParts n.content, part.isElidable = false ∧ part.isVoid = false := by
  intro n hn
  obtain ⟨hne, hkept⟩ := kept_of_tokens h n hn
  have hsomething : ∀ part ∈ contentParts n.content, part.isElidable = false := fun part hpart =>
    (hkept part hpart).something
  refine ⟨hne, fun part hpart => ⟨hsomething part hpart, ?_⟩⟩
  exact not_void_of_not_elidable_items n.content hsomething part hpart

/-- A choice without a text, with a condition below it that holds nothing but a tag; then a line; then a node that holds
nothing but a choice without a text. -/
def hollowTokens : List Token :=
  [⟨.doubleColon, "::", 1, 1⟩, ⟨.identifier, "n", 1, 4⟩, ⟨.newline, "\n", 1, 5⟩,
    ⟨.arrow, "->", 2, 1⟩, ⟨.newline, "\n", 2, 3⟩,
    ⟨.indent, "", 3, 3⟩, ⟨.ifWord, "if", 3, 3⟩, ⟨.trueWord, "true", 3, 6⟩, ⟨.newline, "\n", 3, 10⟩,
    ⟨.indent, "", 4, 5⟩, ⟨.hash, "#", 4, 5⟩, ⟨.identifier, "t", 4, 6⟩, ⟨.newline, "\n", 4, 7⟩, ⟨.dedent, "", 5, 3⟩,
    ⟨.endifWord, "endif", 5, 3⟩, ⟨.newline, "\n", 5, 8⟩, ⟨.dedent, "", 6, 1⟩,
    ⟨.text, "hi", 6, 1⟩, ⟨.newline, "\n", 6, 3⟩,
    ⟨.doubleColon, "::", 7, 1⟩, ⟨.identifier, "m", 7, 4⟩, ⟨.newline, "\n", 7, 5⟩,
    ⟨.arrow, "->", 8, 1⟩, ⟨.newline, "\n", 8, 3⟩]

theorem parseTokens_nothing_empty_hollow :
    ∃ s, (parseTokens hollowTokens).1 = .ok s ∧
      (parseTokens hollowTokens).2 = [.condition 3, .choice 2, .choice 8, .node "m"] ∧ s.names = ["n"] ∧
      ∀ n ∈ s.nodes, n.content ≠ [] ∧ ∀ part ∈ contentParts n.content, part.isElidable = false ∧ part.isVoid = false := by
  have hread : (parseTokens hollowTokens).1.toOption.map Script.names = some ["n"] := by decide +kernel
  cases hparse : (parseTokens hollowTokens).1 with
  | error e =>
    rw [hparse] at hread
    cases hread
  | ok s =>
    rw [hparse] at hread
    exact ⟨s, rfl, by decide +kernel, Option.some.inj hread, parseTokens_nothing_empty hparse⟩

end Parley
