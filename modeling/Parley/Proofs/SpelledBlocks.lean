import Parley.Proofs.SpelledLines

/-! # Scripts are read as they are spelled

A choice and a branch own what stands in the block below them. Nothing marks the end of a block but its `DEDENT`, and
where a block is empty nothing at all is written, so the parser has to tell by the next token whether there is one. No
item opens with an `INDENT` (`Content.Spelled.opens`), and that is what keeps the blocks apart. The induction is on the
way a script is spelled; four calls for each token are enough. -/

namespace Parley

/-- Lasts when it is written down and read again. -/
def Content.Lasting (c : Content) : Prop := c.isElidable = false ∧ c.emotion? ≠ some ""

/-- The kinds of tokens that open an item. -/
def TokenKind.opensItem : TokenKind → Bool
  | text | identifier | leftBrace | arrow | ifWord => true
  | kind => kind.isCommand

theorem TokenKind.opensItem_of_isCommand {kind : TokenKind} (h : kind.isCommand = true) : kind.opensItem = true := by
  cases kind <;> first | rfl | cases h

/-- What is written down opens with a token of its own, never with one that lays out the text. -/
theorem Content.Spelled.opens {c : Content} {ts : List Token} (h : c.Spelled ts) (hlast : c.isElidable = false) :
    ∃ t us, ts = t :: us ∧ t.kind.opensItem = true := by
  cases h with
  | narration h =>
    obtain ⟨t, us, rfl, ht⟩ := h.opens_text hlast
    refine ⟨t, us, rfl, ?_⟩
    rcases ht with ht | ⟨ht, -⟩ <;> rw [ht] <;> rfl
  | dialogue hspeech _ =>
    obtain ⟨t, u, us, rfl, ht, -⟩ := hspeech.opens
    refine ⟨t, _, rfl, ?_⟩
    rcases ht with ht | ht <;> rw [ht] <;> rfl
  | choice harrow _ _ _ _ => exact ⟨_, _, rfl, by rw [harrow]; rfl⟩
  | condition hopening _ _ _ _ _ _ => exact ⟨_, _, rfl, by rw [hopening]; rfl⟩
  | command h _ =>
    obtain ⟨word, us, rfl, hword⟩ := h.opens
    exact ⟨word, _, rfl, TokenKind.opensItem_of_isCommand hword⟩

section Next
variable {ts rest : List Token}

/-- An item is followed by another one or by the end of its block. -/
theorem SpelledItems.next {items : List Content} (h : SpelledItems items ts)
    (hlast : ∀ part ∈ contentParts items, part.Lasting) (hrest : (Reading.peek rest).kind ≠ .indent) :
    (Reading.peek (ts ++ rest)).kind ≠ .indent := by
  cases h with
  | nil => exact hrest
  | @cons c _ _ _ h _ =>
    obtain ⟨t, us, rfl, ht⟩ := h.opens (hlast c (by simp [contentParts, Content.mem_parts_self])).1
    intro heq
    have heq : t.kind = .indent := heq
    rw [heq] at ht
    cases ht

/-- The last test of a condition is followed by another branch or by the end of the condition. -/
theorem SpelledElse.next {branch : Option (List Content)} {closing : Token} (h : SpelledElse branch ts)
    (hclosing : closing.kind = .endifWord) : (Reading.peek (ts ++ closing :: rest)).kind = .elseWord ∨
      (Reading.peek (ts ++ closing :: rest)).kind = .endifWord := by
  cases h with
  | none => exact .inr hclosing
  | some hopening _ _ => exact .inl hopening

theorem SpelledElifs.next {elifs : List Branch} (h : SpelledElifs elifs ts)
    (hrest : (Reading.peek rest).kind = .elseWord ∨ (Reading.peek rest).kind = .endifWord) :
    (Reading.peek (ts ++ rest)).kind ≠ .indent := by
  cases h with
  | nil => rcases hrest with heq | heq <;> simp [heq]
  | cons hopening _ _ _ => simp [Reading.peek, hopening]

end Next

/-- What is answered for a node is the node again. -/
structure RebuiltNode (n made : Node) : Prop where
  shape : made.shape = n.shape
  keys : contentKeys made.content = ConditionKey.run made.name 1 (contentKeys made.content).length

/-- What is answered for some nodes are the nodes again. -/
structure RebuiltNodes (ns made : List Node) : Prop where
  shapes : made.map Node.shape = ns.map Node.shape
  keys : ∀ n ∈ made, contentKeys n.content = ConditionKey.run n.name 1 (contentKeys n.content).length

namespace ParseM
variable {node : String} {fuel k k' depth : Nat} {us vs ts rest : List Token} {t : Token}

/-! ### Where the parser goes by the next token -/

section Dispatch
variable {Q : Option Content → Prop} {R : List Content → Prop}

theorem Consumes.content_choice (ht : t.kind = .arrow) (h : Consumes (choice node fuel) (t :: ts) rest k k' Q) :
    Consumes (content node (fuel + 1)) (t :: ts) rest k k' Q := by
  refine .peek ?_
  rw [ht]
  exact h

theorem Consumes.content_condition (ht : t.kind = .ifWord) (h : Consumes (condition node fuel) (t :: ts) rest k k' Q) :
    Consumes (content node (fuel + 1)) (t :: ts) rest k k' Q := by
  refine .peek ?_
  rw [ht]
  exact h

theorem Consumes.content_command (ht : t.kind.isCommand = true) (h : Consumes (some <$> command) (t :: ts) rest k k' Q) :
    Consumes (content node (fuel + 1)) (t :: ts) rest k k' Q := by
  refine .peek ?_
  split
  · next heq => rw [heq] at ht; cases ht
  · next heq => rw [heq] at ht; cases ht
  · rw [if_pos ht]
    exact h

theorem Consumes.content_textLine (ht : t.kind = .text ∨ t.kind = .identifier ∨ t.kind = .leftBrace)
    (h : Consumes (textLine t) (t :: ts) rest k k' Q) : Consumes (content node (fuel + 1)) (t :: ts) rest k k' Q := by
  refine .peek ?_
  rcases ht with ht | ht | ht <;> rw [ht] <;> exact h

theorem Consumes.blockItems_item (ht : t.kind.opensItem = true)
    (h : Consumes (do
      let item ← content node fuel
      let more ← blockItems node depth fuel
      return item.toList ++ more) (t :: ts) rest k k' R) :
    Consumes (blockItems node depth (fuel + 1)) (t :: ts) rest k k' R := by
  refine .kind ?_
  split <;> first
    | exact h
    | next heq => rw [heq] at ht; cases ht

theorem Consumes.nodeItems_item (ht : t.kind.opensItem = true)
    (h : Consumes (do
      let item ← content node fuel
      let more ← nodeItems node depth fuel
      return item.toList ++ more) (t :: ts) rest k k' R) :
    Consumes (nodeItems node depth (fuel + 1)) (t :: ts) rest k k' R := by
  refine .kind ?_
  split <;> first
    | exact h
    | next heq => rw [heq] at ht; cases ht

end Dispatch

/-! ### Items, blocks and branches -/

/-- What is answered for some items are the items again, their conditions numbered from `k` on. -/
structure RebuiltAll (node : String) (k : Nat) (items made : List Content) : Prop where
  shapes : contentShapes made = contentShapes items
  keys : contentKeys made = ConditionKey.run node (k + 1) (contentKeys items).length

structure RebuiltElifs (node : String) (k : Nat) (elifs made : List Branch) : Prop where
  shapes : branchShapes made = branchShapes elifs
  keys : branchKeys made = ConditionKey.run node (k + 1) (branchKeys elifs).length

/-- The same for what may be missing. -/
structure RebuiltElse (node : String) (k : Nat) (branch made : Option (List Content)) : Prop where
  shapes : made.map contentShapes = branch.map contentShapes
  keys : made.elim [] contentKeys = ConditionKey.run node (k + 1) (branch.elim [] contentKeys).length

theorem RebuiltAll.nil : RebuiltAll node k [] [] := ⟨rfl, rfl⟩

theorem RebuiltAll.cons {c made : Content} {items more : List Content} (h : Rebuilt node k c made)
    (hmore : RebuiltAll node (k + c.keys.length) items more) : RebuiltAll node k (c :: items) (made :: more) where
  shapes := by rw [contentShapes, contentShapes, h.shape, hmore.shapes]
  keys := by
    rw [contentKeys_cons, contentKeys_cons, h.keys, hmore.keys, List.length_append, ← ConditionKey.run_append,
      Nat.add_right_comm]

/-- The keys of a condition and of its branches, one after the other. -/
theorem Rebuilt.keys_cons {key : ConditionKey} {n : Nat} {thenBranch items : List Content} {elifs branches : List Branch}
    {elseBranch last : Option (List Content)} (hn : n = k + 1) (hthen : RebuiltAll node (k + 1) thenBranch items)
    (helifs : RebuiltElifs node (k + 1 + (contentKeys thenBranch).length) elifs branches)
    (helse : RebuiltElse node (k + 1 + (contentKeys thenBranch).length + (branchKeys elifs).length) elseBranch last) :
    ⟨node, n⟩ :: (contentKeys items ++ (branchKeys branches ++ last.elim [] contentKeys)) =
      ConditionKey.run node (k + 1)
        (key :: (contentKeys thenBranch ++ (branchKeys elifs ++ elseBranch.elim [] contentKeys))).length := by
  rw [hthen.keys, helifs.keys, helse.keys, hn, List.length_cons, List.length_append, List.length_append,
    ConditionKey.run_succ, ← ConditionKey.run_append, ← ConditionKey.run_append]
  simp only [Nat.add_right_comm _ _ 1]

theorem shape_condition {test : Expr} {thenBranch : List Content} {elifs : List Branch}
    {elseBranch : Option (List Content)} {key : ConditionKey} {pos : Pos} :
    (Content.condition ⟨test, thenBranch, elifs, elseBranch, key, pos⟩).shape =
      .condition ⟨test.placeless, contentShapes thenBranch, branchShapes elifs, elseBranch.map contentShapes, default, {}⟩ := by
  cases elseBranch <;> rfl

theorem consumes_choice {arrow lineEnd : Token} {text : List Segment} {guard : Option Expr} {content : List Content}
    {pos : Pos} (harrow : arrow.kind = .arrow) (htext : SpelledText text us) (hguard : SpelledGuard guard vs)
    (hend : lineEnd.kind = .newline) (hlast : (Content.choice ⟨text, guard, content, pos⟩).isElidable = false)
    (hblock : Consumes (block node fuel) ts rest k k' (RebuiltAll node k content)) :
    Consumes (choice node (fuel + 1)) (arrow :: (us ++ (vs ++ lineEnd :: ts))) rest k k'
      (Restores node k (.choice ⟨text, guard, content, pos⟩)) := by
  have hnext : (Reading.peek (vs ++ lineEnd :: ts ++ rest)).kind ∉ [TokenKind.text, .leftBrace] := by
    cases hguard with
    | none => simp [Reading.peek, hend]
    | some hopening _ _ _ => simp [Reading.peek, hopening]
  simp only [List.mem_cons, List.not_mem_nil, or_false, not_or] at hnext
  refine .advance (by simp [harrow]) (.bind (consumes_text htext hnext.1 hnext.2) fun made hmade => ?_)
  refine .bind (consumes_guard hguard hend) fun test htest => .lineEnd hend ?_
  rw [← List.append_nil ts]
  refine .bind hblock fun items hitems => ?_
  have hshape : (Content.choice ⟨made, test, items, arrow.pos⟩).shape = (Content.choice ⟨text, guard, content, pos⟩).shape := by
    rw [Content.shape, Content.shape, hmade, htest, hitems.shapes]
  have hkept : (isBlankText made && items.isEmpty) = false := (Content.isElidable_congr hshape).trans hlast
  rw [if_neg (by simp [hkept])]
  exact .pure ⟨_, rfl, hshape, by rw [keys_choice, keys_choice]; exact hitems.keys⟩

/-- A condition takes the next number. -/
theorem Consumes.count {β : Type} {Q : β → Prop} {f : ParseState → ParseM β}
    (hf : ∀ s, s.conditions = k + 1 → Consumes (f s) ts rest (k + 1) k' Q) :
    Consumes (do modify fun s => { s with conditions := s.conditions + 1 }; f (← get)) ts rest k k' Q :=
  fun notes => hf _ rfl notes

/-- The parser takes the last branch of a condition, or nothing if there is none. -/
inductive Otherwise (node : String) (fuel k : Nat) (rest : List Token) : Option (List Content) → List Token → Prop
  | none : Otherwise node fuel k rest none []
  | some {opening lineEnd : Token} {content : List Content} {ts : List Token} (hopening : opening.kind = .elseWord)
      (hend : lineEnd.kind = .newline)
      (h : Consumes (block node fuel) ts rest k (k + (contentKeys content).length) (RebuiltAll node k content)) :
      Otherwise node fuel k rest (some content) (opening :: lineEnd :: ts)

theorem consumes_condition {opening closing lineEnd : Token} {test : Expr} {thenBranch : List Content}
    {elifs : List Branch} {elseBranch : Option (List Content)} {key : ConditionKey} {pos : Pos} {ws xs : List Token}
    (hopening : opening.kind = .ifWord) (htest : SpelledTest test us) (hclosing : closing.kind = .endifWord)
    (hend : lineEnd.kind = .newline)
    (hlast : (Content.condition ⟨test, thenBranch, elifs, elseBranch, key, pos⟩).isElidable = false)
    (hthen : Consumes (block node fuel) vs (ws ++ (xs ++ closing :: lineEnd :: rest)) (k + 1)
      (k + 1 + (contentKeys thenBranch).length) (RebuiltAll node (k + 1) thenBranch))
    (helifs : Consumes (ParseM.elifs node fuel) ws (xs ++ closing :: lineEnd :: rest)
      (k + 1 + (contentKeys thenBranch).length) (k + 1 + (contentKeys thenBranch).length + (branchKeys elifs).length)
      (RebuiltElifs node (k + 1 + (contentKeys thenBranch).length) elifs))
    (helse : Otherwise node fuel (k + 1 + (contentKeys thenBranch).length + (branchKeys elifs).length)
      (closing :: lineEnd :: rest) elseBranch xs) :
    Consumes (condition node (fuel + 1)) (opening :: (us ++ (vs ++ (ws ++ (xs ++ [closing, lineEnd]))))) rest k
      (k + (Content.condition ⟨test, thenBranch, elifs, elseBranch, key, pos⟩).keys.length)
      (Restores node k (.condition ⟨test, thenBranch, elifs, elseBranch, key, pos⟩)) := by
  unfold condition
  refine .advance (by simp [hopening]) (.count fun s hs => ?_)
  refine .bind (consumes_test htest) fun made hmade => ?_
  refine .bind (by simpa using hthen) fun items hitems => ?_
  refine .bind (by simpa using helifs) fun branches hbranches => ?_
  extract_lets finish
  have hcount : k + (Content.condition ⟨test, thenBranch, elifs, elseBranch, key, pos⟩).keys.length =
      k + 1 + (contentKeys thenBranch).length + (branchKeys elifs).length + (elseBranch.elim [] contentKeys).length := by
    rw [keys_condition, Condition.inner]
    simp only [List.length_cons, List.length_append]
    omega
  have hfinish {last : Option (List Content)} (j : Nat)
      (hmore : RebuiltElse node (k + 1 + (contentKeys thenBranch).length + (branchKeys elifs).length) elseBranch last) :
      Consumes (finish last) [closing, lineEnd] rest j j
        (Restores node k (.condition ⟨test, thenBranch, elifs, elseBranch, key, pos⟩)) := by
    have hshape : (Content.condition ⟨made, items, branches, last, ⟨node, s.conditions⟩, opening.pos⟩).shape =
        (Content.condition ⟨test, thenBranch, elifs, elseBranch, key, pos⟩).shape := by
      rw [shape_condition, shape_condition, hmade, hitems.shapes, hbranches.shapes, hmore.shapes]
    have hkept : (⟨made, items, branches, last, ⟨node, s.conditions⟩, opening.pos⟩ : Condition).isEmpty = false :=
      (Content.isElidable_congr hshape).trans hlast
    refine .consume hclosing (by decide) (.lineEnd hend ?_)
    rw [if_neg (by simp [hkept])]
    refine .pure ⟨_, rfl, hshape, ?_⟩
    rw [keys_condition, keys_condition, Condition.inner, Condition.inner]
    exact Rebuilt.keys_cons hs hitems hbranches hmore
  rw [hcount]
  cases helse with
  | none =>
    refine .decline (by simp [Reading.peek, hclosing]) ?_
    rw [if_neg (by simp), pure_bind]
    exact hfinish _ ⟨rfl, rfl⟩
  | some hword hnewline hblock =>
    refine .accept hword (by decide) ?_
    rw [if_pos rfl]
    refine .lineEnd hnewline ?_
    rw [map_eq_pure_bind, bind_assoc]
    refine .bind hblock fun content hcontent => ?_
    exact hfinish _ ⟨congrArg some hcontent.shapes, hcontent.keys⟩

theorem consumes_block {opening closing : Token} {items : List Content} (hopening : opening.kind = .indent)
    (hitems : Consumes (blockItems node 0 fuel) (ts ++ [closing]) rest k k' (RebuiltAll node k items)) :
    Consumes (block node (fuel + 1)) (opening :: (ts ++ [closing])) rest k k' (RebuiltAll node k items) := by
  refine .accept hopening (by decide) ?_
  rw [if_pos rfl]
  exact hitems

theorem consumes_noBlock (hnext : (Reading.peek rest).kind ≠ .indent) :
    Consumes (block node (fuel + 1)) [] rest k k (RebuiltAll node k []) := by
  refine .decline hnext ?_
  rw [if_neg (by simp)]
  exact .pure .nil

theorem consumes_dedent {closing : Token} (hclosing : closing.kind = .dedent) :
    Consumes (blockItems node 0 (fuel + 1)) [closing] rest k k (RebuiltAll node k []) := by
  refine .kind ?_
  rw [hclosing]
  exact .advance (by simp [hclosing]) (.pure .nil)

/-- An item and the items behind it. -/
theorem consumes_item {c : Content} {items : List Content} {more : ParseM (List Content)}
    (hitem : Consumes (content node fuel) us (vs ++ rest) k (k + c.keys.length) (Restores node k c))
    (hmore : Consumes more vs rest (k + c.keys.length) k' (RebuiltAll node (k + c.keys.length) items)) :
    Consumes (do
      let item ← content node fuel
      let more ← more
      return item.toList ++ more) (us ++ vs) rest k k' (RebuiltAll node k (c :: items)) := by
  refine .bind hitem fun item hmade => ?_
  obtain ⟨made, rfl, hmade⟩ := hmade
  exact .map hmore fun items hitems => .cons hmade hitems

theorem consumes_elif {opening : Token} {test : Expr} {content : List Content} {pos : Pos} {elifs : List Branch}
    {ws : List Token} (hopening : opening.kind = .elifWord) (htest : SpelledTest test us)
    (hblock : Consumes (block node fuel) vs (ws ++ rest) k (k + (contentKeys content).length) (RebuiltAll node k content))
    (hmore : Consumes (ParseM.elifs node fuel) ws rest (k + (contentKeys content).length) k'
      (RebuiltElifs node (k + (contentKeys content).length) elifs)) :
    Consumes (ParseM.elifs node (fuel + 1)) (opening :: (us ++ (vs ++ ws))) rest k k'
      (RebuiltElifs node k (⟨test, content, pos⟩ :: elifs)) := by
  refine .kind ?_
  rw [if_pos hopening]
  refine .advance (by simp [hopening]) (.bind (consumes_test htest) fun made hmade => ?_)
  refine .bind (by simpa using hblock) fun items hitems => .map hmore fun more hmore => ⟨?_, ?_⟩
  · rw [branchShapes, branchShapes, hmade, hitems.shapes, hmore.shapes]
  · rw [branchKeys, branchKeys, hitems.keys, hmore.keys, List.length_append, ← ConditionKey.run_append,
      Nat.add_right_comm]

theorem consumes_noElif (hnext : (Reading.peek rest).kind ≠ .elifWord) :
    Consumes (ParseM.elifs node (fuel + 1)) [] rest k k (RebuiltElifs node k []) := by
  refine .ahead ?_
  rw [if_neg hnext]
  exact .pure ⟨rfl, rfl⟩

theorem consumes_line {l : Line} (h : (Content.line l).Spelled ts) (hlast : (Content.line l).Lasting) :
    Consumes (content node (fuel + 1)) ts rest k k (Restores node k (.line l)) := by
  obtain ⟨hblank, hfeeling⟩ := hlast
  cases h with
  | narration h =>
    obtain ⟨t, us, rfl, ht⟩ := h.opens_text hblank
    refine .content_textLine ?_ (.textLine_narration ht (consumes_narration h hblank))
    rcases ht with ht | ⟨ht, -⟩ <;> simp [ht]
  | @dialogue _ _ _ pos _ _ hspeech h =>
    have hdialogue : Consumes dialogue _ rest k k (Restores node k (.line ⟨_, _, _, pos⟩)) :=
      consumes_dialogue hspeech h hblank hfeeling
    obtain ⟨t, u, us, rfl, ht, hu⟩ := hspeech.opens
    refine .content_textLine ?_ (.textLine_dialogue ht hu hdialogue)
    rcases ht with ht | ht <;> simp [ht]

mutual

theorem consumes_content {c : Content} {ts : List Token} (h : c.Spelled ts) (hlast : ∀ part ∈ c.parts, part.Lasting)
    {node : String} {fuel k : Nat} {rest : List Token} (hfuel : 4 * ts.length ≤ fuel)
    (hnext : (Reading.peek rest).kind ≠ .indent) :
    Consumes (content node fuel) ts rest k (k + c.keys.length) (Restores node k c) := by
  have hown := hlast c c.mem_parts_self
  obtain ⟨t, us, hts, -⟩ := h.opens hown.1
  have hlength : 0 < ts.length := by simp [hts]
  obtain ⟨fuel, rfl⟩ : ∃ f, fuel = f + 3 := Nat.exists_eq_add_of_le' (by omega)
  match h with
  | .narration h => exact consumes_line (.narration h) hown
  | .dialogue hspeech h => exact consumes_line (.dialogue hspeech h) hown
  | .choice harrow htext hguard hend hcontent =>
    simp only [List.length_cons, List.length_append] at hfuel
    refine .content_choice harrow (consumes_choice harrow htext hguard hend hown.1 ?_)
    rw [keys_choice]
    exact consumes_blockOf hcontent (fun part hpart => hlast part (by simp [parts_choice, hpart])) (by omega) hnext
  | @Content.Spelled.condition _ closing lineEnd _ thenBranch elifs elseBranch _ _ us vs ws xs hopening htest hthen helifs
      helse hclosing hend =>
    simp only [List.length_cons, List.length_append, List.length_nil] at hfuel
    have hlastThen : ∀ part ∈ contentParts thenBranch, part.Lasting := fun part hpart =>
      hlast part (by simp [parts_condition, hpart])
    have hlastElifs : ∀ part ∈ branchParts elifs, part.Lasting := fun part hpart =>
      hlast part (by simp [parts_condition, hpart])
    have hlastElse : ∀ content, elseBranch = some content → ∀ part ∈ contentParts content, part.Lasting :=
      fun content heq part hpart => hlast part (by simp [parts_condition, heq, hpart])
    have helseEnd := @SpelledElse.next _ (lineEnd :: rest) _ _ helse hclosing
    refine .content_condition hopening (consumes_condition hopening htest hclosing hend hown.1 ?_ ?_ ?_)
    · exact consumes_blockOf hthen hlastThen (by omega) (helifs.next helseEnd)
    · exact consumes_elifsOf helifs hlastElifs (by omega) helseEnd
    · match helse with
      | .none => exact .none
      | .some hopening hend h =>
        simp only [List.length_cons] at hfuel
        exact .some hopening hend (consumes_blockOf h (hlastElse _ rfl) (by omega) (by simp [Reading.peek, hclosing]))
  | .command h hend =>
    obtain ⟨word, ts, rfl, hword⟩ := h.opens
    exact .content_command hword (consumes_command h hend)

theorem consumes_blockOf {items : List Content} {ts : List Token} (h : SpelledBlock items ts)
    (hlast : ∀ part ∈ contentParts items, part.Lasting) {node : String} {fuel k : Nat} {rest : List Token}
    (hfuel : 4 * ts.length + 1 ≤ fuel) (hnext : (Reading.peek rest).kind ≠ .indent) :
    Consumes (block node fuel) ts rest k (k + (contentKeys items).length) (RebuiltAll node k items) := by
  obtain ⟨fuel, rfl⟩ : ∃ f, fuel = f + 1 := Nat.exists_eq_add_of_le' (by omega)
  match h with
  | .empty => exact consumes_noBlock hnext
  | .indented hopening _ hitems hclosing =>
    simp only [List.length_cons, List.length_append, List.length_nil] at hfuel
    exact consumes_block hopening (consumes_itemsOf hitems hlast hclosing (by omega))

theorem consumes_itemsOf {items : List Content} {ts : List Token} (h : SpelledItems items ts)
    (hlast : ∀ part ∈ contentParts items, part.Lasting) {node : String} {fuel k : Nat} {rest : List Token}
    {closing : Token} (hclosing : closing.kind = .dedent) (hfuel : 4 * ts.length + 1 ≤ fuel) :
    Consumes (blockItems node 0 fuel) (ts ++ [closing]) rest k (k + (contentKeys items).length)
      (RebuiltAll node k items) := by
  obtain ⟨fuel, rfl⟩ : ∃ f, fuel = f + 1 := Nat.exists_eq_add_of_le' (by omega)
  match h with
  | .nil => exact consumes_dedent hclosing
  | @SpelledItems.cons c more us vs hitem hmore =>
    simp only [List.length_append] at hfuel
    have hlastItem : ∀ part ∈ c.parts, part.Lasting := fun part hpart => hlast part (by simp [contentParts, hpart])
    have hlastMore : ∀ part ∈ contentParts more, part.Lasting := fun part hpart => hlast part (by simp [contentParts, hpart])
    have hnext : (Reading.peek (vs ++ closing :: rest)).kind ≠ .indent :=
      hmore.next hlastMore (by simp [Reading.peek, hclosing])
    obtain ⟨t, rest', heq, ht⟩ := hitem.opens (hlastItem c c.mem_parts_self).1
    have hlength : 0 < us.length := by simp [heq]
    have hboth : Consumes (do
        let item ← content node fuel
        let more ← blockItems node 0 fuel
        return item.toList ++ more) (us ++ (vs ++ [closing])) rest k
        (k + c.keys.length + (contentKeys more).length) (RebuiltAll node k (c :: more)) :=
      consumes_item (consumes_content hitem hlastItem (by omega) (by simpa using hnext))
        (consumes_itemsOf hmore hlastMore hclosing (by omega))
    rw [contentKeys_cons, List.length_append, ← Nat.add_assoc, List.append_assoc]
    rw [heq] at hboth ⊢
    exact .blockItems_item ht hboth

theorem consumes_elifsOf {elifs : List Branch} {ts : List Token} (h : SpelledElifs elifs ts)
    (hlast : ∀ part ∈ branchParts elifs, part.Lasting) {node : String} {fuel k : Nat} {rest : List Token}
    (hfuel : 4 * ts.length + 1 ≤ fuel)
    (hnext : (Reading.peek rest).kind = .elseWord ∨ (Reading.peek rest).kind = .endifWord) :
    Consumes (ParseM.elifs node fuel) ts rest k (k + (branchKeys elifs).length) (RebuiltElifs node k elifs) := by
  obtain ⟨fuel, rfl⟩ : ∃ f, fuel = f + 1 := Nat.exists_eq_add_of_le' (by omega)
  match h with
  | .nil =>
    refine consumes_noElif ?_
    rcases hnext with heq | heq <;> simp [heq]
  | @SpelledElifs.cons opening test content pos more us vs ws hopening htest hcontent hmore =>
    simp only [List.length_cons, List.length_append] at hfuel
    rw [branchKeys, List.length_append, ← Nat.add_assoc]
    refine consumes_elif hopening htest ?_ ?_
    · exact consumes_blockOf hcontent (fun part hpart => hlast part (by simp [branchParts, hpart])) (by omega)
        (hmore.next hnext)
    · exact consumes_elifsOf hmore (fun part hpart => hlast part (by simp [branchParts, hpart])) (by omega) hnext

end

/-! ### Nodes -/

/-- The items of a node go on to the next header or to the end of the text. -/
theorem consumes_nodeItems {items : List Content} {ts : List Token} (h : SpelledItems items ts)
    (hlast : ∀ part ∈ contentParts items, part.Lasting) {node : String} {fuel k : Nat} {rest : List Token}
    (hfuel : 4 * ts.length + 1 ≤ fuel)
    (hnext : (Reading.peek rest).kind = .eof ∨ (Reading.peek rest).kind = .doubleColon) :
    Consumes (nodeItems node 0 fuel) ts rest k (k + (contentKeys items).length) (RebuiltAll node k items) := by
  obtain ⟨fuel, rfl⟩ : ∃ f, fuel = f + 1 := Nat.exists_eq_add_of_le' (by omega)
  match h with
  | .nil =>
    refine .ahead ?_
    rcases hnext with heq | heq <;> rw [heq] <;> exact .pure .nil
  | @SpelledItems.cons c more us vs hitem hmore =>
    simp only [List.length_append] at hfuel
    have hlastItem : ∀ part ∈ c.parts, part.Lasting := fun part hpart => hlast part (by simp [contentParts, hpart])
    have hlastMore : ∀ part ∈ contentParts more, part.Lasting := fun part hpart => hlast part (by simp [contentParts, hpart])
    have hafter : (Reading.peek (vs ++ rest)).kind ≠ .indent :=
      hmore.next hlastMore (by rcases hnext with heq | heq <;> simp [heq])
    obtain ⟨t, rest', heq, ht⟩ := hitem.opens (hlastItem c c.mem_parts_self).1
    have hlength : 0 < us.length := by simp [heq]
    have hboth : Consumes (do
        let item ← content node fuel
        let more ← nodeItems node 0 fuel
        return item.toList ++ more) (us ++ vs) rest k
        (k + c.keys.length + (contentKeys more).length) (RebuiltAll node k (c :: more)) :=
      consumes_item (consumes_content hitem hlastItem (by omega) hafter)
        (consumes_nodeItems hmore hlastMore (by omega) hnext)
    rw [contentKeys_cons, List.length_append, ← Nat.add_assoc]
    rw [heq] at hboth ⊢
    exact .nodeItems_item ht hboth

/-- The conditions of a node are counted from one. -/
theorem Consumes.reset {β : Type} {Q : β → Prop} {x : ParseM β} (hx : Consumes x ts rest 0 k' Q) :
    Consumes (do modify fun s => { s with conditions := 0 }; x) ts rest k k' Q := hx

theorem consumes_node {header name lineEnd : Token} {items : List Content} {pos : Pos}
    (hheader : header.kind = .doubleColon) (hname : name.kind = .identifier) (hend : lineEnd.kind = .newline)
    (h : SpelledItems items ts) (hlast : ∀ part ∈ contentParts items, part.Lasting) (hfuel : 4 * ts.length + 1 ≤ fuel)
    (hnext : (Reading.peek rest).kind = .eof ∨ (Reading.peek rest).kind = .doubleColon) :
    Consumes (ParseM.node fuel) (header :: name :: lineEnd :: ts) rest k (0 + (contentKeys items).length)
      (RebuiltNode ⟨name.value, items, pos⟩) := by
  refine .advance (by simp [hheader]) (.consume hname (by decide) (.lineEnd hend (.reset ?_)))
  refine .map (consumes_nodeItems h hlast hfuel hnext) fun made hmade => ⟨?_, ?_⟩
  · rw [Node.shape, Node.shape, hmade.shapes]
  · show contentKeys made = ConditionKey.run name.value 1 (contentKeys made).length
    rw [hmade.keys, ConditionKey.length_run]

theorem SpelledNodes.next {ns : List Node} {eof : Token} (h : SpelledNodes ns ts) (heof : eof.kind = .eof) :
    (Reading.peek (ts ++ [eof])).kind = .eof ∨ (Reading.peek (ts ++ [eof])).kind = .doubleColon := by
  cases h with
  | nil => exact .inl heof
  | cons hheader _ _ _ _ => exact .inr hheader

theorem consumes_nodes {ns : List Node} {eof : Token} (h : SpelledNodes ns ts) (heof : eof.kind = .eof)
    (hlast : ∀ n ∈ ns, n.content ≠ [] ∧ ∀ part ∈ contentParts n.content, part.Lasting)
    (hfuel : 4 * ts.length + 1 ≤ fuel) :
    ∃ k', Consumes (nodes fuel) ts [eof] k k' (RebuiltNodes ns) := by
  induction h generalizing fuel k with
  | nil =>
    obtain ⟨fuel, rfl⟩ : ∃ f, fuel = f + 1 := Nat.exists_eq_add_of_le' (by omega)
    refine ⟨k, .ahead ?_⟩
    rw [show (Reading.peek [eof]).kind = .eof from heof]
    exact .pure ⟨rfl, by simp⟩
  | @cons header name lineEnd items pos more us vs hheader hname hend hitems hmore ih =>
    simp only [List.length_cons, List.length_append] at hfuel
    obtain ⟨fuel, rfl⟩ : ∃ f, fuel = f + 1 := Nat.exists_eq_add_of_le' (by omega)
    obtain ⟨hne, hlastItems⟩ := hlast _ List.mem_cons_self
    have hfuel' : 4 * vs.length + 1 ≤ fuel := by omega
    obtain ⟨k', hrest⟩ := ih (k := 0 + (contentKeys items).length) (fun n hn => hlast n (.tail _ hn)) hfuel'
    have hnode : Consumes (ParseM.node fuel) (header :: name :: lineEnd :: us) (vs ++ [eof]) k _
        (RebuiltNode ⟨name.value, items, pos⟩) :=
      consumes_node hheader hname hend hitems hlastItems (by omega) (SpelledNodes.next hmore heof)
    refine ⟨k', .kind ?_⟩
    rw [hheader]
    rw [show header :: name :: lineEnd :: (us ++ vs) = (header :: name :: lineEnd :: us) ++ vs from rfl]
    refine .bind hnode fun made hmade => ?_
    have hcontent : made.content.isEmpty = false := by
      have hshapes : contentShapes made.content = contentShapes items := congrArg Node.content hmade.shape
      rw [← isEmpty_contentShapes, hshapes, isEmpty_contentShapes]
      simpa using hne
    rw [hcontent]
    refine .map hrest fun more hmore => ⟨by rw [List.map_cons, List.map_cons, hmade.shape, hmore.shapes], ?_⟩
    intro n hn
    rcases List.mem_cons.1 hn with rfl | hn
    · exact hmade.keys
    · exact hmore.keys n hn

end ParseM

/-- Neither an item nor a list of nodes ends with the end of the text. -/
theorem Content.Spelled.closes {c : Content} {ts : List Token} (h : c.Spelled ts) :
    ∃ us t, ts = us ++ [t] ∧ t.kind ≠ .eof := by
  cases h with
  | narration h =>
    obtain ⟨-, -, hend⟩ := h
    exact ⟨_, _, (List.append_assoc ..).symm, by simp [hend]⟩
  | dialogue hspeech h =>
    obtain ⟨-, -, hend⟩ := h
    refine ⟨_, _, by rw [← List.append_assoc, ← List.append_assoc], by simp [hend]⟩
  | @choice arrow lineEnd _ _ _ _ us vs _ harrow htext hguard hend hcontent =>
    cases hcontent with
    | empty => exact ⟨arrow :: (us ++ vs), lineEnd, by simp, by simp [hend]⟩
    | @indented opening closing _ ts hopening _ _ hclosing =>
      exact ⟨arrow :: (us ++ (vs ++ lineEnd :: opening :: ts)), closing, by simp, by simp [hclosing]⟩
  | @condition opening closing lineEnd _ _ _ _ _ _ us vs ws xs hopening _ _ _ _ hclosing hend =>
    exact ⟨opening :: (us ++ (vs ++ (ws ++ (xs ++ [closing])))), lineEnd, by simp, by simp [hend]⟩
  | command h hend => exact ⟨_, _, rfl, by simp [hend]⟩

theorem SpelledItems.getLast?_ne_eof {items : List Content} {ts : List Token} (h : SpelledItems items ts) :
    ∀ t ∈ ts.getLast?, t.kind ≠ .eof := by
  match h with
  | .nil => simp
  | @SpelledItems.cons c more us vs hitem hmore =>
    intro t ht
    rw [List.getLast?_append] at ht
    cases hlast : vs.getLast? with
    | some u => exact SpelledItems.getLast?_ne_eof hmore t (by simpa [hlast] using ht)
    | none =>
      obtain ⟨us', u, rfl, hu⟩ := hitem.closes
      obtain rfl : u = t := by simpa [hlast] using ht
      exact hu

theorem SpelledNodes.getLast?_ne_eof {ns : List Node} {ts : List Token} (h : SpelledNodes ns ts) :
    ∀ t ∈ ts.getLast?, t.kind ≠ .eof := by
  induction h with
  | nil => simp
  | @cons header name lineEnd items pos more us vs hheader hname hend hitems hmore ih =>
    intro t ht
    rw [show header :: name :: lineEnd :: (us ++ vs) = [header, name, lineEnd] ++ (us ++ vs) from rfl,
      List.getLast?_append, List.getLast?_append] at ht
    cases hvs : vs.getLast? with
    | some u => exact ih t (by simpa [hvs] using ht)
    | none =>
      cases hus : us.getLast? with
      | some u => exact hitems.getLast?_ne_eof t (by simpa [hvs, hus] using ht)
      | none =>
        obtain rfl : lineEnd = t := by simpa [hvs, hus] using ht
        simp [hend]

/-- The end of the text may be written or left to the parser. -/
theorem SpelledNodes.terminated {ns : List Node} {ts : List Token} (h : SpelledNodes ns ts) {ending : Option Token}
    (hending : ∀ t ∈ ending, t.kind = .eof) :
    ∃ eof, eof.kind = .eof ∧ Reading.terminated (ts ++ ending.toList) = ts ++ [eof] := by
  cases ending with
  | some t =>
    refine ⟨t, hending t rfl, ?_⟩
    have heof : t.isEof = true := by simp [Token.isEof, hending t rfl]
    simp [Reading.terminated, heof]
  | none =>
    cases hlast : ts.getLast? with
    | none =>
      obtain rfl := List.getLast?_eq_none_iff.1 hlast
      exact ⟨_, rfl, rfl⟩
    | some t =>
      have heof : t.isEof = false := by simpa [Token.isEof] using h.getLast?_ne_eof t hlast
      refine ⟨⟨.eof, "", t.line, t.column⟩, rfl, ?_⟩
      simp [Reading.terminated, hlast, heof]

/-- The parser has the fuel for all the tokens in front of the end. -/
theorem patience_spare (ts : List Token) (eof : Token) : 4 * ts.length + 1 ≤ Reading.patience (ts ++ [eof]) := by
  rw [Reading.patience, List.length_append]
  omega

/-- A script that is written down in tokens is read back: nothing is left out, every item stands where it stood, and the
conditions of a node are numbered in reading order. Only an emotion without a letter would be lost. -/
theorem parseTokens_of_spelled {ns : List Node} {ts : List Token} (h : SpelledNodes ns ts)
    (hkept : ∀ n ∈ ns, n.content ≠ [] ∧ ∀ part ∈ contentParts n.content, part.isElidable = false)
    (hfeeling : ∀ n ∈ ns, ∀ part ∈ contentParts n.content, part.emotion? ≠ some "") {ending : Option Token}
    (hending : ∀ t ∈ ending, t.kind = .eof) :
    ∃ made, parseTokens (ts ++ ending.toList) = (.ok ⟨made⟩, []) ∧ RebuiltNodes ns made := by
  obtain ⟨eof, heof, hterminated⟩ := h.terminated hending
  have hlast : ∀ n ∈ ns, n.content ≠ [] ∧ ∀ part ∈ contentParts n.content, part.Lasting := fun n hn =>
    ⟨(hkept n hn).1, fun part hpart => ⟨(hkept n hn).2 part hpart, hfeeling n hn part hpart⟩⟩
  obtain ⟨k', hnodes⟩ := ParseM.consumes_nodes (k := 0) h heof hlast (patience_spare ts eof)
  obtain ⟨made, hmade, hrebuilt⟩ := hnodes []
  refine ⟨made, ?_, hrebuilt⟩
  rw [parseTokens, hterminated, hmade]
  rfl

/-- A guarded choice with a condition below it, whose first branch is empty and whose last one is missing. -/
def branchingNode : Node :=
  ⟨"n", [.choice ⟨[.literal "go" {}], some (.reference "a" {}), [.condition ⟨.reference "b" {}, [],
    [⟨.reference "c" {}, [.line ⟨none, [.hole (.reference "d" {}) {}], ["t"], {}⟩], {}⟩], none, default, {}⟩], {}⟩], {}⟩

def branchingTokens : List Token :=
  [⟨.doubleColon, "::", 1, 1⟩, ⟨.identifier, "n", 1, 4⟩, ⟨.newline, "\n", 1, 5⟩,
    ⟨.arrow, "->", 2, 1⟩, ⟨.text, "go", 2, 4⟩, ⟨.leftBracket, "[", 2, 7⟩, ⟨.ifWord, "if", 2, 8⟩, ⟨.reference, "a", 2, 11⟩,
    ⟨.rightBracket, "]", 2, 13⟩, ⟨.newline, "\n", 2, 14⟩,
    ⟨.indent, "", 3, 1⟩, ⟨.ifWord, "if", 3, 3⟩, ⟨.reference, "b", 3, 6⟩, ⟨.newline, "\n", 3, 8⟩,
    ⟨.elifWord, "elif", 4, 3⟩, ⟨.reference, "c", 4, 8⟩, ⟨.newline, "\n", 4, 10⟩,
    ⟨.indent, "", 5, 1⟩, ⟨.leftBrace, "\x7b", 5, 5⟩, ⟨.reference, "d", 5, 6⟩, ⟨.rightBrace, "\x7d", 5, 8⟩,
    ⟨.hash, "#", 5, 10⟩, ⟨.text, "t", 5, 11⟩, ⟨.newline, "\n", 5, 12⟩, ⟨.dedent, "", 6, 1⟩,
    ⟨.endifWord, "endif", 6, 3⟩, ⟨.newline, "\n", 6, 8⟩, ⟨.dedent, "", 7, 1⟩]

/-- A phrase for a variable. -/
theorem Expr.spelled_reference (value : String) (line column : Int) :
    (reference value {}).Spelled [⟨.reference, value, line, column⟩] :=
  ⟨_, .operand (by decide) (.operand (by decide) (.operand (by decide) (.operand (by decide) (.operand (by decide)
    (.operand (by decide) (.reference rfl)))))), rfl⟩

theorem spelled_branching : SpelledNodes [branchingNode] branchingTokens := by
  have hline : (Content.line ⟨none, [.hole (.reference "d" {}) {}], ["t"], {}⟩).Spelled [⟨.leftBrace, "\x7b", 5, 5⟩,
      ⟨.reference, "d", 5, 6⟩, ⟨.rightBrace, "\x7d", 5, 8⟩, ⟨.hash, "#", 5, 10⟩, ⟨.text, "t", 5, 11⟩, ⟨.newline, "\n", 5, 12⟩] :=
    .narration (.mk (.hole rfl (Expr.spelled_reference "d" 5 6) rfl .nil)
      (@SpelledTags.cons ⟨.hash, "#", 5, 10⟩ ⟨.text, "t", 5, 11⟩ _ _ rfl (.inl rfl) .nil) rfl)
  exact @SpelledNodes.cons ⟨.doubleColon, "::", 1, 1⟩ ⟨.identifier, "n", 1, 4⟩ ⟨.newline, "\n", 1, 5⟩ _ _ _ _ _ rfl rfl rfl
    (.cons (.choice rfl (@SpelledText.literal ⟨.text, "go", 2, 4⟩ _ _ _ rfl .nil)
      (.some rfl rfl (Expr.spelled_reference "a" 2 11) rfl) rfl
      (.indented rfl (by simp) (.cons (.condition rfl (.mk (Expr.spelled_reference "b" 3 6) rfl) .empty
        (.cons rfl (.mk (Expr.spelled_reference "c" 4 8) rfl) (.indented rfl (by simp) (.cons hline .nil) rfl) .nil) .none
        rfl rfl) .nil) rfl)) .nil) .nil

theorem parseTokens_of_spelled_branching :
    ∃ made, parseTokens branchingTokens = (.ok ⟨made⟩, []) ∧ RebuiltNodes [branchingNode] made :=
  @parseTokens_of_spelled _ _ spelled_branching (by decide) (by decide) none (by simp)

/-- A spoken line whose emotion has no letter. -/
def quietNode : Node := ⟨"n", [.line ⟨some ⟨"A", some ""⟩, [.literal "hi" {}], [], {}⟩], {}⟩

def quietTokens : List Token :=
  [⟨.doubleColon, "::", 1, 1⟩, ⟨.identifier, "n", 1, 4⟩, ⟨.newline, "\n", 1, 5⟩, ⟨.text, "A", 2, 1⟩,
    ⟨.leftBracket, "[", 2, 2⟩, ⟨.text, "", 2, 3⟩, ⟨.rightBracket, "]", 2, 3⟩, ⟨.colon, ":", 2, 4⟩, ⟨.text, "hi", 2, 6⟩,
    ⟨.newline, "\n", 2, 8⟩]

theorem spelled_quiet : SpelledNodes [quietNode] quietTokens :=
  @SpelledNodes.cons ⟨.doubleColon, "::", 1, 1⟩ ⟨.identifier, "n", 1, 4⟩ ⟨.newline, "\n", 1, 5⟩ _ _ _ _ _ rfl rfl rfl
    (.cons (.dialogue (@Speech.Spelled.feeling ⟨.text, "A", 2, 1⟩ ⟨.leftBracket, "[", 2, 2⟩ ⟨.text, "", 2, 3⟩
      ⟨.rightBracket, "]", 2, 3⟩ ⟨.colon, ":", 2, 4⟩ (.inl rfl) rfl (.inl rfl) rfl rfl)
      (.mk (@SpelledText.literal ⟨.text, "hi", 2, 6⟩ _ _ _ rfl .nil) .nil rfl)) .nil) .nil

/-- An emotion without a letter is read as no emotion. -/
theorem emotion_lost : ¬ ∀ (ns : List Node) (ts : List Token), SpelledNodes ns ts →
    (∀ n ∈ ns, n.content ≠ [] ∧ ∀ part ∈ contentParts n.content, part.isElidable = false) →
    ∃ made, parseTokens ts = (.ok ⟨made⟩, []) ∧ RebuiltNodes ns made := by
  intro hall
  obtain ⟨made, hmade, hrebuilt⟩ := hall [quietNode] quietTokens spelled_quiet (by decide)
  have hread : parseTokens quietTokens =
      (.ok ⟨[⟨"n", [.line ⟨some ⟨"A", none⟩, [.literal "hi" ⟨2, 6⟩], [], ⟨2, 1⟩⟩], ⟨1, 1⟩⟩]⟩, []) := rfl
  obtain rfl : _ = made := by simpa using hread.symm.trans hmade
  have hshapes := hrebuilt.shapes
  simp [quietNode, Node.shape, contentShapes, Content.shape, Line.relocate] at hshapes

end Parley
