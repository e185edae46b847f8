import Parley.Proofs.Drawing
import Mathlib.Data.List.Induction

/-! # Tokens and indent levels

A lexer changes its indent levels and queues the tokens that tell of it in one go, so the levels can be read back from
the tokens, returned or queued: a token that opens a block stands at the level that it opens, and one that closes a
block closes the innermost level (`levelsAfter`). The levels grow inwards, and no block is closed before it is opened
(`Leveled`). Every move of a lexer preserves that, also where an indentation is refused after levels have been closed
for it: the line is then started again behind its blanks, and opens nothing (`Aligned`). -/

namespace Parley

/-- Kinds that open or close a block. -/
def TokenKind.isBlock : TokenKind → Bool
  | indent | dedent => true
  | _ => false

/-- How many blocks the tokens open. -/
def opened (ts : List Token) : Nat := ts.countP fun t => t.kind == .indent

/-- How many blocks the tokens close. -/
def closed (ts : List Token) : Nat := ts.countP fun t => t.kind == .dedent

/-- No more blocks are closed than have been opened before. -/
def Nested (ts : List Token) : Prop := ∀ p, p <+: ts → closed p ≤ opened p

/-- The open levels after a token, innermost first. -/
def Token.levels (open_ : List Nat) (t : Token) : List Nat :=
  match t.kind with
  | .indent => (t.column - 1).toNat :: open_
  | .dedent => open_.tail
  | _ => open_

/-- The open levels after some tokens, innermost first. -/
def levelsAfter (ts : List Token) : List Nat := ts.foldl Token.levels []

/-- After these tokens these levels are open. -/
structure Leveled (ts : List Token) (levels : List Nat) : Prop where
  after : levelsAfter ts = levels
  increasing : (levels ++ [0]).Pairwise (· > ·)
  nested : Nested ts

section Counting
variable {t : Token} {ts us : List Token}

@[simp] theorem opened_append : opened (ts ++ us) = opened ts + opened us := List.countP_append

@[simp] theorem closed_append : closed (ts ++ us) = closed ts + closed us := List.countP_append

theorem opened_of_kind {kind : TokenKind} (ht : t.kind = kind) : opened [t] = if kind = .indent then 1 else 0 := by
  simp [opened, List.countP_cons, ht]

theorem closed_of_kind {kind : TokenKind} (ht : t.kind = kind) : closed [t] = if kind = .dedent then 1 else 0 := by
  simp [closed, List.countP_cons, ht]

theorem count_of_not_block {kind : TokenKind} (hkind : kind.isBlock = true) (h : ∀ t ∈ ts, t.kind.isBlock = false) :
    ts.countP (fun t => t.kind == kind) = 0 :=
  List.countP_eq_zero.mpr fun t ht hk => by
    rw [← eq_of_beq hk, h t ht] at hkind
    cases hkind

theorem levelsAfter_concat : levelsAfter (ts ++ [t]) = t.levels (levelsAfter ts) := by
  simp [levelsAfter]

theorem levels_of_not_block {open_ : List Nat} (h : t.kind.isBlock = false) : t.levels open_ = open_ := by
  unfold Token.levels
  split
  · next hk => rw [hk] at h; cases h
  · next hk => rw [hk] at h; cases h
  · rfl

theorem foldl_levels_of_not_block {open_ : List Nat} (h : ∀ t ∈ ts, t.kind.isBlock = false) :
    ts.foldl Token.levels open_ = open_ := by
  induction ts with
  | nil => rfl
  | cons t ts ih =>
    rw [List.foldl_cons, levels_of_not_block (h t (by simp))]
    exact ih fun u hu => h u (List.mem_cons_of_mem t hu)

/-- Every closing token closes a level. -/
theorem foldl_levels_of_dedent {shut open_ : List Nat} (h : ∀ t ∈ ts, t.kind = .dedent)
    (hlength : ts.length = shut.length) : ts.foldl Token.levels (shut ++ open_) = open_ := by
  induction ts generalizing shut with
  | nil => rw [List.length_eq_zero_iff.mp hlength.symm]; rfl
  | cons t ts ih =>
    cases shut with
    | nil => cases hlength
    | cons level shut =>
      have ht : t.levels (level :: shut ++ open_) = shut ++ open_ := by simp [Token.levels, h t (by simp)]
      rw [List.foldl_cons, ht]
      exact ih (fun u hu => h u (List.mem_cons_of_mem t hu)) (by simpa using hlength)

theorem Nested.left (h : Nested (ts ++ us)) : Nested ts := fun p hp => h p (hp.trans (List.prefix_append ts us))

/-- However the new tokens are ordered, if there are blocks enough for all that they close. -/
theorem Nested.append (h : Nested ts) (hclosed : closed (ts ++ us) ≤ opened ts) : Nested (ts ++ us) := by
  intro p hp
  obtain ⟨rest, hrest⟩ := hp
  rcases List.append_eq_append_iff.mp hrest with ⟨q, rfl, -⟩ | ⟨q, rfl, rfl⟩
  · exact h p (List.prefix_append p q)
  · simp only [closed_append, opened_append] at hclosed ⊢
    omega

/-- As many levels are open as blocks have been opened and not closed. -/
theorem Nested.length_levelsAfter (h : Nested ts) : opened ts = closed ts + (levelsAfter ts).length := by
  induction ts using List.reverseRecOn with
  | nil => rfl
  | append_singleton ts t ih =>
    have ih := ih h.left
    have hall := h _ (List.prefix_refl _)
    rw [levelsAfter_concat]
    simp only [opened_append, closed_append, opened_of_kind rfl, closed_of_kind rfl] at hall ⊢
    unfold Token.levels
    cases hk : t.kind <;> simp [hk] at hall ⊢ <;> omega

end Counting

namespace Leveled
variable {t : Token} {ts us : List Token} {levels shut : List Nat} {n : Nat}

theorem balance (h : Leveled ts levels) : opened ts = closed ts + levels.length := by
  rw [h.nested.length_levelsAfter, h.after]

theorem nil : Leveled [] [] := ⟨rfl, by simp, fun p hp => by rw [List.prefix_nil.mp hp]; exact Nat.le_refl _⟩

theorem plain (h : Leveled ts levels) (hus : ∀ t ∈ us, t.kind.isBlock = false) : Leveled (ts ++ us) levels where
  after := by rw [levelsAfter, List.foldl_append, foldl_levels_of_not_block hus]; exact h.after
  increasing := h.increasing
  nested := h.nested.append (by
    have := h.balance
    have hnone : closed us = 0 := count_of_not_block rfl hus
    rw [closed_append]
    omega)

/-- A deeper level is opened. -/
theorem opening (h : Leveled ts levels) (hkind : t.kind = .indent) (hcolumn : t.column = n + 1)
    (hdeeper : levels.headD 0 < n) : Leveled (ts ++ [t]) (n :: levels) where
  after := by
    rw [levelsAfter_concat, h.after]
    simp [Token.levels, hkind, hcolumn]
  increasing := by
    refine List.pairwise_cons.mpr ⟨fun level hlevel => ?_, h.increasing⟩
    cases levels with
    | nil =>
      rw [List.mem_singleton.mp hlevel]
      exact hdeeper
    | cons top levels =>
      rcases List.mem_cons.mp hlevel with rfl | hlevel
      · exact hdeeper
      · exact Nat.lt_trans ((List.pairwise_cons.mp h.increasing).1 level hlevel) hdeeper
  nested := h.nested.append (by
    have := h.balance
    rw [closed_append, closed_of_kind hkind]
    simpa using this ▸ Nat.le_add_right _ _)

/-- The innermost levels are closed. -/
theorem closing (h : Leveled ts (shut ++ levels)) (hus : ∀ t ∈ us, t.kind = .dedent)
    (hlength : us.length = shut.length) : Leveled (ts ++ us) levels where
  after := by rw [levelsAfter, List.foldl_append, ← levelsAfter, h.after, foldl_levels_of_dedent hus hlength]
  increasing := h.increasing.sublist (by simp)
  nested := h.nested.append (by
    have := h.balance
    have hcount : closed us ≤ us.length := List.countP_le_length
    rw [closed_append]
    simp only [List.length_append] at this
    omega)

end Leveled

namespace Lexer

/-- The indent levels, from the margin on. -/
def indents (s : Lexer) : List Nat := 0 :: s.levels.reverse

/-- The tokens that have been returned or are queued tell the open levels. A line is started in the first column or
behind its blanks, and at the end of the text nothing is open. -/
structure Aligned (out : List Token) (s : Lexer) : Prop where
  leveled : Leveled (out ++ s.pending) s.levels
  margin : s.mode = .lineStart → s.column = 1 ∨ ∀ c ∈ s.rest.head?, isBlank c = false
  finished : s.mode = .done → s.levels = []

section Steps
variable {s s' m : Lexer} {t : Token} {out new : List Token} {n : Nat} {e : Option LexError}

theorem isBlock_of_isLayout {kind : TokenKind} (h : kind.isLayout = false) : kind.isBlock = false := by
  cases kind <;> first | rfl | cases h

/-- What indenting a line does to the levels, whether it is refused or not. -/
theorem levels_of_indentTo (h : s.indentTo n = (e, m)) :
    ∃ bs levels, m = { s.queue bs with levels := levels } ∧ (∀ t ∈ bs, t.line = s.line) ∧
      (s.levels.headD 0 < n ∧ levels = n :: s.levels ∧ bs = [s.tokenHere .indent ""] ∨
        (∀ t ∈ bs, t.kind = .dedent) ∧ ∃ shut, s.levels = shut ++ levels ∧ bs.length = shut.length) := by
  unfold indentTo at h
  dsimp only at h
  split at h
  · next hdeeper =>
    cases h
    exact ⟨_, _, rfl, by simp [tokenHere], .inl ⟨hdeeper, rfl, rfl⟩⟩
  · have hsplit := List.takeWhile_append_dropWhile (p := fun level => decide (n < level)) (l := s.levels)
    have hlength := congrArg List.length hsplit
    rw [List.length_append] at hlength
    split at h <;> cases h <;>
      refine ⟨_, _, rfl, by simp +contextual [tokenHere], .inr ⟨by simp +contextual [tokenHere], _, hsplit.symm, ?_⟩⟩ <;>
      (simp only [List.length_replicate]; omega)

/-- After the end of a line comes the first column, or nothing. -/
theorem column_consumeNewline (hend : m.AtLineEnd) : m.consumeNewline.column = 1 ∨ m.consumeNewline.rest = [] := by
  unfold consumeNewline
  split
  · exact .inl rfl
  · next c tail _ hrest => simp [hend c (by simp [hrest])]
  · next hrest => exact .inr hrest

theorem margin_consumeNewline (hend : m.AtLineEnd) :
    m.consumeNewline.column = 1 ∨ ∀ c ∈ m.consumeNewline.rest.head?, isBlank c = false :=
  (column_consumeNewline hend).imp_right fun hnil => by simp [hnil]

theorem Aligned.closeBlocks (h : Leveled (out ++ m.pending) m.levels) :
    Leveled (out ++ m.closeBlocks.pending) m.closeBlocks.levels := by
  rw [Lexer.closeBlocks, queue, ← List.append_assoc]
  have hall : Leveled (out ++ m.pending) (m.levels ++ []) := by simpa using h
  exact hall.closing (by simp +contextual [tokenHere]) (by simp)

/-- The token that opens a block stands at its level, for only an untouched line can be indented. -/
theorem Aligned.indentTo (h : Aligned out s) (hmode : s.mode = .lineStart) (hpending : s.pending = [])
    (hindent : s.skipBlanks.indentTo (s.rest.takeWhile isBlank).length = (e, m)) :
    Leveled (out ++ m.pending) m.levels := by
  obtain ⟨bs, levels, rfl, -, hcases⟩ := levels_of_indentTo hindent
  have hleveled : Leveled out s.levels := by simpa [hpending] using h.leveled
  have hblocks : (s.skipBlanks.queue bs).pending = bs := by simp [queue, skipBlanks, hpending]
  show Leveled (out ++ (s.skipBlanks.queue bs).pending) levels
  rw [hblocks]
  rcases hcases with ⟨hdeeper, rfl, rfl⟩ | ⟨hdedent, shut, hshut, hlength⟩
  · refine hleveled.opening rfl ?_ hdeeper
    have hcolumn : s.column = 1 := by
      refine (h.margin hmode).resolve_right fun hblank => ?_
      have : s.rest.takeWhile isBlank = [] := by
        cases hrest : s.rest with
        | nil => rfl
        | cons c tail => simp [hblank c (by simp [hrest])]
      simp [this] at hdeeper
    show ((s.column + (s.rest.takeWhile isBlank).length : Nat) : Int) = _
    rw [hcolumn]
    omega
  · have hshut : s.levels = shut ++ levels := hshut
    rw [hshut] at hleveled
    exact hleveled.closing hdedent hlength

theorem Aligned.start (h : Aligned out s) (hpending : s.pending = []) (hmode : s.mode = .lineStart)
    (hs : Started s e s') : Aligned out s' := by
  cases hs with
  | finish hrest => exact ⟨closeBlocks h.leveled, by simp, fun _ => rfl⟩
  | @skip p m _ _ halong hm hend =>
    obtain ⟨hlevels, hqueue, hm'⟩ := consumeNewline_eq m
    refine ⟨by rw [hqueue, hlevels, halong.pending, halong.levels]; exact h.leveled,
      fun _ => margin_consumeNewline hend, fun hdone => ?_⟩
    rw [hm', hm, hmode] at hdone
    cases hdone
  | header _ hline => exact ⟨closeBlocks (m := s.skipBlanks) h.leveled, by simp, by simp⟩
  | @content m _ _ hindent =>
    obtain ⟨hinline, ts, q, hq, hkinds, -⟩ := classified_classify m
    have hheads : ∀ kind ∈ headKinds, kind.isBlock = false := by decide
    have hqueue : m.classify.pending = m.pending ++ ts := hq.pending
    have hlevels : m.classify.levels = m.levels := hq.levels
    refine ⟨?_, fun hmode' => ?_, fun hmode' => ?_⟩
    · rw [hqueue, hlevels, ← List.append_assoc]
      exact (h.indentTo hmode hpending hindent).plain fun t ht => hheads _ (hkinds t ht)
    all_goals
      rw [hmode'] at hinline
      cases hinline
  | @refused e m _ _ hindent =>
    have hleveled := h.indentTo hmode hpending hindent
    obtain ⟨bs, levels, rfl, -, -⟩ := levels_of_indentTo hindent
    refine ⟨hleveled, fun _ => .inr fun c hc => ?_, fun hdone => ?_⟩
    · have hhead := List.head?_dropWhile_not isBlank s.rest
      have hc : (s.rest.dropWhile isBlank).head? = some c := hc
      simpa [hc] using hhead
    · have hdone : s.mode = .done := hdone
      rw [hmode] at hdone
      cases hdone

/-- The tokens of a line tell of no blocks. -/
theorem Aligned.inLine (h : Aligned out s) (hpending : s.pending = []) (hline : InLine s t s') :
    Aligned (out ++ [t]) s' := by
  have hleveled : Leveled out s.levels := by simpa [hpending] using h.leveled
  cases hline with
  | mark _ halong hmode' hkind =>
    refine ⟨?_, fun hm => ?_, fun hm => ?_⟩
    · rw [halong.pending, hpending, List.append_nil, halong.levels]
      exact hleveled.plain (by simpa using isBlock_of_isLayout hkind)
    all_goals
      rw [hm] at hmode'
      cases hmode'
  | @stop p m halong hend ht hs =>
    obtain ⟨hlevels, hqueue, -⟩ := consumeNewline_eq m
    subst ht hs
    refine ⟨?_, fun _ => margin_consumeNewline hend, by simp [newline]⟩
    show Leveled (out ++ [m.newline.1] ++ m.consumeNewline.pending) m.consumeNewline.levels
    rw [hqueue, hlevels, halong.pending, hpending, List.append_nil, halong.levels]
    exact hleveled.plain (by simp [newline, tokenHere, TokenKind.isBlock])

theorem Aligned.move (h : Aligned out s) (hmove : Move s new s') : Aligned (out ++ new) s' := by
  cases hmove with
  | pop hpending => exact ⟨by simpa [hpending] using h.leveled, h.margin, h.finished⟩
  | start hpending hmode hstart =>
    rw [List.append_nil]
    exact h.start hpending hmode (started_of_startLine hstart)
  | pass hpending hmode halong hmode' _ =>
    refine ⟨by rw [List.append_nil, halong.pending, halong.levels]; exact h.leveled, fun hm => ?_, fun hm => ?_⟩ <;>
    · rw [← hmode', hm] at hmode
      cases hmode
  | token hpending _ _ hline => exact h.inLine hpending hline
  | last hpending hmode =>
    refine ⟨?_, h.margin, h.finished⟩
    have hleveled : Leveled out s.levels := by simpa [hpending] using h.leveled
    rw [hpending, List.append_nil]
    exact hleveled.plain (by simp [tokenHere, TokenKind.isBlock])

theorem aligned_ofText (source : String) : Aligned [] (ofText source) := ⟨.nil, fun _ => .inl rfl, fun _ => rfl⟩

/-- However often a lexer is asked, its tokens tell its levels. -/
theorem aligned_draw (source : String) (count : Nat) :
    Aligned ((ofText source).draw count).tokens ((ofText source).draw count).lexer :=
  draw_invariant Aligned.move (aligned_ofText source) count

end Steps
end Lexer
end Parley
