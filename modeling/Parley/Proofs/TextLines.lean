import Parley.Proofs.Levels
import Parley.Proofs.Vocabulary

/-! # Tokens line by line

The tokens of a text come line by line. Of a line with content the last token and no other ends it, and of a line without
content there is none (`Settled`). Where a line starts, and before its first token, blocks are opened and closed
(`AtStart`, `Heads`). Each token carries the number of the line that the lexer is on when it is made, and a line that
is read as a jump, a statement or text does not begin with a header's mark (`Lexer.Leads`). -/

namespace Parley

/-- The lines of a text, without their ends. -/
def textLines : List Char → List (List Char)
  | [] => [[]]
  | '\r' :: '\n' :: tail => [] :: textLines tail
  | c :: tail => if isLineEnd c then [] :: textLines tail else (textLines tail).modifyHead (c :: ·)

/-- The tokens of a line. What tells of blocks, or of the end of the text, belongs to no line. -/
def lineTokens (line : Int) (ts : List Token) : List Token :=
  ts.filter fun t => t.line == line && !t.kind.isBlock && !t.isEof

/-- The last token ends a line, and no other does. -/
def EndsOnce (ts : List Token) : Prop :=
  ∃ marks stop, ts = marks ++ [stop] ∧ stop.kind = .newline ∧ ∀ t ∈ marks, t.kind ≠ .newline

/-- These are all tokens of the line. -/
def Settled (line : List Char) (ts : List Token) : Prop := if hasContent line then EndsOnce ts else ts = []

/-- After these tokens the next line starts. -/
def AtStart (ts : List Token) : Prop := ∀ t ∈ ts.getLast?, t.kind = .newline ∨ t.kind.isBlock = true

/-- After these tokens no line is open. -/
def Ready (ts : List Token) : Prop := ∀ t ∈ ts.getLast?, t.kind.isLayout = true

/-- Blocks are opened and closed before the first token of the line. -/
def Heads (ts : List Token) : Prop :=
  ∀ before t, before ++ [t] <+: ts → t.kind.isBlock = true → lineTokens t.line before = []

section Text
variable {p tail : List Char} {c : Char}

theorem textLines_plain (hp : ∀ c ∈ p, isLineEnd c = false) (cs : List Char) :
    textLines (p ++ cs) = (textLines cs).modifyHead (p ++ ·) := by
  induction p with
  | nil =>
    rw [List.nil_append]
    cases textLines cs <;> rfl
  | cons c p ih =>
    have hc : isLineEnd c = false := hp c (by simp)
    have hno : ∀ more, c = '\r' → p ++ cs = '\n' :: more → False := by
      rintro more rfl
      cases hc
    rw [List.cons_append, textLines, hc, ih fun d hd => hp d (List.mem_cons_of_mem c hd)]
    · cases textLines cs <;> rfl
    · exact hno

theorem textLines_consumeNewline {m : Lexer} (hend : m.AtLineEnd) (hne : m.rest ≠ []) :
    textLines m.rest = [] :: textLines m.consumeNewline.rest ∧ m.consumeNewline.line = m.line + 1 := by
  unfold Lexer.consumeNewline
  split
  · next h => simp [h, textLines]
  · next c tail hno h =>
    have hc : isLineEnd c = true := hend c (by simp [h])
    rw [h, textLines, hc]
    · simp
    · exact hno
  · next h => exact absurd h hne

end Text

section Tokens
variable {t : Token} {ts : List Token} {k : Int}

theorem lineTokens_other (h : t.line ≠ k) : lineTokens k (ts ++ [t]) = lineTokens k ts := by
  simp [lineTokens, h]

theorem lineTokens_block (h : t.kind.isBlock = true) : lineTokens k (ts ++ [t]) = lineTokens k ts := by
  simp [lineTokens, h]

theorem lineTokens_dedent_or_eof (h : t.kind = .dedent ∨ t.kind = .eof) : lineTokens k (ts ++ [t]) = lineTokens k ts := by
  rcases h with h | h <;> simp [lineTokens, Token.isEof, TokenKind.isBlock, h]

theorem lineTokens_own (hblock : t.kind.isBlock = false) (heof : t.isEof = false) :
    lineTokens t.line (ts ++ [t]) = lineTokens t.line ts ++ [t] := by
  simp [lineTokens, hblock, heof]

theorem prefix_concat {before out : List Token} {u : Token} (h : before ++ [u] <+: out ++ [t]) :
    before ++ [u] <+: out ∨ before = out ∧ u = t := by
  rcases List.prefix_concat_iff.mp h with h | h
  · obtain ⟨rfl, h⟩ := List.append_inj' h rfl
    exact .inr ⟨rfl, by simpa using h⟩
  · exact .inl h

theorem Heads.concat (h : Heads ts) (ht : t.kind.isBlock = true → lineTokens t.line ts = []) : Heads (ts ++ [t]) := by
  intro before u hu hblock
  rcases prefix_concat hu with hu | ⟨rfl, rfl⟩
  · exact h before u hu hblock
  · exact ht hblock

theorem isLayout_of_isBlock {kind : TokenKind} (h : kind.isBlock = true) : kind.isLayout = true := by
  cases kind <;> first | rfl | cases h

theorem AtStart.ready (h : AtStart ts) : Ready ts := by
  intro t ht
  rcases h t ht with hk | hk
  · rw [hk]
    rfl
  · exact isLayout_of_isBlock hk

theorem Ready.concat (h : t.kind.isLayout = true) : Ready (ts ++ [t]) := by
  simpa [Ready] using h

theorem AtStart.concat (h : t.kind = .newline ∨ t.kind.isBlock = true) : AtStart (ts ++ [t]) := by
  simpa [AtStart] using h

end Tokens

namespace Lexer

/-- The tokens of a line carry its number. -/
theorem line_classify (s : Lexer) : ∀ t ∈ s.classify.pending, t ∈ s.pending ∨ t.line = s.line := by
  have hspeaker : ∀ t ∈ s.queueSpeaker.pending, t ∈ s.pending ∨ t.line = s.line := by
    unfold queueSpeaker
    split
    · exact fun t ht => .inl ht
    · dsimp only
      split
      · exact fun t ht => .inl ht
      · next head _ _ =>
        intro t ht
        refine (List.mem_append.mp ht).imp_right fun ht => ?_
        unfold speakerTokens at ht
        cases hemotion : head.emotion <;> simp [hemotion, tokenHere] at ht <;>
          first
          | (rcases ht with rfl | rfl <;> rfl)
          | (rcases ht with rfl | rfl | rfl | rfl | rfl <;> rfl)
  unfold classify
  dsimp only
  split
  · exact fun t ht => (List.mem_append.mp ht).imp_right fun ht => by rw [List.mem_singleton.mp ht]; rfl
  · split
    · exact fun t ht => .inl ht
    · split
      · exact fun t ht => .inl ht
      · exact hspeaker

/-- What is scanned, or refused, carries the number of its line. -/
theorem line_scanCode {s s' : Lexer} {t : Token} (h : s.scanCode = (.ok t, s')) : t.line = s.line := by
  rw [scanCode_eq] at h
  cases hhead : codeHead s.skipBlanks.rest <;> rw [hhead] at h <;> cases h <;> rfl

theorem line_scanCode_error {s s' : Lexer} {e : LexError} (h : s.scanCode = (.error e, s')) : e.line = s.line := by
  rw [scanCode_eq] at h
  cases hhead : codeHead s.skipBlanks.rest <;> rw [hhead] at h <;> cases h
  rfl

theorem line_scanTag {s s' : Lexer} {t : Token} (h : s.scanTag = (t, s')) : t.line = s.line := by
  rw [scanTag_eq] at h
  cases hhead : tagHead s.skipBlanks.rest <;> rw [hhead] at h <;> cases h <;> rfl

theorem line_scanText {s s' : Lexer} {t : Token} (h : s.scanText = (some t, s')) : t.line = s.line := by
  obtain ⟨p, hp⟩ := along_begun s
  rw [← hp.line]
  rw [scanText_eq] at h
  cases hhead : textHead s.begun.inChoice s.begun.rest.head? with
  | ending | mark =>
    rw [hhead] at h
    cases h
    rfl
  | run =>
    rw [hhead] at h
    obtain ⟨-, htext⟩ := Option.ite_none_left_eq_some.mp (congrArg Prod.fst h)
    cases htext
    rfl

/-- The first token of the line is not that of a header. -/
def Leads (s : Lexer) : Prop :=
  s.mode = .text ∨ s.mode = .code ∧ (s.opensStatement = true ∨ s.rest.head? = some '=' ∧ s.rest.tail.head?.any isArrowHead)

theorem leads_classify (s : Lexer) : s.classify.Leads := by
  unfold classify
  dsimp only
  split
  · exact .inl rfl
  · split
    · next hjump =>
      simp only [Bool.and_eq_true, decide_eq_true_eq] at hjump
      exact .inr ⟨rfl, .inr hjump⟩
    · split
      · next hstatement => exact .inr ⟨rfl, .inl hstatement⟩
      · exact .inl rfl

/-- A statement begins with its word. -/
theorem codeHead_of_opensStatement {s : Lexer} (h : s.opensStatement = true) :
    (∀ c ∈ s.rest.head?, isBlank c = false) ∧ ∃ word, codeHead s.rest = .ofWord word := by
  have hword : isStatementWord (String.ofList s.word) = true := by
    unfold opensStatement at h
    exact (Bool.and_eq_true_iff.mp h).1
  cases hrest : s.rest with
  | nil => simp [word, hrest, isStatementWord, keyword?] at hword
  | cons c tail =>
    have hc : isWordStart c = true := by
      by_contra hc
      simp [word, hrest, hc, isStatementWord, keyword?] at hword
    obtain ⟨hblank, -⟩ := plain_of_isWordPart (isWordPart_of_isWordStart hc)
    exact ⟨by simpa using hblank, _, codeHead_of_isWordStart hc⟩

/-- And a jump with its arrow. -/
theorem codeHead_of_jump {cs : List Char} (hfirst : cs.head? = some '=') (hsecond : cs.tail.head?.any isArrowHead) :
    ∃ text, codeHead cs = .token .jump "=>" text := by
  obtain ⟨tail, rfl⟩ : ∃ tail, cs = '=' :: tail := List.head?_eq_some_iff.mp hfirst
  have hcolon : isColon '=' = false := rfl
  have hmark : Punctuator.ofChars '=' tail.head? = .token .jump "=>" 2 := by
    rw [List.tail_cons] at hsecond
    simp [Punctuator.ofChars, hsecond, hcolon]
  have hhead : codeHead ('=' :: tail) = .ofMark '=' tail.head? := rfl
  rw [hhead, CodeHead.ofMark, hmark]
  exact ⟨_, rfl⟩

theorem scanCode_of_leads {s : Lexer} (h : s.opensStatement = true ∨
    s.rest.head? = some '=' ∧ s.rest.tail.head?.any isArrowHead) :
    ∃ t s', s.scanCode = (.ok t, s') ∧ t.kind ≠ .doubleColon := by
  rw [scanCode_eq]
  rcases h with hstatement | ⟨hfirst, hsecond⟩
  · obtain ⟨hblank, word, hhead⟩ := codeHead_of_opensStatement hstatement
    rw [skipBlanks_eq hblank, hhead]
    refine ⟨_, _, rfl, ?_⟩
    show (keyword? (String.ofList word)).getD .identifier ≠ .doubleColon
    unfold keyword?
    split <;> simp
  · obtain ⟨text, hhead⟩ := codeHead_of_jump hfirst hsecond
    have hblank : ∀ c ∈ s.rest.head?, isBlank c = false := by
      rw [hfirst]
      simp [isBlank]
    rw [skipBlanks_eq hblank, hhead]
    exact ⟨_, _, rfl, by simp [tokenHere]⟩

section Leads
variable {s s' : Lexer} {t : Token}

theorem Leads.token (h : s.Leads) (hpass : s.pass = (.token t, s')) : t.kind ≠ .doubleColon := by
  rcases h with hmode | ⟨hmode, hleads⟩
  · cases ran_of_pass hpass with
    | text _ hscan =>
      rintro hheader
      have hkind := kind_scanText hscan
      rw [hheader] at hkind
      simp at hkind
    | code hmode' | tags hmode' | done hmode' => simp [hmode] at hmode'
  · obtain ⟨u, m, hscan, hkind⟩ := scanCode_of_leads hleads
    rw [Ran.pass (.code (.inl hmode) hscan)] at hpass
    cases hpass
    exact hkind

/-- Only text passes anything over before the first token of a line. -/
theorem Leads.pass (h : s.Leads) (hnone : ∀ t, s.pass.1 ≠ .token t) : s.mode = .text := by
  rcases h with hmode | ⟨hmode, hleads⟩
  · exact hmode
  · obtain ⟨u, m, hscan, -⟩ := scanCode_of_leads hleads
    exact absurd (congrArg Prod.fst (Ran.pass (.code (.inl hmode) hscan))) (hnone u)

theorem line_pass_token (h : s.pass = (.token t, s')) : t.line = s.line := by
  cases ran_of_pass h with
  | code _ hscan => exact line_scanCode hscan
  | text _ hscan => exact line_scanText hscan
  | tags _ hscan => exact line_scanTag hscan
  | done => rfl

end Leads

section Lines
variable {s s' : Lexer} {e : LexError}

theorem line_le_consumeNewline (s : Lexer) : s.line ≤ s.consumeNewline.line := by
  unfold consumeNewline
  split
  · exact Nat.le_succ _
  · split
    · exact Nat.le_succ _
    · exact Nat.le_refl _
  · exact Nat.le_refl _

theorem InLine.line_le {t : Token} (h : InLine s t s') : s.line ≤ s'.line := by
  cases h with
  | mark _ halong _ _ => exact halong.line.ge
  | @stop p m halong _ _ hs =>
    subst hs
    exact halong.line ▸ line_le_consumeNewline m

/-- What a pass queues carries the number of the line that it starts. -/
theorem line_pass_again (hpending : s.pending = []) (h : s.pass = (.again, s')) :
    s.line ≤ s'.line ∧ ∀ t ∈ s'.pending, t.line = s.line := by
  rcases pass_again h with ⟨-, hopening⟩ | ⟨-, p, -, halong, -⟩
  · cases hopening with
    | finish _ hs =>
      subst hs
      exact ⟨Nat.le_refl _, by simp +contextual [closeBlocks, queue, hpending, tokenHere]⟩
    | @skip p m halong _ _ _ hs =>
      subst hs
      exact ⟨halong.line ▸ line_le_consumeNewline m, by simp [(consumeNewline_eq m).2.1, halong.pending, hpending]⟩
    | @header p m halong _ hs =>
      have hqueue := halong.pending.trans hpending
      subst hs
      exact ⟨halong.line.ge, by simp +contextual [closeBlocks, queue, hqueue, tokenHere, halong.line]⟩
    | @content p m m' halong _ hindent hs =>
      obtain ⟨ds, levels, hm, hlines, -⟩ := levels_of_indentTo hindent
      obtain ⟨-, ts, q, hq, -⟩ := classified_classify m'
      have hline : m'.line = s.line := by
        rw [hm]
        exact halong.line
      have hclassify : m'.classify.line = m'.line := hq.line
      subst hs
      refine ⟨(hclassify.trans hline).ge, fun t ht => ?_⟩
      rcases line_classify m' t ht with ht | ht
      · have hqueue : m'.pending = ds := by
          rw [hm]
          simp [queue, halong.pending, hpending]
        rw [hlines t (hqueue ▸ ht), halong.line]
      · rw [ht, hline]
  · exact ⟨halong.line.ge, by simp [halong.pending, hpending]⟩

/-- A lexer that breaks off does so on the line it is on. -/
theorem line_pass_failed (h : s.pass = (.failed e, s')) : e.line = s.line := by
  cases ran_of_pass h with
  | refused _ hscan =>
    cases started_of_startLine hscan with
    | refused _ _ hindent =>
      unfold indentTo at hindent
      dsimp only at hindent
      split at hindent
      · cases hindent
      · split at hindent <;> cases hindent
        rfl
  | broken _ hscan => exact line_scanCode_error hscan

end Lines
end Lexer
end Parley
