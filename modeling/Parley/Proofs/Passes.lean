import Parley.Proofs.Upcoming

/-! # What one pass of the lexer does

Every scanner makes one of two moves: it takes a stretch of the current line (`Along`), or it has nothing more to take
on the line and goes over its end (`Lexer.newline`). So a pass inside a line yields a mark of the line or the token
that ends it (`InLine`), and a pass at the start of a line finishes the text, skips a line without content, enters a
header, or opens a line of content (`Opening`). A pass itself is the scanner that its mode names (`Ran`). -/

namespace Parley
namespace Lexer

/-- From `s` to `s'` lies a stretch of one line. -/
structure Along (p : List Char) (s s' : Lexer) : Prop where
  rest : s.rest = p ++ s'.rest
  plain : ∀ c ∈ p, isLineEnd c = false
  line : s'.line = s.line
  column : s'.column = s.column + p.length
  levels : s'.levels = s.levels
  pending : s'.pending = s.pending

/-- Nothing of the current line is left. -/
def AtLineEnd (s : Lexer) : Prop := ∀ c ∈ s.rest.head?, isLineEnd c = true

/-- A pass inside a line yields a mark, or the end of the line once only blanks or a comment are left of it. -/
inductive InLine (s : Lexer) (t : Token) (s' : Lexer) : Prop
  | mark {p : List Char} (hp : p ≠ []) (h : Along p s s') (hmode : s'.mode.inLine = true)
      (hkind : t.kind.isLayout = false)
  | stop {p : List Char} {m : Lexer} (h : Along p s m) (hend : m.AtLineEnd) (ht : t = m.newline.1)
      (hs : s' = m.newline.2)

namespace Along
variable {p q : List Char} {s s' s'' : Lexer}

theorem refl (s : Lexer) : Along [] s s := ⟨rfl, by simp, rfl, rfl, rfl, rfl⟩

theorem trans (h : Along p s s') (h' : Along q s' s'') : Along (p ++ q) s s'' where
  rest := by rw [h.rest, h'.rest, List.append_assoc]
  plain := by simpa [or_imp, forall_and] using ⟨h.plain, h'.plain⟩
  line := h'.line.trans h.line
  column := by rw [h'.column, h.column, List.length_append]; omega
  levels := h'.levels.trans h.levels
  pending := h'.pending.trans h.pending

/-- Only the mode and the flags of a line changed. -/
theorem congr (h : Along p s s') (hrest : s''.rest = s'.rest) (hline : s''.line = s'.line)
    (hcolumn : s''.column = s'.column) (hlevels : s''.levels = s'.levels) (hpending : s''.pending = s'.pending) :
    Along p s s'' :=
  ⟨hrest ▸ h.rest, h.plain, hline.trans h.line, hcolumn.trans h.column, hlevels.trans h.levels,
    hpending.trans h.pending⟩

theorem advance (hrest : s.rest = p ++ q) (hplain : ∀ c ∈ p, isLineEnd c = false) : Along p s (s.advance p.length) where
  rest := by simp [Lexer.advance, hrest]
  plain := hplain
  line := rfl
  column := rfl
  levels := rfl
  pending := rfl

/-- A stretch of what comes next. -/
theorem stretch (hbegins : p <+: s.rest) (hplain : ∀ c ∈ p, isLineEnd c = false) : Along p s (s.advance p.length) := by
  obtain ⟨q, hq⟩ := hbegins
  exact .advance hq.symm hplain

theorem moveTo (hrest : s.rest = p ++ q) (hplain : ∀ c ∈ p, isLineEnd c = false) : Along p s (s.moveTo q) :=
  moveTo_eq_advance hrest hplain ▸ .advance hrest hplain

theorem skipBlanks (s : Lexer) : Along (s.rest.takeWhile isBlank) s s.skipBlanks where
  rest := List.takeWhile_append_dropWhile.symm
  plain := fun _ hc => isLineEnd_of_isBlank (List.mem_takeWhile_imp hc)
  line := rfl
  column := rfl
  levels := rfl
  pending := rfl

end Along

section Scanners
variable {p q : List Char} {s s' m : Lexer} {t : Token} {c : Char} {tail : List Char}

theorem Along.inLine_stop (h : Along p s m) (hend : m.AtLineEnd) : InLine s m.newline.1 m.newline.2 := .stop h hend rfl rfl

/-- After a stretch, perhaps an empty one, a stretch that is not. -/
theorem Along.inLine_mark (h : Along p s m) (hq : q ≠ []) (h' : Along q m s') (hmode : s'.mode.inLine = true)
    (hkind : t.kind.isLayout = false) : InLine s t s' := .mark (by simp [hq]) (h.trans h') hmode hkind

/-- One character that does not end the line. -/
theorem Along.one (hrest : s.rest = c :: tail) (hc : isLineEnd c = false) : Along [c] s (s.advance 1) :=
  .advance (p := [c]) hrest (by simpa using hc)

theorem atLineEnd_nil (h : s.rest = []) : s.AtLineEnd := by simp [AtLineEnd, h]

/-- One character ends the line, unless it is a carriage return before a line feed. -/
theorem consumeNewline_cons (hrest : s.rest = c :: tail) (hno : c = '\r' → tail.head? ≠ some '\n') :
    s.consumeNewline = if isLineEnd c then { s with rest := tail, line := s.line + 1, column := 1 } else s := by
  unfold consumeNewline
  split
  · next heq =>
    rw [hrest] at heq
    cases heq
    exact absurd rfl (hno rfl)
  · next heq =>
    rw [hrest] at heq
    cases heq
    rfl
  · next heq => rw [hrest] at heq; cases heq

theorem inLine_scanTag (h : s.mode = .tags) : InLine s s.scanTag.1 s.scanTag.2 := by
  have hblanks := Along.skipBlanks s
  have hblank := head?_skipBlanks s
  have hmode : s.skipBlanks.mode.inLine = true := by simp [h, Mode.inLine]
  rw [scanTag_eq]
  generalize s.skipBlanks = m at *
  cases hhead : tagHead m.rest with
  | none => exact hblanks.inLine_stop (tagHead_eq_none.mp hhead)
  | some head =>
    obtain ⟨hne, hbegins, hplain, hkind⟩ := tagHead_fits hblank hhead
    exact hblanks.inLine_mark hne (.stretch hbegins hplain) hmode hkind

theorem along_begun (s : Lexer) : ∃ p, Along p s s.begun := by
  unfold begun
  split
  · exact ⟨_, (Along.skipBlanks s).congr rfl rfl rfl rfl rfl⟩
  · exact ⟨[], .refl s⟩

/-- Text may also yield nothing, when a run of it holds white space only. -/
theorem inLine_scanText {o : Option Token} (h : s.mode = .text) (hs : s.scanText = (o, s')) :
    (∃ t, o = some t ∧ InLine s t s') ∨ o = none ∧ ∃ p, p ≠ [] ∧ Along p s s' ∧ s'.mode = .text := by
  obtain ⟨p, hp⟩ := along_begun s
  have hmode : s.begun.mode = .text := (mode_begun s).trans h
  rw [scanText_eq] at hs
  generalize s.begun = m at *
  cases hhead : textHead m.inChoice m.rest.head? with
  | ending =>
    rw [hhead] at hs
    cases hs
    exact .inl ⟨_, rfl, hp.inLine_stop (textHead_eq_ending.mp hhead)⟩
  | mark kind value mode =>
    rw [hhead] at hs
    cases hs
    obtain ⟨c, tail, hrest, hc⟩ := exists_cons_of_textHead (hhead.trans_ne nofun)
    obtain ⟨hkind, hinline⟩ := textHead_mark hhead
    have hlayout : kind.isLayout = false := by rcases hkind with rfl | rfl | ⟨rfl, -⟩ <;> rfl
    exact .inl ⟨_, rfl, hp.inLine_mark (by simp) ((Along.one hrest hc).congr rfl rfl rfl rfl rfl) hinline hlayout⟩
  | run =>
    obtain ⟨c, tail, hrest, -⟩ := exists_cons_of_textHead (hhead.trans_ne nofun)
    have hfree : textStops m.inChoice c = false := textHead_eq_run.mp (by rwa [hrest] at hhead)
    obtain ⟨q, hq, hplain, hne⟩ := textRun_stretch (textStops_lineEnd m.inChoice) m.rest
    have hrun := Along.moveTo hq hplain
    have hne := hne c (by simp [hrest]) hfree
    have hmode' : (m.moveTo (textRun (textStops m.inChoice) m.rest).2).mode = .text := hmode
    rw [hhead] at hs
    simp only [readText, readRun] at hs
    generalize textRun (textStops m.inChoice) m.rest = run at *
    generalize (if run.2.head? = some '\x7b' then run.1 else trimEnd run.1) = value at hs
    cases hs
    split
    · exact .inr ⟨rfl, _, by simp [hne], hp.trans hrun, hmode⟩
    · exact .inl ⟨_, rfl, hp.inLine_mark hne hrun (by rw [hmode']; rfl) rfl⟩

/-- The next word, if there is one, stays on the line. -/
theorem Along.word (s : Lexer) : Along s.word s (s.advance s.word.length) := by
  rw [word_eq]
  exact .stretch (wordHead_begins _) fun _ hc => isLineEnd_of_isWordPart (isWordPart_of_mem_wordHead hc)

/-- A comment takes the rest of the line. -/
theorem Along.comment (s : Lexer) :
    ∃ p, p.length = lineLength s.rest ∧ Along p s (s.advance (lineLength s.rest)) ∧
      (s.advance (lineLength s.rest)).AtLineEnd := by
  have hsplit := List.takeWhile_append_dropWhile (p := fun c => !isLineEnd c) (l := s.rest)
  have hcomment := Along.advance hsplit.symm fun d hd => by simpa using List.mem_takeWhile_imp hd
  refine ⟨_, rfl, hcomment, fun d hd => ?_⟩
  have hrest : (s.advance (lineLength s.rest)).rest = s.rest.dropWhile fun c => !isLineEnd c := drop_length_takeWhile ..
  have hhead := List.head?_dropWhile_not (fun c => !isLineEnd c) s.rest
  rw [← hrest, Option.mem_def.mp hd] at hhead
  simpa using hhead

/-- What scanning code can yield, if it is a token. -/
theorem inLine_scanCode (h : s.mode = .code ∨ s.mode = .interpolation) (hs : s.scanCode = (.ok t, s')) :
    InLine s t s' := by
  have hblanks := Along.skipBlanks s
  have hfits := fits_codeHead s.skipBlanks.rest
  have hmode : s.skipBlanks.mode.inLine = true := by
    rcases h with h | h <;> simp [h, Mode.inLine]
  rw [scanCode_eq] at hs
  generalize s.skipBlanks = m at *
  cases hhead : codeHead m.rest with
  | ending =>
    rw [hhead] at hs
    cases hs
    exact hblanks.inLine_stop (codeHead_eq_ending.mp hhead)
  | comment =>
    rw [hhead] at hs
    cases hs
    obtain ⟨q, -, hcomment, hend⟩ := Along.comment m
    exact (hblanks.trans hcomment).inLine_stop hend
  | token kind value text =>
    rw [hhead] at hs hfits
    cases hs
    obtain ⟨hne, hbegins, hplain, hkind⟩ := hfits
    exact hblanks.inLine_mark hne ((Along.stretch hbegins hplain).congr rfl rfl rfl rfl rfl)
      (Mode.inLine_after hmode kind) hkind
  | refused =>
    rw [hhead] at hs
    cases hs

/-- Only the end of the line and a closing brace end code. -/
theorem mode_scanCode (hs : s.scanCode = (.ok t, s')) :
    t.kind = .newline ∧ s'.mode = .lineStart ∨ t.kind = .rightBrace ∧ s.mode = .interpolation ∨ s'.mode = s.mode := by
  rw [scanCode_eq] at hs
  cases hhead : codeHead s.skipBlanks.rest with
  | ending | comment =>
    rw [hhead] at hs
    cases hs
    exact .inl ⟨rfl, rfl⟩
  | token kind value text =>
    rw [hhead] at hs
    cases hs
    exact .inr (s.mode.after_eq_or kind)
  | refused =>
    rw [hhead] at hs
    cases hs

end Scanners

end Lexer

section Speaker
variable {cs : List Char} {head : SpeakerHead}

theorem beforeColon_push (head : SpeakerHead) (c : Char) (width : Nat) :
    (head.push c width).beforeColon = head.beforeColon + width := by
  unfold SpeakerHead.beforeColon SpeakerHead.push
  cases head.emotion <;> dsimp only
  omega

theorem emotionHead?_fits (h : emotionHead? cs = some head) :
    head.name.length ≤ head.width ∧ head.beforeColon < 1 + cs.length := by
  unfold emotionHead? at h
  have hsplit := List.takeWhile_append_dropWhile (p := fun c => c != ']') (l := cs)
  dsimp only at h
  split at h
  · cases h
  · next bracket after hafter =>
    split at h
    · next hcolon =>
      cases h
      have hblanks := List.takeWhile_append_dropWhile (p := isBlank) (l := after)
      cases hrest : after.dropWhile isBlank with
      | nil =>
        rw [hrest] at hcolon
        cases hcolon
      | cons colon rest =>
        have hlength := congrArg List.length hsplit
        have hlength' := congrArg List.length hblanks
        simp only [hafter, hrest, List.length_append, List.length_cons] at hlength hlength'
        refine ⟨Nat.le_refl _, ?_⟩
        simp only [SpeakerHead.beforeColon]
        omega
    · cases h

/-- A speaker and its colon stand on the line, and a name is no longer than the text it is written with. -/
theorem speakerHead?_fits (h : speakerHead? cs = some head) :
    head.name.length ≤ head.width ∧ head.beforeColon < cs.length := by
  have hpush {c : Char} {n : Nat} {o : Option SpeakerHead} {head : SpeakerHead} {tail : List Char} (hn : 1 ≤ n)
      (ih : ∀ {head}, o = some head → head.name.length ≤ head.width ∧ head.beforeColon < tail.length)
      (h : o.map (SpeakerHead.push · c n) = some head) :
      head.name.length ≤ head.width ∧ head.beforeColon < tail.length + n := by
    obtain ⟨inner, hinner, rfl⟩ := Option.map_eq_some_iff.mp h
    obtain ⟨hname, hcolon⟩ := ih hinner
    rw [beforeColon_push]
    refine ⟨?_, by omega⟩
    simp only [SpeakerHead.push, List.length_cons]
    omega
  fun_induction speakerHead? cs generalizing head with
  | case1 => cases h
  | case2 c hc =>
    cases h
    exact ⟨Nat.le_refl _, Nat.zero_lt_one⟩
  | case3 => cases h
  | case4 => cases h
  | case5 c d tail _ _ ih => exact hpush (n := 2) (by decide) ih h
  | case6 c d tail =>
    cases h
    exact ⟨Nat.le_refl _, Nat.succ_pos _⟩
  | case7 d tail =>
    obtain ⟨hname, hcolon⟩ := emotionHead?_fits h
    refine ⟨hname, ?_⟩
    simp only [List.length_cons] at hcolon ⊢
    omega
  | case8 c d tail _ _ _ _ ih => exact hpush (n := 1) (by decide) ih h

end Speaker

/-- A line has content unless it is blank or a comment. -/
def hasContent (line : List Char) : Bool :=
  let text := line.dropWhile isBlank
  !text.isEmpty && !(['/', '/'].isPrefixOf text)

theorem hasContent_append {p line : List Char} (hp : ∀ c ∈ p, isBlank c = true) :
    hasContent (p ++ line) = hasContent line := by
  unfold hasContent
  rw [List.dropWhile_append_of_pos hp]

namespace Lexer

/-- What is left of the current line. -/
def lineLeft (s : Lexer) : List Char := s.rest.takeWhile fun c => !isLineEnd c

theorem lineLeft_of_along {p : List Char} {s m : Lexer} (h : Along p s m) : s.lineLeft = p ++ m.lineLeft := by
  unfold lineLeft
  rw [h.rest, List.takeWhile_append_of_pos fun c hc => by simpa using h.plain c hc]

theorem lineLeft_atLineEnd {s : Lexer} (h : s.AtLineEnd) : s.lineLeft = [] := by
  unfold lineLeft
  cases hrest : s.rest with
  | nil => rfl
  | cons c tail => simp [h c (by simp [hrest])]

theorem hasContent_skipBlanks (s : Lexer) : hasContent s.lineLeft = hasContent s.skipBlanks.lineLeft := by
  rw [lineLeft_of_along (.skipBlanks s)]
  exact hasContent_append fun c hc => List.mem_takeWhile_imp hc

/-- Once the blanks are skipped the next character tells. -/
theorem hasContent_skipBlanks_cons {s : Lexer} {c : Char} {tail : List Char} (hrest : s.skipBlanks.rest = c :: tail) :
    hasContent s.lineLeft = (!isLineEnd c && !(c = '/' && tail.head? = some '/')) := by
  have hblank : isBlank c = false := head?_skipBlanks s c (by simp [hrest])
  rw [hasContent_skipBlanks, lineLeft, hrest]
  by_cases hc : isLineEnd c = true
  · simp [hc, hasContent]
  · by_cases hslash : c = '/'
    · subst hslash
      cases tail with
      | nil => simp [hasContent, hblank, hc]
      | cons d tail =>
        by_cases hd : d = '/'
        · subst hd
          simp [hasContent, hblank, hc]
        · by_cases hend : isLineEnd d = true <;> simp [hasContent, List.isPrefixOf, hblank, hc, hd, hend, Ne.symm hd]
    · simp [hasContent, List.isPrefixOf, hblank, hc, hslash, Ne.symm hslash]

/-- What starting a line comes to. Content is measured by the blanks in front of it. -/
inductive Started (s : Lexer) : Option LexError → Lexer → Prop
  /-- The text is over, and every block with it. -/
  | finish (hrest : s.rest = []) : Started s none { s.closeBlocks with mode := .done }
  /-- The line has no content. -/
  | skip {p : List Char} {m : Lexer} (hcontent : hasContent s.lineLeft = false) (hne : s.rest ≠ []) (h : Along p s m)
      (hmode : m.mode = s.mode) (hend : m.AtLineEnd) : Started s none m.consumeNewline
  /-- A header closes every block. -/
  | header (hcontent : hasContent s.lineLeft = true) (hline : ¬ s.skipBlanks.AtLineEnd) :
      Started s none { s.skipBlanks.closeBlocks with mode := .code }
  /-- Content stands where its indentation puts it. -/
  | content {m : Lexer} (hcontent : hasContent s.lineLeft = true) (hline : ¬ s.skipBlanks.AtLineEnd)
      (hindent : s.skipBlanks.indentTo (s.rest.takeWhile isBlank).length = (none, m)) : Started s none m.classify
  /-- The indentation goes back to no open level. -/
  | refused {e : LexError} {m : Lexer} (hcontent : hasContent s.lineLeft = true) (hline : ¬ s.skipBlanks.AtLineEnd)
      (hindent : s.skipBlanks.indentTo (s.rest.takeWhile isBlank).length = (some e, m)) : Started s (some e) m

section StartLine
variable {s s' : Lexer} {indent : Nat} {e : Option LexError}

theorem hasContent_lineHead (s : Lexer) : hasContent s.lineLeft = (lineHead s.skipBlanks.rest).hasContent := by
  cases hrest : s.skipBlanks.rest with
  | nil =>
    rw [hasContent_skipBlanks, lineLeft_atLineEnd (atLineEnd_nil hrest)]
    rfl
  | cons c tail =>
    rw [hasContent_skipBlanks_cons hrest, lineHead]
    split
    · next hc => simp [hc, LineHead.hasContent]
    · next hc =>
      split
      · next hslash => simp [hslash, LineHead.hasContent]
      · next hslash => split <;> simp [hc, hslash, LineHead.hasContent]

theorem started_of_startLine (h : s.startLine = (e, s')) : Started s e s' := by
  by_cases hrest : s.rest = []
  · rw [startLine_nil hrest] at h
    cases h
    exact .finish hrest
  have hblanks := Along.skipBlanks s
  have hcontent := hasContent_lineHead s
  have hline (h : lineHead s.skipBlanks.rest ≠ .nothing) : ¬ s.skipBlanks.AtLineEnd := mt lineHead_eq_nothing.mpr h
  rw [startLine_eq hrest] at h
  cases hhead : lineHead s.skipBlanks.rest with
  | nothing =>
    rw [hhead] at h hcontent
    cases h
    exact .skip hcontent hrest hblanks rfl (lineHead_eq_nothing.mp hhead)
  | comment =>
    rw [hhead] at h hcontent
    cases h
    obtain ⟨q, -, hcomment, hend⟩ := Along.comment s.skipBlanks
    exact .skip hcontent hrest (hblanks.trans hcomment) rfl hend
  | header =>
    rw [hhead] at h hcontent hline
    cases h
    exact .header hcontent (hline nofun)
  | content =>
    rw [hhead] at h hcontent hline
    obtain ⟨m, hindent, rfl, rfl⟩ | ⟨f, hindent, rfl⟩ := openContent_eq h
    · exact .content hcontent (hline nofun) hindent
    · exact .refused hcontent (hline nofun) hindent

end StartLine

/-- A pass at the start of a line that does not fail. -/
inductive Opening (s s' : Lexer) : Prop
  /-- The text is over, and every block with it. -/
  | finish (hrest : s.rest = []) (hs : s' = { s.closeBlocks with mode := .done })
  /-- The line has no content. -/
  | skip {p : List Char} {m : Lexer} (h : Along p s m) (hmode : m.mode = s.mode) (hend : m.AtLineEnd) (hne : s.rest ≠ [])
      (hs : s' = m.consumeNewline)
  /-- A header closes every block. -/
  | header {p : List Char} {m : Lexer} (h : Along p s m) (hline : ¬ m.AtLineEnd)
      (hs : s' = { m.closeBlocks with mode := .code })
  /-- Content stands where its indentation puts it. -/
  | content {p : List Char} {m m' : Lexer} (h : Along p s m) (hline : ¬ m.AtLineEnd)
      (hindent : m.indentTo p.length = (none, m')) (hs : s' = m'.classify)

theorem opening_of_startLine {s s' : Lexer} (h : s.startLine = (none, s')) : Opening s s' := by
  cases started_of_startLine h with
  | finish hrest => exact .finish hrest rfl
  | skip _ hne halong hmode hend => exact .skip halong hmode hend hne rfl
  | header _ hline => exact .header (.skipBlanks s) hline rfl
  | content _ hline hindent => exact .content (.skipBlanks s) hline hindent rfl

/-- Kinds of the tokens that open a line of content: the arrow of a choice, and a speaker with its emotion. -/
def headKinds : List TokenKind := [.arrow, .identifier, .text, .leftBracket, .rightBracket, .colon]

theorem wordKind_mem_headKinds (text : List Char) : wordKind text ∈ headKinds := by
  unfold wordKind
  split <;> decide

/-- Classifying a line of content queues what opens it, and takes at least as much of the line as that. -/
structure Classified (m m' : Lexer) : Prop where
  mode : m'.mode.inLine = true
  taken : ∃ ts p, Along p (m.queue ts) m' ∧ (∀ t ∈ ts, t.kind ∈ headKinds) ∧
    (p = [] ∧ ts = [] ∨ ts.length + 1 ≤ 2 * p.length)

theorem queue_nil (s : Lexer) : s.queue [] = s := by simp [queue]

theorem classified_refl {s : Lexer} {mode : Mode} (hmode : mode.inLine = true) : Classified s { s with mode := mode } :=
  ⟨hmode, [], [], by rw [queue_nil]; exact (Along.refl s).congr rfl rfl rfl rfl rfl, by simp, .inl ⟨rfl, rfl⟩⟩

theorem speakerTokens_spec (s : Lexer) (head : SpeakerHead) (name : List Char) :
    (∀ t ∈ s.speakerTokens head name, t.kind ∈ headKinds) ∧
      (1 ≤ head.width → (s.speakerTokens head name).length + 1 ≤ 2 * (head.beforeColon + 1)) := by
  have hcolon : TokenKind.colon ∈ headKinds := by decide
  have hopening : TokenKind.leftBracket ∈ headKinds := by decide
  have hclosing : TokenKind.rightBracket ∈ headKinds := by decide
  unfold speakerTokens SpeakerHead.beforeColon
  cases head.emotion with
  | none =>
    refine ⟨by simp [tokenHere, wordKind_mem_headKinds, hcolon], fun hwidth => ?_⟩
    simp only [List.length_append, List.length_cons, List.length_nil]
    omega
  | some raw =>
    refine ⟨by simp [tokenHere, wordKind_mem_headKinds, hcolon, hopening, hclosing], fun hwidth => ?_⟩
    simp only [List.length_append, List.length_cons, List.length_nil]
    omega

theorem trim_length_le (cs : List Char) : (trim cs).length ≤ cs.length := by
  unfold trim strip
  rw [List.length_reverse]
  exact (length_dropWhile_le _ _).trans (by rw [List.length_reverse]; exact length_dropWhile_le _ _)

theorem take_lineLength (cs : List Char) : cs.take (lineLength cs) = cs.takeWhile fun c => !isLineEnd c := by
  have hsplit := List.takeWhile_append_dropWhile (p := fun c => !isLineEnd c) (l := cs)
  calc cs.take (lineLength cs)
    _ = ((cs.takeWhile fun c => !isLineEnd c) ++ cs.dropWhile fun c => !isLineEnd c).take
        (cs.takeWhile fun c => !isLineEnd c).length := by rw [hsplit]; rfl
    _ = cs.takeWhile fun c => !isLineEnd c := List.take_left

/-- A speaker and its colon are a stretch of the line. -/
theorem Along.speaker {s : Lexer} {head : SpeakerHead} (h : speakerHead? (s.rest.take (lineLength s.rest)) = some head) :
    ∃ p, p.length = head.beforeColon + 1 ∧ Along p s (s.advance p.length) := by
  obtain ⟨-, hcolon⟩ := speakerHead?_fits h
  rw [List.length_take] at hcolon
  refine ⟨s.rest.take (head.beforeColon + 1), by rw [List.length_take]; omega, ?_⟩
  refine .advance (List.take_append_drop _ _).symm fun c hc => ?_
  have hle : head.beforeColon + 1 ≤ lineLength s.rest := by omega
  have hline := (List.take_sublist_take_left hle).subset hc
  rw [take_lineLength] at hline
  simpa using List.mem_takeWhile_imp hline

theorem classified_classify (s : Lexer) : Classified s s.classify := by
  unfold classify
  dsimp only
  split
  · next harrow =>
    simp only [Bool.and_eq_true, decide_eq_true_eq] at harrow
    obtain ⟨hfirst, hsecond⟩ := harrow
    cases hrest : s.rest with
    | nil => simp [hrest] at hfirst
    | cons c tail =>
      cases tail with
      | nil => simp [hrest] at hsecond
      | cons d tail =>
        obtain rfl : c = '-' := by simpa [hrest] using hfirst
        have hd : isArrowHead d = true := by simpa [hrest] using hsecond
        have hplain : ∀ c ∈ ['-', d], isLineEnd c = false := by
          simp only [isArrowHead, Bool.or_eq_true, beq_iff_eq] at hd
          rcases hd with rfl | rfl <;> exact List.all_iff_forall_prop.mp (by decide)
        refine ⟨rfl, [s.tokenHere .arrow "->"], ['-', d], ?_, by simp [tokenHere, headKinds], .inr (by simp)⟩
        exact (Along.advance (s := s.queue _) (p := ['-', d]) (q := tail) hrest hplain).congr rfl rfl rfl rfl rfl
  · split
    · exact classified_refl rfl
    · split
      · exact classified_refl rfl
      · unfold queueSpeaker
        have hmute : Classified s (s.enterText false) :=
          ⟨rfl, [], [], by rw [queue_nil]; exact (Along.refl s).congr rfl rfl rfl rfl rfl, by simp, .inl ⟨rfl, rfl⟩⟩
        split
        · exact hmute
        · next head hhead =>
          dsimp only
          split
          · exact hmute
          · next hname =>
            obtain ⟨hwidth, -⟩ := speakerHead?_fits hhead
            have hlength : 1 ≤ head.width := by
              have hne : trim head.name ≠ [] := by simpa using hname
              have := List.length_pos_iff.mpr hne
              have := trim_length_le head.name
              omega
            obtain ⟨hkinds, hroom⟩ := speakerTokens_spec s head (trim head.name)
            obtain ⟨p, htaken, halong⟩ := Along.speaker (s := s.queue (s.speakerTokens head (trim head.name))) hhead
            refine ⟨rfl, _, p, ?_, hkinds, .inr (htaken.symm ▸ hroom hlength)⟩
            rw [htaken] at halong
            exact halong.congr rfl rfl rfl rfl rfl

/-- Which scanner a pass has run, and what has come of it. -/
inductive Ran (s : Lexer) : Pass → Lexer → Prop
  | opened {s' : Lexer} (hmode : s.mode = .lineStart) (hscan : s.startLine = (none, s')) : Ran s .again s'
  | refused {e : LexError} {s' : Lexer} (hmode : s.mode = .lineStart) (hscan : s.startLine = (some e, s')) :
      Ran s (.failed e) s'
  | code {t : Token} {s' : Lexer} (hmode : s.mode = .code ∨ s.mode = .interpolation) (hscan : s.scanCode = (.ok t, s')) :
      Ran s (.token t) s'
  | broken {e : LexError} {s' : Lexer} (hmode : s.mode = .code ∨ s.mode = .interpolation)
      (hscan : s.scanCode = (.error e, s')) : Ran s (.failed e) s'
  | text {t : Token} {s' : Lexer} (hmode : s.mode = .text) (hscan : s.scanText = (some t, s')) : Ran s (.token t) s'
  | dropped {s' : Lexer} (hmode : s.mode = .text) (hscan : s.scanText = (none, s')) : Ran s .again s'
  | tags {t : Token} {s' : Lexer} (hmode : s.mode = .tags) (hscan : s.scanTag = (t, s')) : Ran s (.token t) s'
  | done (hmode : s.mode = .done) : Ran s (.token (s.tokenHere .eof "")) s

section Pass
variable {s s' : Lexer} {t : Token} {r : Pass}

theorem ran_of_pass (h : s.pass = (r, s')) : Ran s r s' := by
  unfold pass at h
  cases hmode : s.mode with
  | lineStart =>
    rw [hmode] at h
    rcases hscan : s.startLine with ⟨_ | e, m⟩ <;> rw [hscan] at h <;> cases h
    · exact .opened hmode hscan
    · exact .refused hmode hscan
  | code | interpolation =>
    rw [hmode] at h
    rcases hscan : s.scanCode with ⟨e | t, m⟩ <;> rw [hscan] at h <;> cases h
    · exact .broken (by simp [hmode]) hscan
    · exact .code (by simp [hmode]) hscan
  | text =>
    rw [hmode] at h
    rcases hscan : s.scanText with ⟨_ | t, m⟩ <;> rw [hscan] at h <;> cases h
    · exact .dropped hmode hscan
    · exact .text hmode hscan
  | tags =>
    rw [hmode] at h
    cases h
    exact .tags hmode rfl
  | done =>
    rw [hmode] at h
    cases h
    exact .done hmode

theorem Ran.pass (h : Ran s r s') : s.pass = (r, s') := by
  unfold Lexer.pass
  cases h with
  | opened hmode hscan | refused hmode hscan | text hmode hscan | dropped hmode hscan | tags hmode hscan =>
    rw [hmode, hscan]
  | code hmode hscan | broken hmode hscan => rcases hmode with hmode | hmode <;> rw [hmode, hscan]
  | done hmode => rw [hmode]

theorem InLine.isEof (h : InLine s t s') : t.isEof = false := by
  cases h with
  | mark _ _ _ hkind =>
    by_contra heof
    have heof : t.kind = .eof := by simpa [Token.isEof] using heof
    rw [heof] at hkind
    cases hkind
  | stop _ _ ht _ =>
    subst ht
    rfl

/-- A pass that leaves the lexer on the line has read a mark of it. -/
theorem InLine.along (h : InLine s t s') (hmode : s'.mode.inLine = true) :
    t.kind.isLayout = false ∧ ∃ p, Along p s s' := by
  cases h with
  | mark _ halong _ hkind => exact ⟨hkind, _, halong⟩
  | stop _ _ _ hs => simp [hs, newline, Mode.inLine] at hmode

theorem pass_token (h : s.pass = (.token t, s')) :
    s.mode.inLine = true ∧ InLine s t s' ∨ s.mode = .done ∧ t = s.tokenHere .eof "" ∧ s' = s := by
  cases ran_of_pass h with
  | code hmode hscan => exact .inl ⟨by rcases hmode with h | h <;> rw [h] <;> rfl, inLine_scanCode hmode hscan⟩
  | text hmode hscan =>
    rcases inLine_scanText hmode hscan with ⟨t, ht, hline⟩ | ⟨hnone, -⟩
    · cases ht
      exact .inl ⟨by rw [hmode]; rfl, hline⟩
    · cases hnone
  | tags hmode hscan =>
    have hline := inLine_scanTag hmode
    rw [hscan] at hline
    exact .inl ⟨by rw [hmode]; rfl, hline⟩
  | done hmode => exact .inr ⟨hmode, rfl, rfl⟩

/-- Only the token that ends the text is not made on a line. -/
theorem inLine_of_pass (h : s.pass = (.token t, s')) (ht : t.isEof = false) : s.mode.inLine = true ∧ InLine s t s' := by
  rcases pass_token h with hline | ⟨-, rfl, -⟩
  · exact hline
  · cases ht

theorem done_of_pass (h : s.pass = (.token t, s')) (ht : t.isEof = true) :
    s.mode = .done ∧ t = s.tokenHere .eof "" ∧ s' = s := by
  rcases pass_token h with ⟨-, hline⟩ | hdone
  · rw [hline.isEof] at ht
    cases ht
  · exact hdone

theorem pass_again (h : s.pass = (.again, s')) :
    s.mode = .lineStart ∧ Opening s s' ∨ s.mode = .text ∧ ∃ p, p ≠ [] ∧ Along p s s' ∧ s'.mode = .text := by
  cases ran_of_pass h with
  | opened hmode hscan => exact .inl ⟨hmode, opening_of_startLine hscan⟩
  | dropped hmode hscan =>
    rcases inLine_scanText hmode hscan with ⟨t, ht, -⟩ | ⟨-, hrun⟩
    · cases ht
    · exact .inr ⟨hmode, hrun⟩

theorem along_of_pass (h : s.pass = (.again, s')) (hmode : s.mode.inLine = true) : ∃ p, Along p s s' := by
  rcases pass_again h with ⟨hstart, -⟩ | ⟨-, p, -, halong, -⟩
  · rw [hstart] at hmode
    cases hmode
  · exact ⟨p, halong⟩

end Pass

end Lexer
end Parley
