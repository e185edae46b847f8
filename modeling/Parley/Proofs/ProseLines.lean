import Parley.Proofs.EscapedProse
import Parley.Proofs.Joining
import Parley.Proofs.RoundTrip
import Parley.Proofs.SpelledBlocks

/-! # Lines of prose

A spoken line and a choice are written from a speech, segments of text and tags, with every mark escaped, and read back
as they were (`prose_readBack`). The line is followed through the modes of the lexer: the speaker is queued at the start
of the line, each literal is one stretch of text, a hole leaves the text for code and comes back, and a hash leaves it
for the tags. What stands in front of a hole is kept as it is; in front of a tag or the end of the line, white space is
given up. -/

namespace Parley

/-! ### How prose is written -/

def Segment.prose : Segment → List Char
  | .literal text _ => escapeMarks text.toList
  | .hole e _ => '\x7b' :: (e.source.toList ++ ['\x7d'])
  | .stray e => e.source.toList

def proseOf (text : List Segment) : List Char := text.flatMap Segment.prose

/-- A blank and a hash before every tag. -/
def tagsOf (tags : List String) : List Char := tags.flatMap fun tag => ' ' :: '#' :: tag.toList

/-- A speaker, with the emotion in brackets, up to the colon. -/
def Speech.prose (s : Speech) : List Char :=
  escapeMarks s.speaker.toList ++ s.emotion.elim [] fun emotion => '[' :: (emotion.toList ++ [']'])

def dialogueSource (speech : Speech) (text : List Segment) (tags : List String) : String :=
  String.ofList (speech.prose ++ ':' :: ' ' :: (proseOf text ++ tagsOf tags))

def choiceSource (text : List Segment) : String := String.ofList ('-' :: '>' :: ' ' :: proseOf text)

/-! ### What can be written as prose -/

/-- Text that is not empty and stays on the line, or the name of a variable in braces. -/
inductive Segment.Prosaic : Segment → Prop
  | literal {text : String} {pos : Pos} (hne : text ≠ "") (hline : ∀ c ∈ text.toList, isLineEnd c = false) :
      Segment.Prosaic (.literal text pos)
  | hole {name : String} {pos pos' : Pos} (hname : isIdentifier name.toList = true) :
      Segment.Prosaic (.hole (.reference name pos) pos')

def Segment.isLiteral : Segment → Bool
  | .literal .. => true
  | .hole .. | .stray _ => false

/-- Segments that do not run into each other, with no white space that the end of the text would take. -/
structure Running (text : List Segment) : Prop where
  segments : ∀ segment ∈ text, segment.Prosaic
  apart : ∀ before a b after, text = before ++ a :: b :: after → (a.isLiteral && b.isLiteral) = false
  closing : ∀ value pos, text.getLast? = some (.literal value pos) → ∀ c ∈ value.toList.getLast?, isSpace c = false

/-- Text of a line: it shows something and does not open with a blank. -/
structure Prose (text : List Segment) : Prop extends Running text where
  lively : isBlankText text = false
  opening : ∀ value pos, text.head? = some (.literal value pos) → ∀ c ∈ value.toList.head?, isBlank c = false

/-- A speaker whose line opens neither a choice nor a jump, a comment or a statement. -/
structure Speech.Prosaic (s : Speech) : Prop where
  named : s.speaker ≠ ""
  trimmed : trim s.speaker.toList = s.speaker.toList
  line : ∀ c ∈ s.speaker.toList, isLineEnd c = false
  arrow : ∀ first ∈ ['-', '='], ∀ second, isArrowHead second = true → ∀ rest, s.speaker.toList ≠ first :: second :: rest
  comment : ∀ rest, s.speaker.toList ≠ '/' :: '/' :: rest
  statement : ∀ word, isStatementWord word = true → ∀ c, isBlank c = true → ∀ rest,
    s.speaker.toList ≠ word.toList ++ c :: rest
  emotion : ∀ emotion ∈ s.emotion, emotion ≠ "" ∧ trim emotion.toList = emotion.toList ∧
    ∀ c ∈ emotion.toList, c ≠ ']' ∧ isLineEnd c = false

structure Taggable (tag : String) : Prop where
  named : tag ≠ ""
  inner : ∀ c ∈ tag.toList, isBlank c = false ∧ isLineEnd c = false ∧ c ≠ ',' ∧ c ≠ '#'

section Written
variable {segment a b : Segment} {text : List Segment}

theorem Running.tail (h : Running (a :: text)) : Running text where
  segments segment hmem := h.segments segment (.tail _ hmem)
  apart before b c after heq := h.apart (a :: before) b c after (by rw [heq]; rfl)
  closing value pos hlast := h.closing value pos (by
    obtain ⟨b, rest, rfl⟩ : ∃ b rest, text = b :: rest := List.exists_cons_of_ne_nil (by rintro rfl; cases hlast)
    simpa [List.getLast?_cons_cons] using hlast)

/-- After a literal the text is over or goes on with a hole. -/
theorem Running.after_literal {value : String} {pos : Pos} (h : Running (.literal value pos :: text)) :
    text = [] ∨ ∃ e pos' rest, text = .hole e pos' :: rest := by
  match text with
  | [] => exact .inl rfl
  | b :: rest =>
    have hb : b.isLiteral = false := by simpa [Segment.isLiteral] using h.apart [] _ b rest rfl
    have hprosaic := h.segments b (by simp)
    cases hprosaic with
    | literal => cases hb
    | hole => exact .inr ⟨_, _, _, rfl⟩

theorem proseOf_cons (segment : Segment) (text : List Segment) : proseOf (segment :: text) = segment.prose ++ proseOf text :=
  rfl

theorem tagsOf_cons (tag : String) (tags : List String) : tagsOf (tag :: tags) = ' ' :: '#' :: (tag.toList ++ tagsOf tags) :=
  rfl

end Written

section Speech
variable {c : Char} {cs more : List Char} {speech : Speech}

/-- Escaped prose opens as the prose does, unless there is a mark. -/
theorem head_of_escapeMarks {more : List Char} (hmore : ∀ c ∈ more.head?, isEscapable c = true)
    (h : c ∈ (escapeMarks cs ++ more).head?) : isEscapable c = true ∨ cs.head? = some c := by
  cases cs with
  | nil => exact .inl (hmore c h)
  | cons d cs =>
    rw [escapeMarks_cons] at h
    split at h
    · obtain rfl : '\\' = c := by simpa using h
      exact .inl (by decide)
    · exact .inr (by simpa using h)

/-- A word at the head of escaped prose is a word of the prose. -/
theorem word_escapeMarks {more : List Char} (hmore : ∀ c ∈ more.head?, isEscapable c = true) :
    (escapeMarks cs ++ more).takeWhile isWordPart = cs.takeWhile isWordPart ∧
      (escapeMarks cs ++ more).dropWhile isWordPart = escapeMarks (cs.dropWhile isWordPart) ++ more := by
  have hslash : isWordPart '\\' = false := by decide
  induction cs with
  | nil => exact @takeWhile_stretch [] _ _ (by simp) fun c hc => (plain_of_isEscapable (hmore c hc)).2.2.1
  | cons c cs ih =>
    by_cases hc : isEscapable c = true
    · simp [escapeMarks_cons, hc, hslash, (plain_of_isEscapable hc).2.2.1]
    · by_cases hword : isWordPart c = true
      · simpa [escapeMarks_cons, hc, hword] using ih
      · simp [escapeMarks_cons, hc, hword]

theorem head_of_trim (h : trim cs = cs) : ∀ c ∈ cs.head?, isSpace c = false := by
  intro c hc
  obtain ⟨tail, rfl⟩ := List.head?_eq_some_iff.1 hc
  by_contra hspace
  have hspace : isSpace c = true := by simpa using hspace
  have hlength := congrArg List.length h
  have hle := Lexer.length_dropWhile_le isSpace tail
  have hle' := Lexer.length_dropWhile_le isSpace (tail.dropWhile isSpace).reverse
  simp only [trim, strip, List.dropWhile_cons, hspace, if_true, List.length_reverse, List.length_cons] at hlength hle'
  omega

theorem speakerHead?_prose (hspeech : speech.Prosaic) (tail : List Char) : speakerHead? (speech.prose ++ ':' :: tail) =
    some ⟨speech.speaker.toList, (escapeMarks speech.speaker.toList).length, speech.emotion.map String.toList, 0⟩ := by
  obtain ⟨speaker, emotion⟩ := speech
  cases emotion with
  | none => simp [Speech.prose, speakerHead?_escapeMarks, speakerHead?_colon]
  | some emotion =>
    have hinside : ']' ∉ emotion.toList := fun hmem => ((hspeech.emotion emotion rfl).2.2 ']' hmem).1 rfl
    simp [Speech.prose, speakerHead?_escapeMarks, speakerHead?_emotion hinside]

theorem Speech.Prosaic.inLine (hspeech : speech.Prosaic) : ∀ c ∈ speech.prose, isLineEnd c = false := by
  obtain ⟨speaker, emotion⟩ := speech
  have hspeaker := inLine_escapeMarks hspeech.line
  cases emotion with
  | none => simpa [Speech.prose] using hspeaker
  | some emotion =>
    have hinside (c : Char) (hc : c ∈ emotion.toList) : isLineEnd c = false := ((hspeech.emotion emotion rfl).2.2 c hc).2
    have hbrackets : isLineEnd '[' = false ∧ isLineEnd ']' = false := by decide
    simpa [Speech.prose, or_imp, forall_and, hbrackets] using ⟨hspeaker, hinside⟩

theorem Speech.Spelled.isEof {us : List Token} (h : speech.Spelled us) : ∀ u ∈ us, u.isEof = false := by
  cases h with
  | plain hspeaker hcolon => rcases hspeaker with h | h <;> simp [Token.isEof, h, hcolon]
  | feeling hspeaker hopening hemotion hclosing hcolon =>
    rcases hspeaker with h | h <;> rcases hemotion with h' | h' <;> simp [Token.isEof, h, h', hopening, hclosing, hcolon]

end Speech

namespace Lexer
variable {s s' s'' : Lexer} {mode : Mode} {inChoice : Bool} {cs rest : List Char} {ts us : List Token} {t : Token} {c : Char}

/-- On the way to the second state the lexer yields these tokens. -/
def Gives (s : Lexer) (ts : List Token) (s' : Lexer) : Prop := ∀ out, Emits s' out → Emits s (ts ++ out)

theorem Gives.refl (s : Lexer) : s.Gives [] s := fun _ => id

theorem Gives.trans (h : s.Gives ts s') (h' : s'.Gives us s'') : s.Gives (ts ++ us) s'' := fun out hout => by
  rw [List.append_assoc]
  exact h _ (h' out hout)

/-- The lexer stands inside a line below no block, in this mode and before this text. -/
structure Inside (s : Lexer) (mode : Mode) (inChoice : Bool) (text : List Char) : Prop where
  mode : s.mode = mode
  inChoice : s.inChoice = inChoice
  textStart : s.textStart = false
  pending : s.pending = []
  levels : s.levels = []
  rest : s.rest = text

theorem Inside.token (hs : s.Inside mode inChoice cs) (hpass : s.pass = (.token t, s')) (ht : t.kind ≠ .eof) :
    s.Gives [t] s' :=
  fun _ hout => .token hs.pending hpass (by simpa [Token.isEof] using ht) hout

/-! ### The end of the line -/

theorem suffix_consumeNewline (s : Lexer) : s.consumeNewline.rest <:+ s.rest := by
  unfold consumeNewline
  split
  · next hrest => exact hrest ▸ ⟨['\r', '\n'], rfl⟩
  · next hrest =>
    split
    · exact hrest ▸ List.suffix_cons _ _
    · exact List.suffix_refl _
  · exact List.suffix_refl _

/-- A line that is not indented. -/
theorem startLine_margin (hrest : s.rest = c :: rest) (hblank : isBlank c = false) :
    s.startLine = s.openLine 0 (lineHead (c :: rest)) := by
  have hskip : s.skipBlanks = s := skipBlanks_eq (by simpa [hrest] using hblank)
  rw [startLine_eq (by simp [hrest]), hskip, hrest, List.takeWhile_cons_of_neg (by simp [hblank])]
  rfl

theorem openLine_content (hlevels : s.levels = []) : s.openLine 0 .content = (none, s.classify) := by
  simp [openLine, openContent, indentTo_margin hlevels]

/-- Where there are line ends only, the text is over. -/
theorem emits_ending (hs : s.AtLine rest) (hrest : ∀ c ∈ rest, isLineEnd c = true) :
    ∃ eof, eof.kind = .eof ∧ Emits s [eof] := by
  generalize hn : rest.length = n
  induction n using Nat.strongRecOn generalizing s rest with
  | ind n ih =>
    cases rest with
    | nil => exact ⟨_, rfl, emits_end hs⟩
    | cons c tail =>
      have hc : isLineEnd c = true := hrest c (by simp)
      obtain ⟨hlevels, hpending, hmode⟩ := consumeNewline_eq s
      have hnext : s.consumeNewline.AtLine s.consumeNewline.rest :=
        ⟨hmode.trans hs.mode, hpending.trans hs.pending, hlevels.trans hs.levels, rfl⟩
      have hlt : s.consumeNewline.rest.length < n := by
        have := length_consumeNewline_lt hs.rest hc
        rw [hs.rest, hn] at this
        exact this
      obtain ⟨eof, heof, hemits⟩ := ih _ hlt hnext
        (fun c hc => hrest c (hs.rest ▸ (suffix_consumeNewline s).subset hc)) rfl
      have hstart : s.startLine = (none, s.consumeNewline) := by
        rw [startLine_margin hs.rest (isBlank_of_isLineEnd hc), lineHead, if_pos hc]
        rfl
      exact ⟨eof, heof, .again hs.pending (Ran.pass (.opened hs.mode hstart)) hemits⟩

/-! ### What comes next in a line -/

theorem Inside.scanText (hs : s.Inside .text inChoice cs) : s.scanText = s.readText (textHead inChoice cs.head?) := by
  rw [scanText_eq, begun_eq_self hs.textStart, hs.inChoice, hs.rest]

theorem Inside.scanTag (hs : s.Inside .tags inChoice cs) (hblank : ∀ c ∈ cs.head?, isBlank c = false) :
    s.scanTag = s.readTag (tagHead cs) := by
  rw [scanTag_eq, skipBlanks_eq (by rwa [hs.rest]), hs.rest]

/-- The end of a line of text or tags, with nothing after it. -/
theorem Inside.lineEnd (hs : s.Inside mode inChoice rest) (hmode : mode = .text ∨ mode = .tags)
    (hrest : ∀ c ∈ rest, isLineEnd c = true) :
    ∃ lineEnd eof, lineEnd.kind = .newline ∧ eof.kind = .eof ∧ Emits s [lineEnd, eof] := by
  obtain ⟨hlevels, hpending, -⟩ := consumeNewline_eq s
  have hnext : s.newline.2.AtLine s.consumeNewline.rest :=
    ⟨rfl, hpending.trans hs.pending, hlevels.trans hs.levels, rfl⟩
  obtain ⟨eof, heof, hemits⟩ := emits_ending hnext fun c hc => hrest c (hs.rest ▸ (suffix_consumeNewline s).subset hc)
  have hover : ∀ c ∈ rest.head?, isLineEnd c = true := fun c hc => hrest c (List.mem_of_mem_head? hc)
  have hpass : s.pass = (.token s.newline.1, s.newline.2) := by
    rcases hmode with rfl | rfl
    · have hscan : s.scanText = (some s.newline.1, s.newline.2) := by
        rw [hs.scanText, textHead_eq_ending.mpr hover]
        rfl
      exact Ran.pass (.text hs.mode hscan)
    · have hscan : s.scanTag = s.newline := by
        rw [hs.scanTag fun c hc => isBlank_of_isLineEnd (hover c hc), tagHead_eq_none.mpr hover]
        rfl
      exact Ran.pass (.tags hs.mode hscan)
  exact ⟨s.newline.1, eof, rfl, heof, hs.token hpass (by simp [newline, tokenHere]) _ hemits⟩

/-! ### Tags -/

theorem Inside.advance (hs : s.Inside mode inChoice (cs ++ rest)) : (s.advance cs.length).Inside mode inChoice rest :=
  ⟨hs.mode, hs.inChoice, hs.textStart, hs.pending, hs.levels, by simp [hs.rest]⟩

/-- The hash of a tag takes the blank before it along. -/
theorem Inside.tagHash (hs : s.Inside .tags inChoice (' ' :: '#' :: rest)) :
    ∃ hash s', hash.kind = .hash ∧ s'.Inside .tags inChoice rest ∧ s.Gives [hash] s' := by
  have hskip : s.skipBlanks = s.advance 1 := by
    simp [skipBlanks, Lexer.advance, hs.rest, isBlank]
  have hscan : s.scanTag = ((s.advance 1).tokenHere .hash "#", (s.advance 1).advance 1) := by
    have htail : (s.advance 1).rest = '#' :: rest := by simp [hs.rest]
    rw [scanTag_eq, hskip, htail]
    rfl
  have hpass := Ran.pass (.tags hs.mode hscan)
  have hs₁ : (s.advance 1).Inside .tags inChoice ('#' :: rest) := @Inside.advance _ _ _ [' '] _ hs
  have hs₂ : ((s.advance 1).advance 1).Inside .tags inChoice rest := @Inside.advance _ _ _ ['#'] _ hs₁
  exact ⟨_, _, rfl, hs₂, hs.token hpass (by simp [tokenHere])⟩

theorem Inside.tag {tag : String} (hs : s.Inside .tags inChoice (tag.toList ++ rest)) (htag : Taggable tag)
    (hnext : ∀ c ∈ rest.head?, isLineEnd c = true ∨ isBlank c = true) :
    ∃ word s', word.value = tag ∧ (word.kind = .text ∨ word.kind = .identifier) ∧ s'.Inside .tags inChoice rest ∧
      s.Gives [word] s' := by
  obtain ⟨c, tail, hcons⟩ : ∃ c tail, tag.toList = c :: tail :=
    List.exists_cons_of_ne_nil (by simpa using htag.named)
  obtain ⟨hblank, hline, hcomma, hhash⟩ := htag.inner c (by simp [hcons])
  have hvalue : (tag.toList ++ rest).takeWhile isTagChar = tag.toList :=
    (takeWhile_stretch (fun c hc => by simp [isTagChar, htag.inner c hc]) fun c hc => by
      rcases hnext c hc with h | h <;> simp [isTagChar, h]).1
  have hhead : tagHead (tag.toList ++ rest) = some (wordKind tag.toList, tag.toList) := by
    rw [hcons, List.cons_append] at hvalue ⊢
    simp [tagHead, hline, hcomma, hhash, hvalue]
  have hscan : s.scanTag = (s.tokenHere (wordKind tag.toList) tag, s.advance tag.toList.length) := by
    rw [hs.scanTag (by simpa [hcons] using hblank), hhead]
    simp [readTag, take]
  have hpass := Ran.pass (.tags hs.mode hscan)
  refine ⟨_, _, rfl, kind_wordKind tag.toList, hs.advance, hs.token hpass ?_⟩
  rcases kind_wordKind tag.toList with h | h <;> simp [tokenHere, h]

theorem head?_tagsOf {tags : List String} (hrest : ∀ c ∈ rest.head?, isLineEnd c = true) :
    ∀ c ∈ (tagsOf tags ++ rest).head?, isLineEnd c = true ∨ isBlank c = true := by
  cases tags with
  | nil => exact fun c hc => .inl (hrest c hc)
  | cons tag tags => simp [tagsOf_cons, isBlank]

/-- The tags behind the first, with their hashes. -/
theorem Inside.tags {tags : List String} (htags : ∀ tag ∈ tags, Taggable tag) (hrest : ∀ c ∈ rest.head?, isLineEnd c = true)
    (hs : s.Inside .tags inChoice (tagsOf tags ++ rest)) :
    ∃ vs s', SpelledTags tags vs ∧ s'.Inside .tags inChoice rest ∧ s.Gives vs s' := by
  induction tags generalizing s with
  | nil => exact ⟨[], s, .nil, hs, .refl s⟩
  | cons tag tags ih =>
    simp only [List.mem_cons, forall_eq_or_imp] at htags
    rw [tagsOf_cons, List.cons_append, List.cons_append, List.append_assoc] at hs
    obtain ⟨hash, s₁, hhash, hs₁, h₁⟩ := hs.tagHash
    obtain ⟨word, s₂, rfl, hword, hs₂, h₂⟩ := hs₁.tag htags.1 (head?_tagsOf hrest)
    obtain ⟨vs, s₃, hvs, hs₃, h₃⟩ := ih htags.2 hs₂
    exact ⟨hash :: word :: vs, s₃, .cons hhash hword hvs, hs₃, h₁.trans (h₂.trans h₃)⟩

/-! ### Text -/

theorem escapable_of_textStops (h : textStops inChoice c = true) : isEscapable c = true ∨ isLineEnd c = true := by
  simp only [textStops, Bool.or_eq_true, Bool.and_eq_true, beq_iff_eq] at h
  rcases h with ((h | rfl) | rfl) | ⟨-, rfl⟩
  · exact .inr h
  all_goals exact .inl (by decide)

theorem textStops_backslash (inChoice : Bool) : textStops inChoice '\\' = false := by
  simp [textStops, isLineEnd]

/-- Escaped prose is text from its first character on. -/
theorem textStops_head (hcs : ∀ c ∈ cs, isLineEnd c = false) (hc : c ∈ (escapeMarks cs).head?) :
    textStops inChoice c = false := by
  rcases head_escapeMarks hc with rfl | ⟨hplain, hmem⟩
  · exact textStops_backslash inChoice
  · by_contra hstop
    rcases escapable_of_textStops (by simpa using hstop) with h | h
    · simp [h] at hplain
    · simp [hcs c (List.mem_of_mem_head? hmem)] at h

theorem Inside.moveTo (hs : s.Inside mode inChoice cs) (rest : List Char) : (s.moveTo rest).Inside mode inChoice rest :=
  ⟨hs.mode, hs.inChoice, hs.textStart, hs.pending, hs.levels, rfl⟩

theorem Inside.scanRun {run : List Char} (hs : s.Inside .text inChoice cs)
    (hfirst : ∃ c ∈ cs.head?, textStops inChoice c = false) (hrun : textRun (textStops inChoice) cs = (run, rest)) :
    s.scanText =
      let value := if rest.head? = some '\x7b' then run else trimEnd run
      (if value.isEmpty then none else some (s.tokenHere .text (String.ofList value)), s.moveTo rest) := by
  obtain ⟨c, hc, hstop⟩ := hfirst
  obtain ⟨tail, rfl⟩ := List.head?_eq_some_iff.1 hc
  rw [hs.scanText, List.head?_cons, textHead_eq_run.mpr hstop, readText, hs.inChoice, hs.rest, hrun]
  rfl

theorem head?_ne_brace (hrest : ∀ c ∈ rest.head?, isLineEnd c = true ∨ c = '#') : rest.head? ≠ some '\x7b' := fun h => by
  rcases hrest _ h with h | h
  · simp [isLineEnd] at h
  · simp at h

theorem textRun_gap {gap : List Char} (hgap : gap = [] ∨ gap = [' ']) (hrest : ∀ c ∈ rest.head?, isLineEnd c = true ∨ c = '#') :
    textRun (textStops inChoice) (gap ++ rest) = (gap, rest) := by
  have hstop : ∀ c ∈ rest.head?, textStops inChoice c = true := fun c hc => by
    rcases hrest c hc with h | rfl
    · simp [textStops, h]
    · simp [textStops]
  have hblank : textStops inChoice ' ' = false := by simp [textStops, isLineEnd]
  rcases hgap with rfl | rfl
  · exact textRun_stop hstop
  · rw [List.singleton_append, textRun_cons hblank fun h => absurd h (by decide), textRun_stop hstop]

/-- White space before a tag or the end of the line is passed over. -/
theorem Inside.gap {gap : List Char} (hs : s.Inside .text inChoice (gap ++ rest)) (hgap : gap = [] ∨ gap = [' '])
    (hrest : ∀ c ∈ rest.head?, isLineEnd c = true ∨ c = '#') :
    ∃ s', s'.Inside .text inChoice rest ∧ s.Gives [] s' := by
  rcases hgap with rfl | rfl
  · exact ⟨s, hs, .refl s⟩
  · have hblank : textStops inChoice ' ' = false := by simp [textStops, isLineEnd]
    have htrim : trimEnd [' '] = [] := by decide
    have hscan : s.scanText = (none, s.moveTo rest) := by
      simp [hs.scanRun ⟨' ', rfl, hblank⟩ (textRun_gap (.inr rfl) hrest), head?_ne_brace hrest, htrim]
    exact ⟨_, hs.moveTo rest, fun out hout => .again hs.pending (Ran.pass (.dropped hs.mode hscan)) hout⟩

/-- A literal, the white space after it kept or given up so that only its own text is left, is one token. -/
theorem Inside.literal {value : String} {tail gap : List Char} (hs : s.Inside .text inChoice (escapeMarks value.toList ++ tail))
    (hne : value ≠ "") (hline : ∀ c ∈ value.toList, isLineEnd c = false)
    (hrun : textRun (textStops inChoice) tail = (gap, rest))
    (hvalue : (if rest.head? = some '\x7b' then value.toList ++ gap else trimEnd (value.toList ++ gap)) = value.toList) :
    ∃ t s', t.kind = .text ∧ t.value = value ∧ s'.Inside .text inChoice rest ∧ s.Gives [t] s' := by
  have hwhole : textRun (textStops inChoice) (escapeMarks value.toList ++ tail) = (value.toList ++ gap, rest) := by
    rw [textRun_escapeMarks (textStops_backslash inChoice) (fun c => escapable_of_textStops) hline, hrun]
  have hfirst : ∃ c ∈ (escapeMarks value.toList ++ tail).head?, textStops inChoice c = false := by
    obtain ⟨c, more, hcons⟩ : ∃ c more, value.toList = c :: more := List.exists_cons_of_ne_nil (by simpa using hne)
    obtain ⟨d, hd⟩ : ∃ d, d ∈ (escapeMarks value.toList).head? := by
      rw [hcons, escapeMarks_cons]
      split
      · exact ⟨'\\', rfl⟩
      · exact ⟨c, rfl⟩
    refine ⟨d, ?_, textStops_head hline hd⟩
    rw [List.head?_append, Option.mem_def.1 hd]
    rfl
  have hnot : value.toList.isEmpty = false := by simpa using hne
  have hscan : s.scanText = (some (s.tokenHere .text value), s.moveTo rest) := by
    simp [hs.scanRun hfirst hwhole, hvalue, hnot]
  exact ⟨_, _, rfl, rfl, hs.moveTo rest, hs.token (Ran.pass (.text hs.mode hscan)) (by simp [tokenHere])⟩

/-- In front of a hole a literal is kept with all its white space. -/
theorem Inside.literal_hole {value : String} (hs : s.Inside .text inChoice (escapeMarks value.toList ++ '\x7b' :: rest))
    (hne : value ≠ "") (hline : ∀ c ∈ value.toList, isLineEnd c = false) :
    ∃ t s', t.kind = .text ∧ t.value = value ∧ s'.Inside .text inChoice ('\x7b' :: rest) ∧ s.Gives [t] s' := by
  have hrun : textRun (textStops inChoice) ('\x7b' :: rest) = ([], '\x7b' :: rest) := textRun_stop (by simp [textStops])
  exact hs.literal hne hline hrun (by simp)

theorem trimEnd_gap {gap : List Char} (hcs : ∀ c ∈ cs.getLast?, isSpace c = false) (hgap : gap = [] ∨ gap = [' ']) :
    trimEnd (cs ++ gap) = cs := by
  have hkept : cs.reverse.dropWhile isSpace = cs.reverse := by
    cases hcons : cs.reverse with
    | nil => rfl
    | cons c more =>
      have hc : isSpace c = false := hcs c (by rw [← List.head?_reverse, hcons]; rfl)
      simp [hc]
  have hspace : isSpace ' ' = true := by decide
  rcases hgap with rfl | rfl <;> simp [trimEnd, hkept, hspace]

/-- At the end of the text a literal that does not end in white space is kept, without the blank before a tag. -/
theorem Inside.literal_end {value : String} {gap : List Char}
    (hs : s.Inside .text inChoice (escapeMarks value.toList ++ (gap ++ rest))) (hne : value ≠ "")
    (hline : ∀ c ∈ value.toList, isLineEnd c = false) (hlast : ∀ c ∈ value.toList.getLast?, isSpace c = false)
    (hgap : gap = [] ∨ gap = [' ']) (hrest : ∀ c ∈ rest.head?, isLineEnd c = true ∨ c = '#') :
    ∃ t s', t.kind = .text ∧ t.value = value ∧ s'.Inside .text inChoice rest ∧ s.Gives [t] s' := by
  refine hs.literal hne hline (textRun_gap hgap hrest) ?_
  rw [if_neg (head?_ne_brace hrest), trimEnd_gap hlast hgap]

/-- A mark leaves the text for what comes behind it. -/
theorem Inside.mark {kind : TokenKind} {value : String} (hs : s.Inside .text inChoice (c :: rest))
    (hhead : textHead inChoice (some c) = .mark kind value mode) :
    ∃ t s', t.kind = kind ∧ s'.Inside mode inChoice rest ∧ s.Gives [t] s' := by
  have hscan : s.scanText = (some (s.tokenHere kind value), { s.advance 1 with mode := mode }) := by
    rw [hs.scanText, List.head?_cons, hhead]
    rfl
  have heof : kind ≠ .eof := by
    obtain ⟨rfl | rfl | ⟨rfl, -⟩, -⟩ := textHead_mark hhead <;> decide
  exact ⟨_, { s.advance 1 with mode := mode }, rfl,
    ⟨rfl, hs.inChoice, hs.textStart, hs.pending, hs.levels, by simp [hs.rest]⟩, hs.token (Ran.pass (.text hs.mode hscan)) heof⟩

theorem Inside.close (hs : s.Inside .interpolation inChoice ('\x7d' :: rest)) :
    ∃ closing s', closing.kind = .rightBrace ∧ s'.Inside .text inChoice rest ∧ s.Gives [closing] s' := by
  have hhead : codeHead ('\x7d' :: rest) = .token .rightBrace "\x7d" ['\x7d'] := rfl
  have hscan : s.scanCode = (.ok (s.tokenHere .rightBrace "\x7d"), { s.advance 1 with mode := .text }) := by
    rw [scanCode_eq, skipBlanks_eq (by simp [hs.rest, isBlank]), hs.rest, hhead, readCode, hs.mode]
    rfl
  exact ⟨_, { s.advance 1 with mode := .text }, rfl, ⟨rfl, hs.inChoice, hs.textStart, hs.pending, hs.levels, by simp [hs.rest]⟩,
    hs.token (Ran.pass (.code (.inr hs.mode) hscan)) (by simp [tokenHere])⟩

/-- A name in braces: the lexer leaves the text for code and comes back. -/
theorem Inside.hole {name : String} {pos pos' : Pos} (hname : isIdentifier name.toList = true)
    (hs : s.Inside .text inChoice ((Segment.hole (.reference name pos) pos').prose ++ rest)) :
    ∃ opening closing us s', opening.kind = .leftBrace ∧ closing.kind = .rightBrace ∧ (Expr.reference name pos).Spelled us ∧
      s'.Inside .text inChoice rest ∧ s.Gives (opening :: (us ++ [closing])) s' := by
  have hsource : (Segment.hole (.reference name pos) pos').prose ++ rest =
      '\x7b' :: (('$' :: name.toList) ++ '\x7d' :: rest) := by
    simp [Segment.prose, Expr.source]
  rw [hsource] at hs
  obtain ⟨opening, s₁, hopening, hs₁, h₁⟩ := hs.mark rfl
  have hhead : codeHead (('$' :: name.toList) ++ '\x7d' :: rest) = .token .reference name ('$' :: name.toList) := by
    simpa using codeHead_variable hname (by simp [isWordPart, isWordStart, isIdeograph])
  have hscan := scanCode_token hs₁.rest (by simp [isBlank]) hhead (by decide)
  have hpass := Ran.pass (.code (.inr hs₁.mode) hscan)
  obtain ⟨closing, s₃, hclosing, hs₃, h₃⟩ := hs₁.advance.close
  have h₂ := hs₁.token hpass (by simp [tokenHere])
  exact ⟨opening, closing, [s₁.tokenHere .reference name], s₃, hopening, hclosing,
    Expr.spelled_reference name s₁.line s₁.column, hs₃, h₁.trans (h₂.trans h₃)⟩

/-- The segments one by one. Of the white space after them a literal at the end takes nothing, and a hole leaves all. -/
theorem Inside.text {text : List Segment} {gap : List Char} (htext : Running text) (hgap : gap = [] ∨ gap = [' '])
    (hrest : ∀ c ∈ rest.head?, isLineEnd c = true ∨ c = '#')
    (hs : s.Inside .text inChoice (proseOf text ++ (gap ++ rest))) :
    ∃ us s', SpelledText text us ∧ s'.Inside .text inChoice rest ∧ s.Gives us s' := by
  induction text generalizing s with
  | nil =>
    have hs : s.Inside .text inChoice (gap ++ rest) := hs
    obtain ⟨s', hs', h⟩ := hs.gap hgap hrest
    exact ⟨[], s', .nil, hs', h⟩
  | cons segment text ih =>
    rw [proseOf_cons, List.append_assoc] at hs
    cases htext.segments segment List.mem_cons_self with
    | @literal value pos hne hline =>
      rcases htext.after_literal with rfl | ⟨e, pos', more, rfl⟩
      · have hs : s.Inside .text inChoice (escapeMarks value.toList ++ (gap ++ rest)) := hs
        obtain ⟨t, s', ht, rfl, hs', h⟩ := hs.literal_end hne hline (htext.closing value pos rfl) hgap hrest
        exact ⟨[t], s', .literal ht .nil, hs', h⟩
      · obtain ⟨t, s₁, ht, rfl, hs₁, h₁⟩ := hs.literal_hole hne hline
        obtain ⟨us, s', hus, hs', h⟩ := ih htext.tail hs₁
        exact ⟨t :: us, s', .literal ht hus, hs', h₁.trans h⟩
    | hole hname =>
      obtain ⟨opening, closing, ws, s₁, hopening, hclosing, hws, hs₁, h₁⟩ := hs.hole hname
      obtain ⟨us, s', hus, hs', h⟩ := ih htext.tail hs₁
      refine ⟨opening :: (ws ++ closing :: us), s', .hole hopening hws hclosing hus, hs', ?_⟩
      simpa using h₁.trans h

/-- A text with its tags, up to the end of the line. -/
theorem Inside.body {text : List Segment} {tags : List String} (htext : Running text) (htags : ∀ tag ∈ tags, Taggable tag)
    (hrest : ∀ c ∈ rest, isLineEnd c = true) (hs : s.Inside .text inChoice (proseOf text ++ (tagsOf tags ++ rest))) :
    ∃ us eof, SpelledBody text tags us ∧ eof.kind = .eof ∧ Emits s (us ++ [eof]) := by
  have hhead : ∀ c ∈ rest.head?, isLineEnd c = true := fun c hc => hrest c (List.mem_of_mem_head? hc)
  cases tags with
  | nil =>
    obtain ⟨us, s₁, hus, hs₁, h₁⟩ := Inside.text htext (.inl rfl) (fun c hc => .inl (hhead c hc)) hs
    obtain ⟨lineEnd, eof, hend, heof, hout⟩ := hs₁.lineEnd (.inl rfl) hrest
    exact ⟨_, eof, .mk hus .nil hend, heof, by simpa using h₁ _ hout⟩
  | cons tag tags =>
    simp only [List.mem_cons, forall_eq_or_imp] at htags
    have hsource : tagsOf (tag :: tags) ++ rest = [' '] ++ '#' :: (tag.toList ++ (tagsOf tags ++ rest)) := by
      simp [tagsOf_cons]
    rw [hsource] at hs
    obtain ⟨us, s₁, hus, hs₁, h₁⟩ := Inside.text htext (.inr rfl) (fun c hc => .inr (by simpa using hc.symm)) hs
    obtain ⟨hash, s₂, hhash, hs₂, h₂⟩ := hs₁.mark rfl
    obtain ⟨word, s₃, rfl, hword, hs₃, h₃⟩ := hs₂.tag htags.1 (head?_tagsOf hhead)
    obtain ⟨vs, s₄, hvs, hs₄, h₄⟩ := Inside.tags htags.2 hhead hs₃
    obtain ⟨lineEnd, eof, hend, heof, hout⟩ := hs₄.lineEnd (.inr rfl) hrest
    have hgives := h₁.trans (h₂.trans (h₃.trans h₄))
    exact ⟨_, eof, .mk hus (.cons hhash hword hvs) hend, heof, by simpa using hgives _ hout⟩

/-! ### The start of the line -/

/-- The blank in front of the text is passed over with it. -/
theorem gives_inside (hmode : s.mode = .text) (hstart : s.textStart = true) (hpending : s.pending = []) (hlevels : s.levels = [])
    (hrest : s.rest = ' ' :: rest) (hnext : ∀ c ∈ rest.head?, isBlank c = false) :
    ∃ s', s'.Inside .text s.inChoice rest ∧ s.Gives [] s' := by
  have hskip : s.skipBlanks.rest = rest := by
    have hdrop : rest.dropWhile isBlank = rest := (@takeWhile_stretch [] _ _ (by simp) hnext).2
    simpa [skipBlanks, hrest, isBlank] using hdrop
  have hbegun : s.begun = { s.skipBlanks with textStart := false } := if_pos hstart
  have hpass : s.pass = s.begun.pass := by
    simp only [pass, mode_begun, hmode, scanText_eq, begun_begun]
  rw [hbegun] at hpass
  exact ⟨{ s.skipBlanks with textStart := false }, ⟨hmode, rfl, rfl, hpending, hlevels, hskip⟩,
    fun out hout => @emits_of_pass_eq _ { s.skipBlanks with textStart := false } _ hpending hpending hpass hout⟩

section Speech
variable {speech : Speech} {more : List Char}

/-- The name opens no statement: it has no statement word at its head, or no blank comes after the word. -/
theorem opensStatement_speech (hspeech : speech.Prosaic) (hmore : ∀ c ∈ more.head?, isEscapable c = true) (hne : more ≠ [])
    (hrest : s.rest = escapeMarks speech.speaker.toList ++ more) : s.opensStatement = false := by
  by_contra hopens
  have hopens : s.opensStatement = true := by simpa using hopens
  simp only [opensStatement, Bool.and_eq_true] at hopens
  obtain ⟨hword, hafter⟩ := hopens
  generalize hcs : speech.speaker.toList = cs at hrest
  obtain ⟨htake, hdrop⟩ := @word_escapeMarks cs more hmore
  have hwords : s.word = cs.takeWhile isWordPart := by
    rw [← htake, ← hrest]
    rw [word_eq, wordHead] at hword ⊢
    split at hword
    · next hstart => rw [if_pos hstart]
    · cases hword
  rw [hwords] at hword hafter
  have hlength : s.rest.drop (cs.takeWhile isWordPart).length = escapeMarks (cs.dropWhile isWordPart) ++ more := by
    rw [← htake, hrest, drop_length_takeWhile, hdrop]
  obtain ⟨c, tail, hcons⟩ : ∃ c tail, escapeMarks (cs.dropWhile isWordPart) ++ more = c :: tail :=
    List.exists_cons_of_ne_nil (by simp [hne])
  rw [hlength, hcons] at hafter
  have hblank : isBlank c = true ∨ isLineEnd c = true := by simpa using hafter
  rcases head_of_escapeMarks hmore (hcons ▸ rfl : c ∈ (escapeMarks (cs.dropWhile isWordPart) ++ more).head?) with h | h
  · obtain ⟨hno, hno', -⟩ := plain_of_isEscapable h
    simp [hno, hno'] at hblank
  · obtain ⟨rest, hdropped⟩ := List.head?_eq_some_iff.1 h
    have hspeaker : speech.speaker.toList = (String.ofList (cs.takeWhile isWordPart)).toList ++ c :: rest := by
      rw [hcs, ← hdropped, String.toList_ofList, List.takeWhile_append_dropWhile]
    rcases hblank with hblank | hline
    · exact hspeech.statement _ hword c hblank rest hspeaker
    · simp [hspeech.line c (by simp [hspeaker])] at hline

/-- What the line of a speaker opens with. -/
theorem head_speech (hspeech : speech.Prosaic) (hmore : ∀ c ∈ more.head?, isEscapable c = true)
    (hrest : s.rest = escapeMarks speech.speaker.toList ++ more) :
    ∃ c tail, s.rest = c :: tail ∧ isBlank c = false ∧ isLineEnd c = false ∧ isColon c = false ∧
      (c = '/' → tail.head? ≠ some '/') ∧ ∀ first ∈ ['-', '='], c = first → tail.head?.any isArrowHead = false := by
  obtain ⟨d, cs, hspeaker⟩ : ∃ d cs, speech.speaker.toList = d :: cs :=
    List.exists_cons_of_ne_nil (by simpa using hspeech.named)
  rw [hspeaker, escapeMarks_cons, List.append_assoc] at hrest
  by_cases hd : isEscapable d = true
  · exact ⟨'\\', _, by simpa [hd] using hrest, by decide, by decide, by decide, fun h => absurd h (by decide), by simp⟩
  · have hplain : isEscapable d = false := by simpa using hd
    have hblank : isBlank d = false := by
      by_contra hblank
      have hspace := head_of_trim hspeech.trimmed d (by rw [hspeaker]; rfl)
      simp [isSpace_of_isBlank (by simpa using hblank)] at hspace
    -- the second character is a mark, or the second one of the name
    have hsecond {c : Char} (hc : c ∈ (escapeMarks cs ++ more).head?) :
        isEscapable c = true ∨ ∃ rest, speech.speaker.toList = d :: c :: rest :=
      (head_of_escapeMarks hmore hc).imp_right fun h => by
        obtain ⟨rest, rfl⟩ := List.head?_eq_some_iff.1 h
        exact ⟨rest, hspeaker⟩
    refine ⟨d, escapeMarks cs ++ more, by simpa [hd] using hrest, hblank, hspeech.line d (by simp [hspeaker]),
      (plain_of_not_isEscapable hplain).2.1, ?_, ?_⟩
    · rintro rfl hslash
      rcases hsecond hslash with h | ⟨rest, h⟩
      · simp [isEscapable, isColon] at h
      · exact hspeech.comment rest h
    · rintro first hfirst rfl
      by_contra harrow
      obtain ⟨c, hc, harrow⟩ : ∃ c, (escapeMarks cs ++ more).head? = some c ∧ isArrowHead c = true := by
        simpa [Option.any_eq_true] using harrow
      rcases hsecond hc with h | ⟨rest, h⟩
      · simp [(plain_of_isEscapable h).2.2.2.1] at harrow
      · exact hspeech.arrow d hfirst c harrow rest h

/-- The line of a speaker is text behind a speech. -/
theorem startLine_speech (hspeech : speech.Prosaic) (hmore : ∀ c ∈ more.head?, isEscapable c = true) (hne : more ≠ [])
    (hs : s.AtLine (escapeMarks speech.speaker.toList ++ more)) :
    s.startLine = (none, s.queueSpeaker.enterText false) := by
  obtain ⟨c, tail, hcons, hblank, hline, hcolon, hcomment, harrow⟩ := head_speech hspeech hmore hs.rest
  have hopens := opensStatement_speech hspeech hmore hne hs.rest
  have hclassify : s.classify = s.queueSpeaker.enterText false := by
    have hno (first : Char) (hfirst : first ∈ ['-', '=']) :
        (s.rest.head? = some first && s.rest.tail.head?.any isArrowHead) = false := by
      by_cases hc : c = first
      · simp [hcons, hc, harrow first hfirst hc]
      · simp [hcons, hc]
    simp only [classify, hno '-' (by simp), hno '=' (by simp), hopens, Bool.false_eq_true, if_false]
  have hslashes : (decide (c = '/') && decide (tail.head? = some '/')) = false := by
    simpa using hcomment
  have hhead : lineHead (c :: tail) = .content := by simp [lineHead, hline, hslashes, hcolon]
  rw [startLine_margin hcons hblank, hhead, openLine_content hs.levels, hclassify]

theorem spelled_speakerTokens (hspeech : speech.Prosaic) (width : Nat) : speech.Spelled
    (s.speakerTokens ⟨speech.speaker.toList, width, speech.emotion.map String.toList, 0⟩ speech.speaker.toList) := by
  obtain ⟨speaker, emotion⟩ := speech
  cases emotion with
  | none =>
    have h := @Speech.Spelled.plain ⟨wordKind speaker.toList, speaker, s.line, s.column⟩ ⟨.colon, ":", s.line, s.column + width⟩
      (kind_wordKind _) rfl
    simpa [speakerTokens, tokenHere, SpeakerHead.beforeColon] using h
  | some emotion =>
    have htrim : trim emotion.toList = emotion.toList := (hspeech.emotion emotion rfl).2.1
    have h := @Speech.Spelled.feeling ⟨wordKind speaker.toList, speaker, s.line, s.column⟩
      ⟨.leftBracket, "[", s.line, s.column + width⟩
      ⟨wordKind emotion.toList, emotion, s.line, s.column + width + 1⟩
      ⟨.rightBracket, "]", s.line, s.column + width + 1 + emotion.toList.length⟩
      ⟨.colon, ":", s.line, s.column + (width + 1 + emotion.toList.length + 1)⟩
      (kind_wordKind _) rfl (kind_wordKind _) rfl rfl
    simpa [speakerTokens, tokenHere, SpeakerHead.beforeColon, htrim] using h

/-- A speech is queued as it is spelled, and the text begins behind its colon. -/
theorem queueSpeaker_speech {tail : List Char} (hspeech : speech.Prosaic) (hrest : s.rest = speech.prose ++ ':' :: tail)
    (hpending : s.pending = []) :
    ∃ us, speech.Spelled us ∧ (∀ u ∈ us, u.isEof = false) ∧
      s.queueSpeaker = (s.advance (speech.prose ++ [':']).length).after us := by
  have hline : s.rest.take (lineLength s.rest) = speech.prose ++ ':' :: tail.takeWhile fun c => !isLineEnd c := by
    have hinside : ∀ c ∈ speech.prose, (!isLineEnd c) = true := fun c hc => by simp [hspeech.inLine c hc]
    rw [take_lineLength, hrest, List.takeWhile_append_of_pos hinside]
    rfl
  have hnamed : speech.speaker.toList.isEmpty = false := by simpa using hspeech.named
  generalize hhead : SpeakerHead.mk speech.speaker.toList (escapeMarks speech.speaker.toList).length
    (speech.emotion.map String.toList) 0 = head
  have hwidth : head.beforeColon + 1 = (speech.prose ++ [':']).length := by
    subst hhead
    obtain ⟨speaker, _ | emotion⟩ := speech
    · simp [SpeakerHead.beforeColon, Speech.prose]
    · simp [SpeakerHead.beforeColon, Speech.prose]
      omega
  have hqueue : s.queueSpeaker = (s.advance (speech.prose ++ [':']).length).after (s.speakerTokens head speech.speaker.toList) := by
    have htrim : trim head.name = speech.speaker.toList := by rw [← hhead, hspeech.trimmed]
    simp [queueSpeaker, hline, speakerHead?_prose hspeech, hhead, htrim, hnamed, hwidth, queue, Lexer.after, Lexer.advance, hpending]
  have hspelled : speech.Spelled (s.speakerTokens head speech.speaker.toList) := hhead ▸ spelled_speakerTokens hspeech _
  exact ⟨_, hspelled, hspelled.isEof, hqueue⟩

end Speech

section Lines
variable {speech : Speech} {text : List Segment} {tags : List String}

theorem head?_proseOf (h : Prose text) : ∀ c ∈ (proseOf text ++ rest).head?, isBlank c = false := by
  intro c hc
  cases text with
  | nil => exact absurd h.lively (by decide)
  | cons segment more =>
    rw [proseOf_cons, List.append_assoc] at hc
    cases h.segments segment List.mem_cons_self with
    | @literal value pos hne hline =>
      have hhead : c ∈ (escapeMarks value.toList).head? := by
        obtain ⟨d, cs, hcons⟩ : ∃ d cs, value.toList = d :: cs := List.exists_cons_of_ne_nil (by simpa using hne)
        have hprose : (escapeMarks value.toList).head? ≠ none := by
          rw [hcons, escapeMarks_cons]
          split <;> simp
        obtain ⟨e, he⟩ := Option.ne_none_iff_exists'.1 hprose
        simpa [Segment.prose, List.head?_append, he] using hc
      rcases head_escapeMarks hhead with rfl | ⟨-, hvalue⟩
      · rfl
      · exact h.opening value pos rfl c hvalue
    | hole hname =>
      obtain rfl : '\x7b' = c := by simpa [Segment.prose] using hc
      rfl

/-- The line of a speaker is read as it is spelled. -/
theorem emits_dialogue (hspeech : speech.Prosaic) (htext : Prose text) (htags : ∀ tag ∈ tags, Taggable tag)
    (hrest : ∀ c ∈ rest, isLineEnd c = true)
    (hs : s.AtLine (speech.prose ++ ':' :: ' ' :: (proseOf text ++ (tagsOf tags ++ rest)))) :
    ∃ us eof, (Content.line ⟨some speech, text, tags, {}⟩).Spelled us ∧ eof.kind = .eof ∧ Emits s (us ++ [eof]) := by
  obtain ⟨us, hus, hnot, hqueue⟩ := queueSpeaker_speech hspeech hs.rest hs.pending
  have hstart : s.startLine = (none, s.queueSpeaker.enterText false) := by
    have hs := hs
    rw [Speech.prose, List.append_assoc] at hs
    refine startLine_speech hspeech ?_ (by simp) hs
    cases speech.emotion <;> simp [isEscapable, isColon]
  generalize hm : (s.advance (speech.prose ++ [':']).length).enterText false = m
  have hpass : s.pass = (.again, m.after us) := by
    simp only [pass, hs.mode, hstart, hqueue]
    rw [← hm]
    rfl
  have hblank : m.rest = ' ' :: (proseOf text ++ (tagsOf tags ++ rest)) := by
    simp [← hm, hs.rest]
  obtain ⟨s₁, hs₁, h₁⟩ := gives_inside (by rw [← hm]; rfl) (by rw [← hm]; rfl) (hm ▸ hs.pending) (hm ▸ hs.levels) hblank
    (head?_proseOf htext)
  obtain ⟨vs, eof, hvs, heof, hout⟩ := hs₁.body htext.toRunning htags hrest
  refine ⟨us ++ vs, eof, .dialogue hus hvs, heof, .again hs.pending hpass ?_⟩
  rw [List.append_assoc]
  exact (h₁ _ hout).after hnot

/-- A choice is read as it is spelled. -/
theorem emits_choice (htext : Prose text) (hrest : ∀ c ∈ rest, isLineEnd c = true)
    (hs : s.AtLine ('-' :: '>' :: ' ' :: (proseOf text ++ rest))) :
    ∃ us eof, (Content.choice ⟨text, none, [], {}⟩).Spelled us ∧ eof.kind = .eof ∧ Emits s (us ++ [eof]) := by
  have hstart : s.startLine = (none, ((s.queue [s.tokenHere .arrow "->"]).advance 2).enterText true) := by
    have hhead : lineHead ('-' :: '>' :: ' ' :: (proseOf text ++ rest)) = .content := rfl
    rw [startLine_margin hs.rest (by decide), hhead, openLine_content hs.levels]
    simp [classify, hs.rest, isArrowHead]
  generalize hm : (s.advance 2).enterText true = m
  have hpass : s.pass = (.again, m.after [s.tokenHere .arrow "->"]) := by
    simp only [pass, hs.mode, hstart]
    rw [← hm]
    simp [queue, Lexer.after, Lexer.advance, enterText, hs.pending]
  have hblank : m.rest = ' ' :: (proseOf text ++ (tagsOf [] ++ rest)) := by
    simp [← hm, hs.rest, tagsOf]
  obtain ⟨s₁, hs₁, h₁⟩ := gives_inside (by rw [← hm]; rfl) (by rw [← hm]; rfl) (hm ▸ hs.pending) (hm ▸ hs.levels) hblank
    (head?_proseOf htext)
  have hnone : ∀ tag ∈ ([] : List String), Taggable tag := by simp
  obtain ⟨us, eof, ⟨htexted, htags, hend⟩, heof, hout⟩ := hs₁.body htext.toRunning hnone hrest
  cases htags
  have harrow : (s.tokenHere .arrow "->").kind = .arrow := rfl
  have hnot : ∀ t ∈ [s.tokenHere .arrow "->"], t.isEof = false := by simp [tokenHere, Token.isEof]
  refine ⟨_, eof, .choice harrow htexted .none hend .empty, heof, .again hs.pending hpass ?_⟩
  simpa using (h₁ _ hout).after hnot

end Lines
end Lexer

/-- A node of one item is read back if its line is read as the item is spelled. -/
theorem node_readBack {name : String} (hname : isIdentifier name.toList = true) (hfree : keyword? name = none)
    {line source : String} {item : Content} (hsource : source = ":: " ++ name ++ "\n" ++ line)
    (hlast : ∀ part ∈ item.parts, part.Lasting)
    (hline : ∀ s : Lexer, s.AtLine line.toList → ∃ us eof, item.Spelled us ∧ eof.kind = .eof ∧ Emits s (us ++ [eof])) :
    ∃ made, (parseScript source).result = .ok ⟨made⟩ ∧ made.map Node.shape = [Node.shape ⟨name, [item], {}⟩] := by
  have hs : (Lexer.ofText source).AtLine ([':', ':'] ++ ([' '] ++ (name.toList ++ '\n' :: line.toList))) :=
    ⟨rfl, rfl, rfl, by simp [Lexer.ofText, hsource]⟩
  obtain ⟨lineEnd, s₁, hend, hs₁, -, -, hheader⟩ := emits_headerLine hname hfree hs
  obtain ⟨us, eof, hus, heof, hout⟩ := hline s₁ hs₁
  have hspelled := @SpelledNodes.cons ⟨.doubleColon, "::", (Lexer.ofText source).line, (Lexer.ofText source).column⟩
    ⟨.identifier, name, (Lexer.ofText source).line, (Lexer.ofText source).column + 3⟩ lineEnd [item] {} [] _ _ rfl rfl hend
    (.cons hus .nil) .nil
  have hkept : ∀ n ∈ [(⟨name, [item], {}⟩ : Node)], n.content ≠ [] ∧ ∀ part ∈ contentParts n.content, part.Lasting := by
    simpa [contentParts] using hlast
  simp only [List.append_nil] at hspelled
  have hemits := hheader _ hout
  simp only [← List.cons_append] at hemits
  obtain ⟨k', hread⟩ : ∃ k', ParseM.Consumes (ParseM.nodes _) _ [eof] 0 k' (RebuiltNodes [⟨name, [item], {}⟩]) :=
    ParseM.consumes_nodes hspelled heof hkept (patience_spare _ eof)
  obtain ⟨made, hmade, hrebuilt⟩ := hread []
  exact ⟨made, parseScript_eq_ok_iff.mpr ⟨_, _, hemits, hmade⟩, hrebuilt.shapes⟩

theorem Prose.lasting_line {speech : Speech} (hspeech : speech.Prosaic) {text : List Segment} (htext : Prose text)
    (tags : List String) : (Content.line ⟨some speech, text, tags, {}⟩).Lasting :=
  ⟨htext.lively, fun h => (hspeech.emotion "" h).1 rfl⟩

theorem Prose.lasting_choice {text : List Segment} (htext : Prose text) :
    (Content.choice ⟨text, none, [], {}⟩).Lasting := by
  refine ⟨?_, nofun⟩
  simp [Content.isElidable, htext.lively]

/-- A line of prose is written and read back without loss, as what a speaker says and as a choice. -/
theorem prose_readBack {name : String} (hname : isIdentifier name.toList = true) (hfree : keyword? name = none)
    {speech : Speech} (hspeech : speech.Prosaic) {text : List Segment} (htext : Prose text) {tags : List String}
    (htags : ∀ tag ∈ tags, Taggable tag) {ending : String} (hending : ∀ c ∈ ending.toList, isLineEnd c = true) :
    (∃ made, (parseScript (":: " ++ name ++ "\n" ++ dialogueSource speech text tags ++ ending)).result = .ok ⟨made⟩ ∧
        made.map Node.shape = [Node.shape ⟨name, [.line ⟨some speech, text, tags, {}⟩], {}⟩]) ∧
      ∃ made, (parseScript (":: " ++ name ++ "\n" ++ choiceSource text ++ ending)).result = .ok ⟨made⟩ ∧
        made.map Node.shape = [Node.shape ⟨name, [.choice ⟨text, none, [], {}⟩], {}⟩] := by
  constructor
  · refine @node_readBack _ hname hfree (dialogueSource speech text tags ++ ending) _ _ (by simp [String.append_assoc]) ?_ ?_
    · simpa [Content.parts] using htext.lasting_line hspeech tags
    · intro s hs
      exact Lexer.emits_dialogue hspeech htext htags hending (by simpa [dialogueSource] using hs)
  · refine @node_readBack _ hname hfree (choiceSource text ++ ending) _ _ (by simp [String.append_assoc]) ?_ ?_
    · simpa [Content.parts, contentParts] using htext.lasting_choice
    · intro s hs
      exact Lexer.emits_choice htext hending (by simpa [choiceSource] using hs)

/-- A speech and a text with a mark in every part of them. -/
def markedSpeech : Speech := ⟨"A:b", some "so \x7bso\x7d"⟩

def markedText : List Segment := [.literal "a # \x7bb\x7d " {}, .hole (.reference "v" {}) {}, .literal " [c]\\" {}]

theorem prosaic_marked : markedSpeech.Prosaic where
  named := by decide
  trimmed := by decide
  line := by simp [markedSpeech, isLineEnd]
  arrow := by
    rintro first hfirst second - rest heq
    have hhead : first = 'A' := by simpa [markedSpeech] using (congrArg List.head? heq).symm
    simp [hhead] at hfirst
  comment rest heq := by simp [markedSpeech] at heq
  statement word _ c hc rest heq := by
    have hmem : c ∈ markedSpeech.speaker.toList := by simp [heq]
    have hno : ∀ c ∈ markedSpeech.speaker.toList, isBlank c = false := by simp [markedSpeech, isBlank]
    simp [hno c hmem] at hc
  emotion emotion hemotion := by
    obtain rfl : "so \x7bso\x7d" = emotion := by simpa [markedSpeech] using hemotion
    exact ⟨by decide, by decide, by simp [isLineEnd]⟩

theorem prose_marked : Prose markedText where
  segments := by
    simp only [markedText, List.mem_cons, List.not_mem_nil, or_false, forall_eq_or_imp, forall_eq]
    exact ⟨.literal (by decide) (by simp [isLineEnd]), .hole (by decide), .literal (by decide) (by simp [isLineEnd])⟩
  apart before a b after heq := by
    rcases before with _ | ⟨x, _ | ⟨y, before⟩⟩ <;> simp only [markedText, List.nil_append, List.cons_append, List.cons.injEq] at heq
    · obtain ⟨-, rfl, -⟩ := heq
      simp [Segment.isLiteral]
    · obtain ⟨-, rfl, -⟩ := heq
      simp [Segment.isLiteral]
    · obtain ⟨-, -, hmore⟩ := heq
      have hlength := congrArg List.length hmore
      simp at hlength
      omega
  closing value pos hlast := by
    obtain ⟨rfl, -⟩ : " [c]\\" = value ∧ _ := by simpa [markedText] using hlast
    simp [isSpace]
  lively := by decide
  opening value pos hhead := by
    obtain ⟨rfl, -⟩ : "a # \x7bb\x7d " = value ∧ _ := by simpa [markedText] using hhead
    simp [isBlank]

theorem prose_readBack_marked :
    markedSpeech.Prosaic ∧ Prose markedText ∧ (∀ tag ∈ ["t", "u:v"], Taggable tag) ∧
      (∃ made, (parseScript (":: " ++ "n" ++ "\n" ++ dialogueSource markedSpeech markedText ["t", "u:v"] ++ "\r\n")).result =
          .ok ⟨made⟩ ∧ made.map Node.shape = [Node.shape ⟨"n", [.line ⟨some markedSpeech, markedText, ["t", "u:v"], {}⟩], {}⟩]) ∧
        ∃ made, (parseScript (":: " ++ "n" ++ "\n" ++ choiceSource markedText ++ "\r\n")).result = .ok ⟨made⟩ ∧
          made.map Node.shape = [Node.shape ⟨"n", [.choice ⟨markedText, none, [], {}⟩], {}⟩] := by
  have htags : ∀ tag ∈ ["t", "u:v"], Taggable tag := by
    simp only [List.mem_cons, List.not_mem_nil, or_false, forall_eq_or_imp, forall_eq]
    exact ⟨⟨by decide, by simp [isBlank, isLineEnd]⟩, ⟨by decide, by simp [isBlank, isLineEnd]⟩⟩
  exact ⟨prosaic_marked, prose_marked, htags,
    prose_readBack (by decide) (by decide) prosaic_marked prose_marked htags (by simp [isLineEnd])⟩

end Parley
