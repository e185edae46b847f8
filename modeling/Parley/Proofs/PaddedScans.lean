import Parley.Proofs.PaddedText

/-! # Scanning a line with blanks at its end

A scanner comes to the same on the line with the blanks still in front of it, or it is at the end of the line and has
taken them along, or it ends the line as many columns further on (`Padded`). -/

namespace Parley
namespace Lexer

/-- The lexer with `b` at the end of the line it is on. -/
def padded (b : List Char) (s : Lexer) : Lexer := { s with rest := padLine b s.rest }

/-- The lexer so many columns further on. -/
def pushed (k : Nat) (s : Lexer) : Lexer := { s with column := s.column + k }

section Padded
variable {b : List Char} {s m : Lexer} {c : Char} {p q tail : List Char} {k : Nat}

@[simp] theorem rest_padded : (s.padded b).rest = padLine b s.rest := rfl
@[simp] theorem mode_padded : (s.padded b).mode = s.mode := rfl
@[simp] theorem rest_pushed : (s.pushed k).rest = s.rest := rfl
@[simp] theorem mode_pushed : (s.pushed k).mode = s.mode := rfl

theorem AtLineEnd.pushed (h : s.AtLineEnd) (k : Nat) : (s.pushed k).AtLineEnd := h

/-- A new line starts in the first column. -/
theorem consumeNewline_pushed (hend : s.AtLineEnd) (hne : s.rest ≠ []) :
    (s.pushed k).consumeNewline = s.consumeNewline := by
  unfold consumeNewline
  rw [rest_pushed]
  split
  · rfl
  · next c tail _ hrest =>
    rw [if_pos (hend c (by simp [hrest])), if_pos (hend c (by simp [hrest]))]
    rfl
  · next hrest => exact absurd hrest hne

theorem advance_padded (h : Along p s (s.advance p.length)) :
    (s.padded b).advance p.length = (s.advance p.length).padded b := by
  have hdrop : (padLine b s.rest).drop p.length = padLine b (s.rest.drop p.length) := by
    have hrest : s.rest = p ++ s.rest.drop p.length := h.rest
    rw [hrest, padLine_append h.plain, List.drop_left, List.drop_left]
  simp [Lexer.advance, padded, hdrop]

theorem moveTo_padded (hb : ∀ c ∈ b, isBlank c = true) (q : List Char) :
    (s.padded b).moveTo (padLine b q) = (s.moveTo q).padded b := by
  have hcolumn : lineLength s.rest + b.length - (lineLength q + b.length) = lineLength s.rest - lineLength q := by
    omega
  simp [Lexer.moveTo, padded, lineLength_padLine hb, hcolumn]

/-- At the end of the line the blanks are behind. -/
theorem moveTo_over (hb : ∀ c ∈ b, isBlank c = true) (hq : LineOver q) :
    (s.padded b).moveTo q = (s.moveTo q).pushed b.length := by
  have hlength : lineLength q = 0 := by
    cases q with
    | nil => rfl
    | cons c q => simp [lineLength, lineOver_cons.1 hq]
  simp [Lexer.moveTo, padded, pushed, lineLength_padLine hb, hlength]
  omega

theorem skipBlanks_padded (hb : ∀ c ∈ b, isBlank c = true) :
    s.skipBlanks.AtLineEnd ∧ (s.padded b).skipBlanks = s.skipBlanks.pushed b.length ∨
      ¬s.skipBlanks.AtLineEnd ∧ (s.padded b).skipBlanks = s.skipBlanks.padded b := by
  have hblanks := Along.skipBlanks s
  have hrest : (s.padded b).rest = s.rest.takeWhile isBlank ++ padLine b s.skipBlanks.rest := by
    rw [rest_padded, ← padLine_append hblanks.plain, ← hblanks.rest]
  have hall : ∀ c ∈ s.rest.takeWhile isBlank, isBlank c = true := fun c hc => List.mem_takeWhile_imp hc
  have hhead := head?_skipBlanks s
  have hstop {cs : List Char} (h : ∀ c ∈ cs.head?, isBlank c = false) :
      cs.takeWhile isBlank = [] ∧ cs.dropWhile isBlank = cs := by
    cases cs with
    | nil => exact ⟨rfl, rfl⟩
    | cons c cs => simp [h c rfl]
  by_cases hend : s.skipBlanks.AtLineEnd
  · obtain ⟨htake, hdrop⟩ := hstop hhead
    refine .inl ⟨hend, ?_⟩
    unfold skipBlanks
    rw [hrest, padLine_over hend, List.takeWhile_append_of_pos hall, List.dropWhile_append_of_pos hall,
      List.takeWhile_append_of_pos hb, List.dropWhile_append_of_pos hb, htake, hdrop]
    simp [padded, pushed, skipBlanks]
    omega
  · have hhead' : ∀ c ∈ (padLine b s.skipBlanks.rest).head?, isBlank c = false := by
      obtain ⟨c, tail, hcons, hc⟩ := exists_cons_of_line hend
      rw [hcons] at hhead ⊢
      rw [padLine_cons hc]
      exact hhead
    obtain ⟨htake, hdrop⟩ := hstop hhead'
    refine .inr ⟨hend, ?_⟩
    unfold skipBlanks
    rw [hrest, List.takeWhile_append_of_pos hall, List.dropWhile_append_of_pos hall, htake, hdrop]
    simp [padded, skipBlanks]

theorem word_padded (hb : ∀ c ∈ b, isBlank c = true) : (s.padded b).word = s.word := by
  rw [word_eq, word_eq, rest_padded, wordHead_padLine hb]

theorem take_padded (h : Along p s (s.advance p.length)) (kind : TokenKind) :
    (s.padded b).take kind p = (s.take kind p).map id (padded b) := by
  unfold take
  rw [advance_padded h]
  rfl

/-- What comes to the end of the line takes the blanks along. -/
theorem advance_over (h : Along p s m) (hend : m.AtLineEnd) :
    (s.padded b).advance (p ++ b).length = (s.advance p.length).pushed b.length := by
  have hrest : (s.padded b).rest = (p ++ b) ++ m.rest := by
    rw [rest_padded, h.rest, padLine_append h.plain, padLine_over hend, List.append_assoc]
  have hleft : s.rest.drop p.length = m.rest := by rw [h.rest, List.drop_left]
  unfold Lexer.advance
  rw [hrest, List.drop_left, hleft]
  simp [padded, pushed]
  omega

theorem advance_comment_padded (hb : ∀ c ∈ b, isBlank c = true) :
    (s.padded b).advance (lineLength (s.padded b).rest) = (s.advance (lineLength s.rest)).pushed b.length := by
  obtain ⟨p, hp, hcomment, hend⟩ := Along.comment s
  have hlength : lineLength (s.padded b).rest = (p ++ b).length := by
    rw [rest_padded, lineLength_padLine hb, List.length_append, hp]
  rw [hlength, advance_over hcomment hend, hp]

/-- With `b` at the end of its line a lexer has these blanks still to come, or has taken them along. -/
inductive Abreast (b : List Char) (s : Lexer) : Lexer → Prop
  | before : Abreast b s (s.padded b)
  | behind (hend : s.AtLineEnd) : Abreast b s (s.pushed b.length)

/-- What a scanner comes to on a line, and what it comes to with `b` at the end of the line. -/
inductive Padded (b : List Char) (s : Lexer) {α : Type} (ofToken : Token → α) : α × Lexer → α × Lexer → Prop
  /-- The same, still on the line. -/
  | stays (r : α) {s' k : Lexer} (hmode : s'.mode.inLine = true) (h : Abreast b s' k) : Padded b s ofToken (r, s') (r, k)
  /-- The end of the line. -/
  | stop {p : List Char} {m : Lexer} (h : Along p s m) (hend : m.AtLineEnd) :
      Padded b s ofToken (ofToken m.newline.1, m.newline.2)
        (ofToken (m.pushed b.length).newline.1, (m.pushed b.length).newline.2)

theorem Padded.map {α β : Type} {ofToken : Token → α} {x y : α × Lexer} (f : α → β) (h : Padded b s ofToken x y) :
    Padded b s (f ∘ ofToken) (x.map f id) (y.map f id) := by
  cases h with
  | stays r hmode hk => exact .stays _ hmode hk
  | stop h hend => exact .stop h hend

theorem Padded.along {α : Type} {ofToken : Token → α} {x y : α × Lexer} (hs : Along q s m)
    (h : Padded b m ofToken x y) : Padded b s ofToken x y := by
  cases h with
  | stays r hmode hk => exact .stays _ hmode hk
  | stop h hend => exact .stop (hs.trans h) hend

/-! ### Code -/

theorem readCode_padded (hb : ∀ c ∈ b, isBlank c = true) (hline : ¬s.AtLineEnd) (hmode : s.mode.inLine = true) :
    Padded b s .ok (s.readCode (codeHead s.rest)) ((s.padded b).readCode (codeHead (padLine b s.rest))) := by
  have hfits := fits_codeHead s.rest
  rcases padded_codeHead hb hline with hsame | ⟨cause, text, left, hrest, hend, hhead, hpadded⟩
  · rw [hsame]
    unfold readCode
    cases hhead : codeHead s.rest with
    | ending => exact absurd (codeHead_eq_ending.mp hhead) hline
    | comment =>
      obtain ⟨p, -, hcomment, hend⟩ := Along.comment s
      dsimp only
      rw [advance_comment_padded hb]
      exact .stop hcomment hend
    | token kind value text =>
      rw [hhead] at hfits
      obtain ⟨-, hbegins, hplain, -⟩ := hfits
      dsimp only
      rw [advance_padded (.stretch hbegins hplain)]
      exact .stays _ (Mode.inLine_after hmode kind) .before
    | refused cause text =>
      rw [hhead] at hfits
      dsimp only
      rw [advance_padded (.stretch hfits.1 hfits.2)]
      exact .stays _ hmode .before
  · rw [hhead] at hfits
    have halong := Along.stretch hfits.1 hfits.2
    have hover : (s.advance text.length).AtLineEnd := by
      have hleft : (s.advance text.length).rest = left := by rw [rest_advance, hrest, List.drop_left]
      rwa [AtLineEnd, hleft]
    rw [hhead, hpadded]
    unfold readCode
    dsimp only
    rw [advance_over halong hover]
    exact .stays _ hmode (.behind hover)

theorem scanCode_over (hend : s.skipBlanks.AtLineEnd) :
    s.scanCode = (.ok s.skipBlanks.newline.1, s.skipBlanks.newline.2) := by
  rw [scanCode_eq, codeHead_eq_ending.mpr hend]
  rfl

theorem scanCode_padded (hb : ∀ c ∈ b, isBlank c = true) (hmode : s.mode.inLine = true) :
    Padded b s .ok s.scanCode (s.padded b).scanCode := by
  have hblanks := Along.skipBlanks s
  rcases skipBlanks_padded (s := s) hb with ⟨hend, hskip⟩ | ⟨hline, hskip⟩
  · rw [scanCode_over hend, scanCode_over (s := s.padded b) (hskip ▸ hend.pushed b.length), hskip]
    exact .stop hblanks hend
  · rw [scanCode_eq, scanCode_eq, hskip]
    exact .along hblanks (readCode_padded hb hline hmode)

/-! ### Tags and text -/

theorem scanTag_over (hend : s.skipBlanks.AtLineEnd) : s.scanTag = s.skipBlanks.newline := by
  rw [scanTag_eq, tagHead_eq_none.mpr hend]
  rfl

theorem scanTag_padded (hb : ∀ c ∈ b, isBlank c = true) (hmode : s.mode.inLine = true) :
    Padded b s id s.scanTag (s.padded b).scanTag := by
  have hblanks := Along.skipBlanks s
  have hblank := head?_skipBlanks s
  rcases skipBlanks_padded (s := s) hb with ⟨hend, hskip⟩ | ⟨hline, hskip⟩
  · rw [scanTag_over hend, scanTag_over (s := s.padded b) (hskip ▸ hend.pushed b.length), hskip]
    exact .stop hblanks hend
  have hmode : s.skipBlanks.mode.inLine = true := hmode
  rw [scanTag_eq, scanTag_eq, hskip]
  refine .along hblanks ?_
  generalize s.skipBlanks = m at hblank hmode hline
  rw [rest_padded, tagHead_padLine hb hline]
  cases hhead : tagHead m.rest with
  | none => exact absurd (tagHead_eq_none.mp hhead) hline
  | some head =>
    obtain ⟨-, hbegins, hplain, -⟩ := tagHead_fits hblank hhead
    unfold readTag
    dsimp only
    rw [take_padded (.stretch hbegins hplain)]
    exact .stays _ hmode .before

theorem skipBlanks_atLineEnd (hend : s.AtLineEnd) : s.skipBlanks = s := by
  have hnone : s.rest.takeWhile isBlank = [] ∧ s.rest.dropWhile isBlank = s.rest := by
    cases hrest : s.rest with
    | nil => exact ⟨rfl, rfl⟩
    | cons c tail => simp [isBlank_of_isLineEnd (hend c (by simp [hrest]))]
  unfold skipBlanks
  rw [hnone.1, hnone.2]
  rfl

theorem begun_over (hend : s.AtLineEnd) : s.begun = { s with textStart := false } := by
  by_cases hstart : s.textStart = true
  · unfold begun
    rw [if_pos hstart, skipBlanks_atLineEnd hend]
  · have hstart : s.textStart = false := by simpa using hstart
    rw [begun_eq_self hstart, ← hstart]

theorem begun_padded (hb : ∀ c ∈ b, isBlank c = true) (h : s.textStart = true) :
    s.begun.AtLineEnd ∧ (s.padded b).begun = s.begun.pushed b.length ∨
      ¬s.begun.AtLineEnd ∧ (s.padded b).begun = s.begun.padded b := by
  have hpadded : (s.padded b).textStart = true := h
  unfold begun
  rw [if_pos h, if_pos hpadded]
  rcases skipBlanks_padded (s := s) hb with ⟨hend, hskip⟩ | ⟨hline, hskip⟩
  · exact .inl ⟨hend, by rw [hskip]; rfl⟩
  · exact .inr ⟨hline, by rw [hskip]; rfl⟩

theorem textStops_blank (inChoice : Bool) (c : Char) (hc : isBlank c = true) : textStops inChoice c = false := by
  simp only [isBlank, Bool.or_eq_true, beq_iff_eq] at hc
  rcases hc with rfl | rfl <;> cases inChoice <;> rfl

theorem readRun_padded (hb : ∀ c ∈ b, isBlank c = true) (hmode : s.mode.inLine = true) (cs : List Char) :
    Padded b s some (s.readRun (textRun (textStops s.inChoice) cs))
      ((s.padded b).readRun (textRun (textStops s.inChoice) (padLine b cs))) := by
  have hrun := textRun_padLine hb (textStops_lineEnd s.inChoice) (textStops_blank s.inChoice) cs
  generalize textRun (textStops s.inChoice) cs = run at hrun
  unfold readRun
  dsimp only
  rcases hrun with ⟨hend, hrun⟩ | ⟨hend, hrun⟩
  · have hbrace : run.2.head? ≠ some '{' := fun hbrace => absurd (hend _ hbrace) (by decide)
    rw [hrun]
    dsimp only
    rw [if_neg hbrace, if_neg hbrace, trimEnd_append hb, moveTo_over hb hend]
    exact .stays _ hmode (.behind hend)
  · rw [hrun]
    dsimp only
    simp only [head?_padLine_eq_some (c := '{') hb rfl, moveTo_padded hb]
    exact .stays _ hmode .before

theorem readText_padded (hb : ∀ c ∈ b, isBlank c = true) (hline : ¬s.AtLineEnd) (hmode : s.mode.inLine = true) :
    Padded b s some (s.readText (textHead s.inChoice s.rest.head?))
      ((s.padded b).readText (textHead s.inChoice (padLine b s.rest).head?)) := by
  obtain ⟨c, tail, hrest, hc⟩ := exists_cons_of_line hline
  have hhead : (padLine b s.rest).head? = s.rest.head? := by rw [hrest, padLine_cons hc, List.head?_cons, List.head?_cons]
  rw [hhead]
  cases hhead : textHead s.inChoice s.rest.head? with
  | ending => exact absurd (textHead_eq_ending.mp hhead) hline
  | mark kind value mode =>
    have hone : (s.padded b).advance 1 = (s.advance 1).padded b := advance_padded (p := [c]) (.one hrest hc)
    unfold readText
    dsimp only
    rw [hone]
    exact .stays _ (textHead_mark hhead).2 .before
  | run => exact readRun_padded hb hmode s.rest

/-- A run of nothing but blanks is dropped, and then the line ends. -/
theorem scanText_stutter (hb : ∀ c ∈ b, isBlank c = true) (hne : b ≠ []) (h : s.textStart = false)
    (hend : s.AtLineEnd) : (s.padded b).scanText = (none, s.pushed b.length) := by
  have hover : LineOver s.rest := hend
  obtain ⟨c, blanks, rfl⟩ := List.exists_cons_of_ne_nil hne
  have hc := textStops_blank s.inChoice c (hb c (by simp))
  have hpadded : (s.padded (c :: blanks)).rest = (c :: blanks) ++ s.rest := padLine_over hover
  have hrun : textRun (textStops s.inChoice) ((c :: blanks) ++ s.rest) = (c :: blanks, s.rest) :=
    textRun_blanks hb (textStops_blank s.inChoice) fun d hd => textStops_lineEnd s.inChoice d (hover d hd)
  have htrim : trimEnd (c :: blanks) = [] := trimEnd_append hb []
  have hbrace : s.rest.head? ≠ some '{' := fun hbrace => absurd (hover _ hbrace) (by decide)
  have hstay : s.moveTo s.rest = s := by simp [moveTo]
  have hchoice : (s.padded (c :: blanks)).inChoice = s.inChoice := rfl
  rw [scanText_eq, begun_eq_self (s := s.padded (c :: blanks)) h, hpadded, hchoice, List.cons_append, List.head?_cons,
    textHead_eq_run.mpr hc]
  unfold readText readRun
  dsimp only
  rw [hchoice, hpadded, hrun]
  dsimp only
  rw [if_neg hbrace, htrim, moveTo_over hb hover, hstay]
  rfl

theorem scanText_padded (hb : ∀ c ∈ b, isBlank c = true) (hne : b ≠ []) (hmode : s.mode.inLine = true) :
    Padded b s some s.scanText (s.padded b).scanText ∨
      s.AtLineEnd ∧ (s.padded b).scanText = (none, s.pushed b.length) := by
  by_cases hstart : s.textStart = true
  · obtain ⟨p, hblanks⟩ := along_begun s
    have hmode : s.begun.mode.inLine = true := by rwa [mode_begun]
    rw [scanText_eq, scanText_eq]
    refine .inl (.along hblanks ?_)
    rcases begun_padded hb hstart with ⟨hend, hbegun⟩ | ⟨hline, hbegun⟩
    · rw [hbegun, rest_pushed, textHead_eq_ending.mpr hend, textHead_eq_ending.mpr hend]
      exact .stop (.refl _) hend
    · rw [hbegun]
      exact readText_padded hb hline hmode
  have hstart : s.textStart = false := by simpa using hstart
  by_cases hend : s.AtLineEnd
  · exact .inr ⟨hend, scanText_stutter hb hne hstart hend⟩
  · rw [scanText_eq, scanText_eq, begun_eq_self hstart, begun_eq_self (s := s.padded b) hstart]
    exact .inl (readText_padded hb hend hmode)

/-! ### The start of a line -/

theorem indentTo_padded (indent : Nat) : (s.padded b).indentTo indent = (s.indentTo indent).map id (padded b) := by
  have hlevels : (s.padded b).levels = s.levels := rfl
  unfold indentTo
  rw [hlevels]
  dsimp only
  split
  · rfl
  · split <;> rfl

theorem queueSpeaker_padded (hb : ∀ c ∈ b, isBlank c = true) :
    (s.padded b).queueSpeaker = s.queueSpeaker.padded b := by
  have hline : (padLine b s.rest).take (lineLength (padLine b s.rest)) = s.rest.take (lineLength s.rest) ++ b := by
    rw [take_lineLength, take_lineLength, takeWhile_line_padLine hb]
  unfold queueSpeaker
  rw [rest_padded, hline, speakerHead?_append hb]
  cases hspeaker : speakerHead? (s.rest.take (lineLength s.rest)) with
  | none => rfl
  | some head =>
    dsimp only
    split
    · rfl
    · obtain ⟨p, htaken, halong⟩ := Along.speaker (s := s.queue (s.speakerTokens head (trim head.name))) hspeaker
      rw [← htaken]
      exact advance_padded halong

theorem opensStatement_padded (hb : ∀ c ∈ b, isBlank c = true) : (s.padded b).opensStatement = s.opensStatement := by
  have hafter := congrArg rest (advance_padded (b := b) (Along.word s))
  simp only [rest_advance, rest_padded] at hafter
  have hall {o : Option Char} (ho : ∀ c ∈ o, isGap c = true) : (o.all fun c => isBlank c || isLineEnd c) = true := by
    cases o with
    | none => rfl
    | some c => exact ho c rfl
  unfold opensStatement
  dsimp only
  rw [word_padded hb, rest_padded, hafter]
  rcases head?_padLine hb (s.rest.drop s.word.length) with h | ⟨h, h'⟩
  · rw [h]
  · rw [hall h, hall h']

theorem isArrowHead_of_isGap (hc : isGap c = true) : isArrowHead c = false := by
  simp only [isGap, isBlank, isLineEnd, Bool.or_eq_true, beq_iff_eq] at hc
  rcases hc with (rfl | rfl) | rfl | rfl <;> rfl

theorem classify_padded (hb : ∀ c ∈ b, isBlank c = true) (hrest : s.rest = c :: tail) (hc : isLineEnd c = false) :
    (s.padded b).classify = s.classify.padded b := by
  have hpadded : (s.padded b).rest = c :: padLine b tail := by rw [rest_padded, hrest, padLine_cons hc]
  have hhead : (s.padded b).rest.head? = s.rest.head? := by rw [hpadded, hrest, List.head?_cons, List.head?_cons]
  have hsecond : (s.padded b).rest.tail.head?.any isArrowHead = s.rest.tail.head?.any isArrowHead := by
    rw [hpadded, hrest]
    exact any_head?_padLine hb (fun _ => isArrowHead_of_isGap) tail
  unfold classify
  dsimp only
  rw [opensStatement_padded hb, queueSpeaker_padded hb, hhead, hsecond]
  simp only [apply_ite (padded b)]
  split
  · next harrow =>
    rw [hrest] at harrow
    simp only [Bool.and_eq_true, Option.any_eq_true] at harrow
    obtain ⟨-, d, hd, harrow⟩ := harrow
    obtain ⟨tail, rfl⟩ := List.head?_eq_some_iff.mp hd
    have hplain : isLineEnd d = false := by
      by_contra hend
      rw [isArrowHead_of_isGap (by simp [isGap, hend])] at harrow
      cases harrow
    have htwo := advance_padded (b := b) (s := s.queue [s.tokenHere .arrow "->"]) (p := [c, d])
      (.advance (q := tail) hrest (by simp [hc, hplain]))
    exact congrArg (enterText · true) htwo
  · split
    · rfl
    · split <;> rfl

theorem openContent_padded (hb : ∀ c ∈ b, isBlank c = true) (hrest : s.rest = c :: tail) (hc : isLineEnd c = false)
    (indent : Nat) : (s.padded b).openContent indent = (s.openContent indent).map id (padded b) := by
  have hkept := rest_indentTo (s := s) indent
  unfold openContent
  rw [indentTo_padded]
  rcases hindented : s.indentTo indent with ⟨_ | e, m⟩
  · rw [hindented] at hkept
    exact congrArg _ (classify_padded hb (hkept.trans hrest) hc)
  · rfl

/-- A line without content is passed over as a whole; content stands in front of the blanks. -/
theorem startLine_padded (hb : ∀ c ∈ b, isBlank c = true) (hne : s.rest ≠ []) :
    (∃ p m, Along p s m ∧ m.AtLineEnd ∧ m.mode = s.mode ∧ s.startLine = (none, m.consumeNewline) ∧
        (s.padded b).startLine = (none, (m.pushed b.length).consumeNewline)) ∨
      (s.padded b).startLine = s.startLine.map id (padded b) ∧
        ∀ s', s.startLine = (none, s') → s'.mode.inLine = true := by
  have hblanks := Along.skipBlanks s
  have hne' : (s.padded b).rest ≠ [] := padLine_ne_nil hne
  rw [startLine_eq hne, startLine_eq hne']
  rcases skipBlanks_padded (s := s) hb with ⟨hend, hskip⟩ | ⟨hline, hskip⟩
  · have hnothing : lineHead s.skipBlanks.rest = .nothing := lineHead_eq_nothing.mpr hend
    refine .inl ⟨_, s.skipBlanks, hblanks, hend, rfl, ?_, ?_⟩
    · rw [hnothing]
      rfl
    · rw [hskip, rest_pushed, hnothing]
      rfl
  have hindent : ((s.padded b).rest.takeWhile isBlank).length = (s.rest.takeWhile isBlank).length :=
    Nat.add_left_cancel (congrArg column hskip)
  rw [hskip, hindent, rest_padded, lineHead_padLine hb hline]
  cases hhead : lineHead s.skipBlanks.rest with
  | nothing => exact absurd (lineHead_eq_nothing.mp hhead) hline
  | comment =>
    obtain ⟨p, -, hcomment, hend⟩ := Along.comment s.skipBlanks
    refine .inl ⟨_, _, hblanks.trans hcomment, hend, rfl, rfl, ?_⟩
    unfold openLine
    dsimp only
    rw [advance_comment_padded hb]
  | header =>
    refine .inr ⟨rfl, fun s' h => ?_⟩
    cases h
    rfl
  | content =>
    obtain ⟨c, tail, hrest, hc⟩ := exists_cons_of_lineHead (hhead.trans_ne nofun)
    refine .inr ⟨openContent_padded hb hrest hc _, fun s' h => ?_⟩
    obtain ⟨m, -, -, rfl⟩ | ⟨f, -, hf⟩ := openContent_eq h
    · exact (classified_classify m).mode
    · cases hf

/-- Behind the last line nothing is left but the blanks. -/
theorem startLine_blanks (hb : ∀ c ∈ b, isBlank c = true) (hne : b ≠ []) (hrest : s.rest = []) :
    (s.padded b).startLine = (none, s.pushed b.length) := by
  have hpadded : (s.padded b).rest = b := by rw [rest_padded, hrest, padLine_over lineOver_nil, List.append_nil]
  have hall : b.takeWhile isBlank = b := List.takeWhile_eq_self_iff.mpr hb
  unfold startLine
  rw [hpadded, if_neg (by simpa using hne), hall]
  simp [Lexer.advance, padded, pushed, hrest, padLine_over lineOver_nil]

/-! ### Passes -/

/-- What the pass makes of what it scans. -/
def Pass.ofCode : Except LexError Token → Pass
  | .ok t => .token t
  | .error e => .failed e

def Pass.ofText : Option Token → Pass
  | some t => .token t
  | none => .again

def Pass.ofStart : Option LexError → Pass
  | none => .again
  | some e => .failed e

theorem pass_of_lineStart (h : s.mode = .lineStart) : s.pass = s.startLine.map Pass.ofStart id := by
  unfold pass
  rw [h]
  rcases s.startLine with ⟨_ | e, s'⟩ <;> rfl

theorem pass_of_code (h : s.mode = .code ∨ s.mode = .interpolation) : s.pass = s.scanCode.map Pass.ofCode id := by
  unfold pass
  rcases h with h | h <;> rw [h] <;> rcases s.scanCode with ⟨e | t, s'⟩ <;> rfl

theorem pass_of_text (h : s.mode = .text) : s.pass = s.scanText.map Pass.ofText id := by
  unfold pass
  rw [h]
  rcases s.scanText with ⟨_ | t, s'⟩ <;> rfl

theorem pass_of_tags (h : s.mode = .tags) : s.pass = s.scanTag.map Pass.token id := by
  unfold pass
  rw [h]
  rfl

/-- At the end of the line text may read the blanks before it ends the line. -/
theorem pass_padded (hb : ∀ c ∈ b, isBlank c = true) (hne : b ≠ []) (hmode : s.mode.inLine = true) :
    Padded b s .token s.pass (s.padded b).pass ∨ s.AtLineEnd ∧ (s.padded b).pass = (.again, s.pushed b.length) := by
  cases h : s.mode with
  | lineStart | done => simp [h, Mode.inLine] at hmode
  | code | interpolation =>
    rw [pass_of_code (by simp [h]), pass_of_code (s := s.padded b) (by simp [h])]
    exact .inl ((scanCode_padded hb hmode).map Pass.ofCode)
  | tags =>
    rw [pass_of_tags h, pass_of_tags (s := s.padded b) h]
    exact .inl ((scanTag_padded hb hmode).map Pass.token)
  | text =>
    rw [pass_of_text h, pass_of_text (s := s.padded b) h]
    rcases scanText_padded hb hne hmode with hpad | ⟨hend, hscan⟩
    · exact .inl (hpad.map Pass.ofText)
    · rw [hscan]
      exact .inr ⟨hend, rfl⟩

/-- At the end of a line every scanner ends it. -/
theorem pass_atLineEnd (hmode : s.mode.inLine = true) (hend : s.AtLineEnd) : ∃ m, Along [] s m ∧ m.AtLineEnd ∧
    ∀ k, (s.pushed k).pass = (.token (m.pushed k).newline.1, (m.pushed k).newline.2) := by
  have hskip (k : Nat) : (s.pushed k).skipBlanks = s.pushed k := skipBlanks_atLineEnd (hend.pushed k)
  have hend' (k : Nat) : (s.pushed k).skipBlanks.AtLineEnd := (hskip k).symm ▸ hend.pushed k
  cases h : s.mode with
  | lineStart | done => simp [h, Mode.inLine] at hmode
  | code | interpolation =>
    refine ⟨s, .refl s, hend, fun k => ?_⟩
    rw [pass_of_code (s := s.pushed k) (by simp [h]), scanCode_over (hend' k), hskip]
    rfl
  | tags =>
    refine ⟨s, .refl s, hend, fun k => ?_⟩
    rw [pass_of_tags (s := s.pushed k) h, scanTag_over (hend' k), hskip]
    rfl
  | text =>
    refine ⟨{ s with textStart := false }, (Along.refl s).congr rfl rfl rfl rfl rfl, hend, fun k => ?_⟩
    rw [pass_of_text (s := s.pushed k) h]
    rw [scanText_eq, begun_over (hend.pushed k), textHead_eq_ending.mpr (hend.pushed k)]
    rfl

end Padded
end Lexer
end Parley
