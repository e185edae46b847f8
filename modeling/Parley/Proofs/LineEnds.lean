import Parley.Files
import Parley.Proofs.Passes

/-! # Every line end is a line feed

The lexer takes a carriage return, with the line feed after it if there is one, as it takes a line feed, and looks at no
line end in any other way. So it makes the same passes over a text in which all of them are line feeds, and what is left
of the text after each pass is again the text with its line ends unified (`Lexer.pass_unified`). -/

namespace Parley

/-- What a character by itself reads as. -/
def unifyChar (c : Char) : Char := if c = '\r' then '\n' else c

section Text
variable {c : Char} {cs q r : List Char} {p : Char → Bool}

theorem unifyChar_of_plain (hc : isLineEnd c = false) : unifyChar c = c := by
  unfold unifyChar
  split
  · next hreturn =>
    rw [hreturn] at hc
    cases hc
  · rfl

@[simp] theorem isLineEnd_unifyChar (c : Char) : isLineEnd (unifyChar c) = isLineEnd c := by
  unfold unifyChar
  split
  · next hreturn =>
    rw [hreturn]
    rfl
  · rfl

theorem unifyChar_ne (c : Char) : unifyChar c ≠ '\r' := by
  unfold unifyChar
  split
  · decide
  · assumption

/-- A class that has all line ends or none. -/
theorem class_unifyChar (hp : p '\r' = p '\n') (c : Char) : p (unifyChar c) = p c := by
  unfold unifyChar
  split
  · next hreturn => rw [hreturn, hp]
  · rfl

theorem exists_unify_cons (c : Char) (cs : List Char) : ∃ rest, unifyLineEnds (c :: cs) = unifyChar c :: rest := by
  unfold unifyLineEnds
  split
  · next h => cases h
  · next h =>
    cases h
    exact ⟨_, rfl⟩
  · next h =>
    cases h
    exact ⟨_, rfl⟩

/-- Where the text does not start with `\r\n`, as the cases of `unifyLineEnds` say it. -/
theorem alone_of_cases (hno : ∀ rest, c = '\r' → cs = '\n' :: rest → False) (hc : c = '\r') : cs.head? ≠ some '\n' := by
  intro hhead
  obtain ⟨rest, rfl⟩ := List.head?_eq_some_iff.mp hhead
  exact hno rest hc rfl

theorem unify_cons_alone (hno : c = '\r' → cs.head? ≠ some '\n') :
    unifyLineEnds (c :: cs) = unifyChar c :: unifyLineEnds cs := by
  rw [unifyLineEnds]
  · rfl
  · rintro rest rfl rfl
    exact hno rfl rfl

theorem unify_cons (hc : isLineEnd c = false) (cs : List Char) : unifyLineEnds (c :: cs) = c :: unifyLineEnds cs := by
  have hno : c ≠ '\r' := by
    rintro rfl
    cases hc
  rw [unify_cons_alone (absurd · hno), unifyChar_of_plain hc]

theorem unify_append (hq : ∀ c ∈ q, isLineEnd c = false) : unifyLineEnds (q ++ r) = q ++ unifyLineEnds r := by
  induction q with
  | nil => rfl
  | cons c q ih =>
    obtain ⟨hc, hq⟩ := List.forall_mem_cons.1 hq
    rw [List.cons_append, unify_cons hc, ih hq, List.cons_append]

theorem unify_plain (hq : ∀ c ∈ q, isLineEnd c = false) : unifyLineEnds q = q := by
  simpa [unifyLineEnds] using unify_append (r := []) hq

theorem head?_unify (cs : List Char) : (unifyLineEnds cs).head? = cs.head?.map unifyChar := by
  cases cs with
  | nil => rfl
  | cons c cs =>
    obtain ⟨rest, hrest⟩ := exists_unify_cons c cs
    rw [hrest]
    rfl

@[simp] theorem isEmpty_unify (cs : List Char) : (unifyLineEnds cs).isEmpty = cs.isEmpty := by
  cases cs with
  | nil => rfl
  | cons c cs =>
    obtain ⟨rest, hrest⟩ := exists_unify_cons c cs
    rw [hrest]
    rfl

theorem any_head?_unify (hp : p '\r' = p '\n') (cs : List Char) :
    (unifyLineEnds cs).head?.any p = cs.head?.any p := by
  rw [head?_unify, Option.any_map]
  exact congrArg (Option.any · cs.head?) (funext (class_unifyChar hp))

theorem head?_unify_eq_some (hc : isLineEnd c = false) : (unifyLineEnds cs).head? = some c ↔ cs.head? = some c := by
  have hother (d : Char) : unifyChar d = c ↔ d = c := by
    constructor
    · rintro rfl
      rw [isLineEnd_unifyChar] at hc
      exact (unifyChar_of_plain hc).symm
    · rintro rfl
      exact unifyChar_of_plain hc
  rw [head?_unify, Option.map_eq_some_iff]
  simp [hother]

/-- What is stopped by a line end stops at the same place. -/
theorem takeWhile_unify (hends : ∀ c, isLineEnd c = true → p c = false) (cs : List Char) :
    (unifyLineEnds cs).takeWhile p = cs.takeWhile p ∧
      (unifyLineEnds cs).dropWhile p = unifyLineEnds (cs.dropWhile p) := by
  induction cs with
  | nil => exact ⟨rfl, rfl⟩
  | cons c cs ih =>
    by_cases hc : isLineEnd c = true
    · obtain ⟨rest, hrest⟩ := exists_unify_cons c cs
      have hstop : p (unifyChar c) = false := hends _ (by rwa [isLineEnd_unifyChar])
      have hstop' : p c = false := hends c hc
      rw [List.takeWhile_cons_of_neg (by simp [hstop']), List.dropWhile_cons_of_neg (by simp [hstop']), hrest]
      simp [hstop]
    · have hc : isLineEnd c = false := by simpa using hc
      rw [unify_cons hc]
      by_cases hp : p c = true
      · simp [hp, ih]
      · simp [hp, unify_cons hc]

theorem lineLength_unify (cs : List Char) : lineLength (unifyLineEnds cs) = lineLength cs := by
  unfold lineLength
  rw [(takeWhile_unify (by simp) cs).1]

theorem isDigit_of_isLineEnd (hc : isLineEnd c = true) : c.isDigit = false := by
  by_contra hdigit
  rw [isLineEnd_of_isDigit (by simpa using hdigit)] at hc
  cases hc

theorem isWordPart_of_isLineEnd (hc : isLineEnd c = true) : isWordPart c = false := by
  by_contra hword
  rw [isLineEnd_of_isWordPart (by simpa using hword)] at hc
  cases hc

theorem numeral_unify (cs : List Char) : numeral (unifyLineEnds cs) = numeral cs := by
  have hdigits := takeWhile_unify (p := Char.isDigit) fun _ => isDigit_of_isLineEnd
  obtain ⟨hwhole, hdrop⟩ := hdigits cs
  refine numeral_congr hwhole (by rw [hdrop, head?_unify_eq_some rfl]) fun tail tail' htail htail' => ?_
  rw [hdrop, htail, unify_cons rfl] at htail'
  cases htail'
  exact (hdigits tail).1

theorem wordHead_unify (cs : List Char) : wordHead (unifyLineEnds cs) = wordHead cs := by
  rw [wordHead, wordHead, any_head?_unify (by decide), (takeWhile_unify (fun _ => isWordPart_of_isLineEnd) cs).1]

theorem tagHead_unify (cs : List Char) : tagHead (unifyLineEnds cs) = tagHead cs := by
  cases cs with
  | nil => rfl
  | cons c tail =>
    by_cases hc : isLineEnd c = true
    · obtain ⟨rest, hrest⟩ := exists_unify_cons c tail
      rw [hrest, tagHead, tagHead, isLineEnd_unifyChar, if_pos hc, if_pos hc]
    · have hvalue := (takeWhile_unify (p := isTagChar) (fun d hd => by simp [isTagChar, hd]) (c :: tail)).1
      rw [unify_cons (by simpa using hc)] at hvalue ⊢
      rw [tagHead, tagHead, hvalue]

theorem lineHead_unify (cs : List Char) : lineHead (unifyLineEnds cs) = lineHead cs := by
  cases cs with
  | nil => rfl
  | cons c tail =>
    by_cases hc : isLineEnd c = true
    · obtain ⟨rest, hrest⟩ := exists_unify_cons c tail
      rw [hrest, lineHead, lineHead, isLineEnd_unifyChar, if_pos hc, if_pos hc]
    · rw [unify_cons (by simpa using hc)]
      simp only [lineHead, head?_unify_eq_some (c := '/') rfl, any_head?_unify (p := isColon) rfl]

/-! ### Free text -/

theorem textRun_unify (stops : Char → Bool) (hstops : ∀ c, isLineEnd c = true → stops c = true) (cs : List Char) :
    textRun stops (unifyLineEnds cs) = ((textRun stops cs).1, unifyLineEnds (textRun stops cs).2) := by
  have hstopped {c : Char} {cs : List Char} (hc : stops c = true) :
      textRun stops (unifyLineEnds (c :: cs)) = ([], unifyLineEnds (c :: cs)) := by
    refine textRun_stop fun d hd => ?_
    rw [head?_unify] at hd
    cases hd
    rwa [class_unifyChar ((hstops _ rfl).trans (hstops _ rfl).symm)]
  have hplain {c : Char} (hc : ¬ stops c = true) : isLineEnd c = false := by
    by_contra hend
    exact hc (hstops c (by simpa using hend))
  fun_induction textRun stops cs with
  | case1 => rfl
  | case2 c hc => exact hstopped hc
  | case3 c hc =>
    rw [unify_cons (hplain hc)]
    exact textRun_cons (by simpa using hc) fun _ => rfl
  | case4 c d tail hc => exact hstopped hc
  | case5 c d tail hc hesc text left heq ih =>
    rw [heq] at ih
    rw [unify_cons (hplain hc), unify_cons (isLineEnd_of_isEscapable (Bool.and_eq_true_iff.mp hesc).2), textRun,
      if_neg hc, if_pos hesc, ih]
  | case6 c d tail hc hesc text left heq ih =>
    rw [heq] at ih
    have hesc : c = '\\' → (unifyLineEnds (d :: tail)).head?.any isEscapable = false := by
      rw [any_head?_unify rfl]
      simpa using hesc
    rw [unify_cons (hplain hc), textRun_cons (by simpa using hc) hesc, ih]

/-! ### Strings -/

section StringBody
variable {quote : Char}

theorem stringBody_stopped (h : ∀ c ∈ cs.head?, isLineEnd c = true) : stringBody quote cs = (none, cs) := by
  cases cs with
  | nil => rfl
  | cons c tail =>
    have hc : isLineEnd c = true := h c rfl
    cases tail <;> simp [stringBody, hc]

theorem stringBody_cons (hc : isLineEnd c = false) (hesc : c = '\\' → cs.head? ≠ some quote) :
    stringBody quote (c :: cs) =
      if c = quote then (some [], cs) else ((stringBody quote cs).1.map (c :: ·), (stringBody quote cs).2) := by
  cases cs with
  | nil => simp [stringBody, hc]
  | cons d tail =>
    have hesc : ¬ (decide (c = '\\') && decide (d = quote)) = true := by simpa using hesc
    rw [stringBody, if_neg (by simp [hc]), if_neg hesc]

theorem stringBody_unify (hquote : isLineEnd quote = false) (cs : List Char) :
    stringBody quote (unifyLineEnds cs) = ((stringBody quote cs).1, unifyLineEnds (stringBody quote cs).2) := by
  have hstopped {c : Char} {cs : List Char} (hc : isLineEnd c = true) :
      stringBody quote (unifyLineEnds (c :: cs)) = (none, unifyLineEnds (c :: cs)) := by
    refine stringBody_stopped fun d hd => ?_
    rw [head?_unify] at hd
    cases hd
    rwa [isLineEnd_unifyChar]
  have hplain {c d : Char} {tail : List Char} (hc : ¬ isLineEnd c = true)
      (hesc : ¬ (decide (c = '\\') && decide (d = quote)) = true) : stringBody quote (unifyLineEnds (c :: d :: tail)) =
        if c = quote then (some [], unifyLineEnds (d :: tail)) else
          ((stringBody quote (unifyLineEnds (d :: tail))).1.map (c :: ·),
            (stringBody quote (unifyLineEnds (d :: tail))).2) := by
    have hc : isLineEnd c = false := by simpa using hc
    have hesc : c = '\\' → (unifyLineEnds (d :: tail)).head? ≠ some quote := by
      intro hslash
      rw [ne_eq, head?_unify_eq_some hquote]
      simpa [hslash] using hesc
    rw [unify_cons hc, stringBody_cons hc hesc]
  fun_induction stringBody quote cs with
  | case1 => rfl
  | case2 c hc => exact hstopped hc
  | case3 hc =>
    rw [unify_cons hquote]
    exact (stringBody_cons hquote (by simp [unifyLineEnds])).trans (if_pos rfl)
  | case4 c hc hne =>
    have hc : isLineEnd c = false := by simpa using hc
    rw [unify_cons hc]
    exact (stringBody_cons hc (by simp [unifyLineEnds])).trans (if_neg hne)
  | case5 c d tail hc => exact hstopped hc
  | case6 c d tail hc hesc inner after heq ih =>
    simp only [Bool.and_eq_true, decide_eq_true_eq] at hesc
    obtain ⟨rfl, rfl⟩ := hesc
    rw [heq] at ih
    rw [unify_cons rfl, unify_cons hquote, stringBody, if_neg hc, if_pos (by simp), ih]
  | case7 d tail hc hesc => rw [hplain hc hesc, if_pos rfl]
  | case8 c d tail hc hesc hne inner after heq ih =>
    rw [heq] at ih
    rw [hplain hc hesc, if_neg hne, ih]

end StringBody
end Text

/-- A mark of two characters does not end in a line end. -/
theorem Punctuator.ofChars_unify (c : Char) (second : Option Char) :
    ofChars c (second.map unifyChar) = ofChars c second := by
  have hany {p : Char → Bool} (hp : p '\r' = p '\n') : (second.map unifyChar).any p = second.any p := by
    rw [Option.any_map]
    exact congrArg (Option.any · second) (funext (class_unifyChar hp))
  have hsame {d : Char} (hd : isLineEnd d = false) : (second.map unifyChar == some d) = (second == some d) := by
    have hiff : (unifyLineEnds second.toList).head? = some d ↔ second.toList.head? = some d := head?_unify_eq_some hd
    rw [head?_unify, Option.head?_toList] at hiff
    exact Bool.eq_iff_iff.2 (by simpa using hiff)
  unfold ofChars
  rw [hany (p := isColon) rfl, hany (p := isArrowHead) rfl, hsame (d := '=') rfl, hsame (d := '&') rfl,
    hsame (d := '|') rfl]

namespace CodeHead
variable {c quote : Char} {tail : List Char}

theorem ofString_unify (hquote : isLineEnd quote = false) : ofString quote (unifyLineEnds tail) = ofString quote tail := by
  have hunify := stringBody_unify hquote tail
  rcases hbody : stringBody quote tail with ⟨body, left⟩
  obtain ⟨p, hp, hplain⟩ := stringBody_stretch hquote hbody
  rw [hbody] at hunify
  rw [ofString_eq hbody hp, ofString_eq hunify (by rw [hp, unify_append hplain])]

theorem ofMark_unify (c : Char) (second : Option Char) : ofMark c (second.map unifyChar) = ofMark c second := by
  have hfits := Punctuator.fits_ofChars c second
  unfold ofMark
  rw [Punctuator.ofChars_unify]
  cases hmark : Punctuator.ofChars c second with
  | broken => rfl
  | token kind value width =>
    rw [hmark] at hfits
    obtain ⟨rfl | ⟨rfl, d, rfl, hplain⟩, -⟩ := hfits
    · rfl
    · rw [Option.map_some, unifyChar_of_plain hplain]

end CodeHead

/-- Code tells no line ends apart. -/
theorem codeHead_unify (cs : List Char) : codeHead (unifyLineEnds cs) = codeHead cs := by
  cases cs with
  | nil => rfl
  | cons c tail =>
    by_cases hc : isLineEnd c = true
    · obtain ⟨rest, hrest⟩ := exists_unify_cons c tail
      rw [hrest, codeHead, codeHead, isLineEnd_unifyChar, if_pos hc, if_pos hc]
    · have hplain : isLineEnd c = false := by simpa using hc
      have hword := wordHead_unify (c :: tail)
      have hnumeral := numeral_unify (c :: tail)
      rw [unify_cons hplain] at hword hnumeral ⊢
      rw [codeHead, codeHead, hword, hnumeral, wordHead_unify, CodeHead.ofString_unify hplain]
      simp only [head?_unify_eq_some (c := '/') rfl]
      rw [head?_unify, CodeHead.ofMark_unify]

namespace Lexer

/-- The lexer of the text in which every line end that is left is a line feed. -/
def unified (s : Lexer) : Lexer := { s with rest := unifyLineEnds s.rest }

section Unified
variable {s : Lexer} {c : Char} {p q tail : List Char}

@[simp] theorem rest_unified : s.unified.rest = unifyLineEnds s.rest := rfl
@[simp] theorem mode_unified : s.unified.mode = s.mode := rfl

/-- A stretch of a line is the same stretch. -/
theorem advance_unified (h : Along p s (s.advance p.length)) :
    s.unified.advance p.length = (s.advance p.length).unified := by
  have hdrop : (unifyLineEnds s.rest).drop p.length = unifyLineEnds (s.rest.drop p.length) := by
    have hrest : s.rest = p ++ s.rest.drop p.length := h.rest
    rw [hrest, unify_append h.plain, List.drop_left, List.drop_left]
  simp [Lexer.advance, unified, hdrop]

theorem moveTo_unified (q : List Char) : s.unified.moveTo (unifyLineEnds q) = (s.moveTo q).unified := by
  simp [Lexer.moveTo, unified, lineLength_unify]

theorem skipBlanks_unified : s.unified.skipBlanks = s.skipBlanks.unified := by
  obtain ⟨htake, hdrop⟩ := takeWhile_unify (p := isBlank) (fun _ => isBlank_of_isLineEnd) s.rest
  simp [skipBlanks, unified, htake, hdrop]

theorem consumeNewline_unified : s.unified.consumeNewline = s.consumeNewline.unified := by
  cases hrest : s.rest with
  | nil => simp [consumeNewline, unified, hrest, unifyLineEnds]
  | cons c tail =>
    by_cases hcrlf : c = '\r' ∧ tail.head? = some '\n'
    · obtain ⟨rfl, hhead⟩ := hcrlf
      obtain ⟨tail, rfl⟩ := List.head?_eq_some_iff.mp hhead
      have hunified : s.unified.rest = '\n' :: unifyLineEnds tail := by rw [rest_unified, hrest, unifyLineEnds]
      rw [consumeNewline_cons hunified (by simp)]
      simp [consumeNewline, hrest, unified, isLineEnd]
    · have hno : c = '\r' → tail.head? ≠ some '\n' := fun hc hhead => hcrlf ⟨hc, hhead⟩
      have hunified : s.unified.rest = unifyChar c :: unifyLineEnds tail := by
        rw [rest_unified, hrest, unify_cons_alone hno]
      rw [consumeNewline_cons hrest hno, consumeNewline_cons hunified (absurd · (unifyChar_ne c)), isLineEnd_unifyChar]
      split <;> rfl

theorem newline_unified : s.unified.newline = s.newline.map id unified := by
  unfold newline
  rw [consumeNewline_unified]
  rfl

theorem word_unified : s.unified.word = s.word := by
  rw [word_eq, word_eq, rest_unified, wordHead_unify]

theorem take_unified (h : Along p s (s.advance p.length)) (kind : TokenKind) :
    s.unified.take kind p = (s.take kind p).map id unified := by
  unfold take
  rw [advance_unified h]
  rfl

/-- A comment is passed over up to the end of its line. -/
theorem advance_comment_unified :
    s.unified.advance (lineLength s.unified.rest) = (s.advance (lineLength s.rest)).unified := by
  obtain ⟨p, hp, hcomment, -⟩ := Along.comment s
  rw [rest_unified, lineLength_unify, ← hp, advance_unified (hp ▸ hcomment)]

/-! ### Code -/

theorem readCode_unified : s.unified.readCode (codeHead s.rest) = (s.readCode (codeHead s.rest)).map id unified := by
  have hfits := fits_codeHead s.rest
  unfold readCode
  cases hhead : codeHead s.rest with
  | ending =>
    dsimp only
    rw [newline_unified]
    rfl
  | comment =>
    dsimp only
    rw [advance_comment_unified, newline_unified]
    rfl
  | token kind value text =>
    rw [hhead] at hfits
    obtain ⟨-, hbegins, hplain, -⟩ := hfits
    dsimp only
    rw [advance_unified (.stretch hbegins hplain)]
    rfl
  | refused cause text =>
    rw [hhead] at hfits
    dsimp only
    rw [advance_unified (.stretch hfits.1 hfits.2)]
    rfl

theorem scanCode_unified : s.unified.scanCode = s.scanCode.map id unified := by
  rw [scanCode_eq, scanCode_eq, skipBlanks_unified, rest_unified, codeHead_unify, readCode_unified]

/-! ### Tags and text -/

theorem scanTag_unified : s.unified.scanTag = s.scanTag.map id unified := by
  have hblank := head?_skipBlanks s
  rw [scanTag_eq, scanTag_eq, skipBlanks_unified, rest_unified, tagHead_unify]
  generalize s.skipBlanks = m at *
  cases hhead : tagHead m.rest with
  | none => exact newline_unified
  | some head =>
    obtain ⟨-, hbegins, hplain, -⟩ := tagHead_fits hblank hhead
    exact take_unified (.stretch hbegins hplain) head.1

theorem begun_unified : s.unified.begun = s.begun.unified := by
  unfold begun
  rw [skipBlanks_unified, apply_ite unified]
  rfl

theorem textHead_unify (inChoice : Bool) (cs : List Char) :
    textHead inChoice (unifyLineEnds cs).head? = textHead inChoice cs.head? := by
  rw [head?_unify]
  cases cs.head? with
  | none => rfl
  | some c =>
    by_cases hc : isLineEnd c = true
    · rw [Option.map_some, textHead, textHead, isLineEnd_unifyChar, if_pos hc, if_pos hc]
    · rw [Option.map_some, unifyChar_of_plain (by simpa using hc)]

theorem readRun_unified (c : Bool) : s.unified.readRun (textRun (textStops c) (unifyLineEnds s.rest)) =
    (s.readRun (textRun (textStops c) s.rest)).map id unified := by
  rw [textRun_unify _ (textStops_lineEnd c)]
  unfold readRun
  simp only [head?_unify_eq_some (c := '\x7b') rfl, moveTo_unified]
  rfl

theorem scanText_unified : s.unified.scanText = s.scanText.map id unified := by
  rw [scanText_eq, scanText_eq, begun_unified, rest_unified, textHead_unify]
  generalize s.begun = m
  have hchoice : m.unified.inChoice = m.inChoice := rfl
  rw [hchoice]
  cases hhead : textHead m.inChoice m.rest.head? with
  | ending =>
    unfold readText
    dsimp only
    rw [newline_unified]
    rfl
  | mark kind value mode =>
    obtain ⟨c, tail, hrest, hc⟩ := exists_cons_of_textHead (hhead.trans_ne nofun)
    have hone : m.unified.advance 1 = (m.advance 1).unified := advance_unified (p := [c]) (.one hrest hc)
    unfold readText
    dsimp only
    rw [hone]
    rfl
  | run => exact readRun_unified m.inChoice

/-! ### The start of a line -/

theorem indentTo_unified (indent : Nat) : s.unified.indentTo indent = (s.indentTo indent).map id unified := by
  have hlevels : s.unified.levels = s.levels := rfl
  unfold indentTo
  rw [hlevels]
  dsimp only
  split
  · rfl
  · split <;> rfl

theorem queueSpeaker_unified : s.unified.queueSpeaker = s.queueSpeaker.unified := by
  have hline : (unifyLineEnds s.rest).take (lineLength (unifyLineEnds s.rest)) = s.rest.take (lineLength s.rest) := by
    rw [take_lineLength, take_lineLength, (takeWhile_unify (by simp) s.rest).1]
  unfold queueSpeaker
  rw [rest_unified, hline]
  cases hspeaker : speakerHead? (s.rest.take (lineLength s.rest)) with
  | none => rfl
  | some head =>
    dsimp only
    split
    · rfl
    · obtain ⟨p, htaken, halong⟩ := Along.speaker (s := s.queue (s.speakerTokens head (trim head.name))) hspeaker
      rw [← htaken]
      exact advance_unified halong

theorem opensStatement_unified : s.unified.opensStatement = s.opensStatement := by
  have hafter := congrArg rest (advance_unified (Along.word s))
  simp only [rest_advance, rest_unified] at hafter
  unfold opensStatement
  dsimp only
  rw [word_unified, rest_unified, hafter, head?_unify, Option.all_map]
  congr 2
  exact funext (class_unifyChar (p := fun c => isBlank c || isLineEnd c) rfl)

theorem classify_unified (hrest : s.rest = c :: tail) (hc : isLineEnd c = false) :
    s.unified.classify = s.classify.unified := by
  have hhead : (unifyLineEnds s.rest).head? = s.rest.head? := by
    rw [hrest, unify_cons hc]
    rfl
  have hsecond : (unifyLineEnds s.rest).tail.head?.any isArrowHead = s.rest.tail.head?.any isArrowHead := by
    rw [hrest, unify_cons hc]
    exact any_head?_unify rfl tail
  unfold classify
  dsimp only
  rw [opensStatement_unified, queueSpeaker_unified, rest_unified, hhead, hsecond]
  simp only [apply_ite unified]
  split
  · next harrow =>
    rw [hrest] at harrow
    simp only [Bool.and_eq_true, Option.any_eq_true] at harrow
    obtain ⟨-, d, hd, harrow⟩ := harrow
    obtain ⟨tail, rfl⟩ := List.head?_eq_some_iff.mp hd
    have hplain : isLineEnd d = false := by
      simp only [isArrowHead, Bool.or_eq_true, beq_iff_eq] at harrow
      rcases harrow with rfl | rfl <;> rfl
    have htwo := advance_unified (s := s.queue [s.tokenHere .arrow "->"]) (p := [c, d])
      (.advance (q := tail) hrest (by simp [hc, hplain]))
    exact congrArg (enterText · true) htwo
  · split
    · rfl
    · split <;> rfl

theorem openContent_unified (hrest : s.rest = c :: tail) (hc : isLineEnd c = false) (indent : Nat) :
    s.unified.openContent indent = (s.openContent indent).map id unified := by
  have hkept := rest_indentTo (s := s) indent
  unfold openContent
  rw [indentTo_unified]
  rcases hindented : s.indentTo indent with ⟨_ | e, m⟩
  · rw [hindented] at hkept
    exact congrArg _ (classify_unified (hkept.trans hrest) hc)
  · rfl

theorem startLine_unified : s.unified.startLine = s.startLine.map id unified := by
  by_cases hnil : s.rest = []
  · have hnil' : s.unified.rest = [] := by rw [rest_unified, hnil, unifyLineEnds]
    rw [startLine_nil hnil, startLine_nil hnil']
    rfl
  have hne : s.unified.rest ≠ [] := by
    rwa [rest_unified, ← List.isEmpty_eq_false_iff, isEmpty_unify, List.isEmpty_eq_false_iff]
  have hindent : s.unified.rest.takeWhile isBlank = s.rest.takeWhile isBlank :=
    (takeWhile_unify (fun _ => isBlank_of_isLineEnd) s.rest).1
  rw [startLine_eq hnil, startLine_eq hne, hindent, skipBlanks_unified, rest_unified, lineHead_unify]
  cases hhead : lineHead s.skipBlanks.rest with
  | nothing => exact congrArg (Prod.mk none) consumeNewline_unified
  | comment =>
    unfold openLine
    dsimp only
    rw [advance_comment_unified, consumeNewline_unified]
    rfl
  | header => rfl
  | content =>
    obtain ⟨c, tail, hrest, hc⟩ := exists_cons_of_lineHead (hhead.trans_ne nofun)
    exact openContent_unified hrest hc _

/-- One pass over the text with its line ends unified. -/
theorem pass_unified (s : Lexer) : s.unified.pass = s.pass.map id unified := by
  unfold pass
  rw [mode_unified, startLine_unified, scanCode_unified, scanText_unified, scanTag_unified]
  cases s.mode with
  | lineStart => rcases s.startLine with ⟨_ | e, s'⟩ <;> rfl
  | code | interpolation => rcases s.scanCode with ⟨e | t, s'⟩ <;> rfl
  | text => rcases s.scanText with ⟨_ | t, s'⟩ <;> rfl
  | tags => rfl
  | done => rfl

end Unified
end Lexer
end Parley
