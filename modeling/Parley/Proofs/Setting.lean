import Parley.Proofs.Passes

/-! # A lexer in a larger text

A lexer never looks past the line that it is on. So if its text ends in a line feed it makes the same passes with more
text behind it, and with more lines in front of it the places of its tokens and of its error move down and nothing else
changes (`pass_token_within`, `pass_again_within`, `pass_failed_within`). What is left over from earlier lines is of no
use to it either: whether the last text belonged to a choice matters only inside a text (`Fits`). Levels of indentation
are all that a line hands on. -/

namespace Parley

/-- The text ends in a line feed, unless nothing comes after it. -/
def Bounded (x cs : List Char) : Prop := x = [] ∨ cs.getLast? = some '\n'

section Text
variable {x cs rest : List Char} {c : Char} {p : Char → Bool}

theorem Bounded.nil (h : Bounded x []) : x = [] := by
  rcases h with h | h
  · exact h
  · cases h

theorem Bounded.mem (h : Bounded x cs) : x = [] ∨ '\n' ∈ cs := h.imp_right List.mem_of_getLast?

/-- What is left of a line is bounded as the text was. -/
theorem Bounded.of_append (h : Bounded x (cs ++ rest)) (hplain : ∀ c ∈ cs, isLineEnd c = false) : Bounded x rest := by
  refine h.imp_right fun hlast => ?_
  cases rest with
  | nil =>
    rw [List.append_nil] at hlast
    cases hplain _ (List.mem_of_getLast? hlast)
  | cons c rest => simpa [List.getLast?_append, List.getLast?_cons] using hlast

theorem Bounded.tail (h : Bounded x (c :: rest)) (hc : isLineEnd c = false) : Bounded x rest := by
  rw [← List.singleton_append] at h
  exact h.of_append (by simpa using hc)

/-- What comes next belongs to the text. -/
theorem Bounded.head? (h : Bounded x cs) : (cs ++ x).head? = cs.head? := by
  cases cs with
  | nil => simp [h.nil]
  | cons c cs => rfl

theorem takeWhile_bounded (h : Bounded x cs) (hp : p '\n' = false) :
    (cs ++ x).takeWhile p = cs.takeWhile p ∧ (cs ++ x).dropWhile p = cs.dropWhile p ++ x := by
  rcases h.mem with rfl | hmem
  · simp
  · clear h
    induction cs with
    | nil => cases hmem
    | cons c cs ih =>
      by_cases hc : p c = true
      · have hmem : '\n' ∈ cs := by
          rcases List.mem_cons.mp hmem with rfl | hmem
          · rw [hp] at hc
            cases hc
          · exact hmem
        simp [hc, ih hmem]
      · simp [hc]

theorem lineLength_bounded (h : Bounded x cs) : lineLength (cs ++ x) = lineLength cs := by
  unfold lineLength
  rw [(takeWhile_bounded h (by decide)).1]

theorem numeral_bounded (h : Bounded x cs) : numeral (cs ++ x) = numeral cs := by
  obtain ⟨htake, hdrop⟩ := takeWhile_bounded (p := Char.isDigit) h (by decide)
  have hrest : Bounded x (cs.dropWhile Char.isDigit) := by
    have hsplit := List.takeWhile_append_dropWhile (p := Char.isDigit) (l := cs)
    rw [← hsplit] at h
    exact h.of_append fun c hc => isLineEnd_of_isDigit (List.mem_takeWhile_imp hc)
  refine numeral_congr htake (by rw [hdrop, hrest.head?]) fun tail tail' htail htail' => ?_
  rw [hdrop, htail] at htail'
  cases htail'
  rw [htail] at hrest
  exact (takeWhile_bounded (hrest.tail rfl) (by decide)).1

theorem lineHead_bounded (h : Bounded x cs) : lineHead (cs ++ x) = lineHead cs := by
  cases cs with
  | nil => rw [h.nil, List.append_nil]
  | cons c tail =>
    rw [List.cons_append, lineHead, lineHead]
    split
    · rfl
    · next hc => rw [(h.tail (by simpa using hc)).head?]

theorem textRun_bounded {stops : Char → Bool} (hstops : ∀ c, isLineEnd c = true → stops c = true) (h : Bounded x cs) :
    textRun stops (cs ++ x) = ((textRun stops cs).1, (textRun stops cs).2 ++ x) := by
  have hplain {c : Char} (hc : ¬ stops c = true) : isLineEnd c = false := by
    by_contra hend
    exact hc (hstops c (by simpa using hend))
  fun_induction textRun stops cs with
  | case1 =>
    rw [h.nil]
    rfl
  | case2 c hc =>
    cases x with
    | nil => simp [textRun, hc]
    | cons d x => simp [textRun, hc]
  | case3 c hc =>
    rw [(h.tail (hplain hc)).nil]
    simp [textRun, hc]
  | case4 c d tail hc => simp [textRun, hc]
  | case5 c d tail hc hesc text left heq ih =>
    have hd := isLineEnd_of_isEscapable (Bool.and_eq_true_iff.mp hesc).2
    have ih := ih ((h.tail (hplain hc)).tail hd)
    rw [heq] at ih
    simp [textRun, hc, hesc, ih]
  | case6 c d tail hc hesc text left heq ih =>
    have ih := ih (h.tail (hplain hc))
    rw [heq] at ih
    simp only [List.cons_append] at ih ⊢
    rw [textRun, if_neg hc, if_neg hesc, ih]

theorem stringBody_bounded {quote : Char} (hquote : isLineEnd quote = false) (h : Bounded x cs) :
    stringBody quote (cs ++ x) = ((stringBody quote cs).1, (stringBody quote cs).2 ++ x) := by
  fun_induction stringBody quote cs with
  | case1 =>
    rw [h.nil]
    rfl
  | case2 c hc => cases x <;> simp [stringBody, hc]
  | case3 hc =>
    rw [(h.tail hquote).nil]
    simp [stringBody, hquote]
  | case4 c hc hne =>
    rw [(h.tail (by simpa using hc)).nil]
    simp [stringBody, hc, hne]
  | case5 c d tail hc => simp [stringBody, hc]
  | case6 c d tail hc hesc inner after heq ih =>
    simp only [Bool.and_eq_true, decide_eq_true_eq] at hesc
    obtain ⟨rfl, rfl⟩ := hesc
    have ih := ih ((h.tail rfl).tail hquote)
    rw [heq] at ih
    simp [stringBody, hc, ih]
  | case7 d tail hc hesc => simp [stringBody, hc, hesc]
  | case8 c d tail hc hesc hne inner after heq ih =>
    have ih := ih (h.tail (by simpa using hc))
    rw [heq] at ih
    simp only [List.cons_append] at ih ⊢
    rw [stringBody, if_neg hc, if_neg hesc, if_neg hne, ih]

theorem wordHead_bounded (h : Bounded x cs) : wordHead (cs ++ x) = wordHead cs := by
  rw [wordHead, wordHead, h.head?, (takeWhile_bounded h (by decide)).1]

theorem CodeHead.ofString_bounded {quote : Char} (hquote : isLineEnd quote = false) (h : Bounded x cs) :
    ofString quote (cs ++ x) = ofString quote cs := by
  have hbounded := stringBody_bounded hquote h
  rcases hbody : stringBody quote cs with ⟨body, left⟩
  obtain ⟨p, hp, -⟩ := stringBody_stretch hquote hbody
  rw [hbody] at hbounded
  rw [ofString_eq hbody hp, ofString_eq hbounded (by rw [hp, List.append_assoc])]

/-- Code never looks past the line. -/
theorem codeHead_bounded (h : Bounded x cs) : codeHead (cs ++ x) = codeHead cs := by
  cases cs with
  | nil => rw [h.nil, List.append_nil]
  | cons c tail =>
    have hword := wordHead_bounded h
    have hnumeral := numeral_bounded h
    rw [List.cons_append] at hword hnumeral ⊢
    rw [codeHead, codeHead]
    by_cases hc : isLineEnd c = true
    · rw [if_pos hc, if_pos hc]
    · have hc : isLineEnd c = false := by simpa using hc
      have htail := h.tail hc
      rw [hword, hnumeral, htail.head?, CodeHead.ofString_bounded hc htail, wordHead_bounded htail]

theorem tagHead_bounded (h : Bounded x cs) : tagHead (cs ++ x) = tagHead cs := by
  cases cs with
  | nil => rw [h.nil, List.append_nil]
  | cons c tail =>
    have hvalue := (takeWhile_bounded (p := isTagChar) h (by decide)).1
    rw [List.cons_append] at hvalue ⊢
    rw [tagHead, tagHead, hvalue]

end Text

/-- The token so many lines further down. -/
def Token.down (n : Nat) (t : Token) : Token := { t with line := t.line + n }

@[simp] theorem Token.down_zero : Token.down 0 = id := funext fun t => by simp [Token.down]

/-- The error so many lines further down. -/
def LexError.down (n : Nat) (e : LexError) : LexError := { e with line := e.line + n }

theorem LexError.down_zero : LexError.down 0 = id := rfl

namespace Lexer

/-- What scanning code comes to so many lines further down. -/
def readDown (n : Nat) : Except LexError Token → Except LexError Token
  | .ok t => .ok (t.down n)
  | .error e => .error (e.down n)

/-- The lexer with `n` more lines before its own and `x` after its text, and with these flags of the line. -/
def within (n : Nat) (x : List Char) (inChoice textStart : Bool) (s : Lexer) : Lexer :=
  { s with
    rest := s.rest ++ x
    line := s.line + n
    pending := s.pending.map (Token.down n)
    inChoice := inChoice
    textStart := textStart }

section Within
variable {s s' m : Lexer} {t : Token} {n : Nat} {x : List Char} {a b : Bool} {p q : List Char}

@[simp] theorem rest_within : (s.within n x a b).rest = s.rest ++ x := rfl
@[simp] theorem mode_within : (s.within n x a b).mode = s.mode := rfl

theorem within_self (s : Lexer) : s.within 0 [] s.inChoice s.textStart = s := by
  simp [within]

@[simp] theorem tokenHere_within (kind : TokenKind) (value : String) :
    (s.within n x a b).tokenHere kind value = (s.tokenHere kind value).down n := by
  simp [tokenHere, within, Token.down]

theorem advance_within (h : s.rest = p ++ q) :
    (s.within n x a b).advance p.length = (s.advance p.length).within n x a b := by
  simp [Lexer.advance, within, h]

theorem moveTo_within (hx : Bounded x s.rest) (h : Bounded x q) :
    (s.within n x a b).moveTo (q ++ x) = (s.moveTo q).within n x a b := by
  simp [Lexer.moveTo, within, lineLength_bounded hx, lineLength_bounded h]

theorem skipBlanks_within (hx : Bounded x s.rest) : (s.within n x a b).skipBlanks = s.skipBlanks.within n x a b := by
  obtain ⟨htake, hdrop⟩ := takeWhile_bounded (p := isBlank) hx rfl
  simp [skipBlanks, within, htake, hdrop]

theorem consumeNewline_within (hx : Bounded x s.rest) :
    (s.within n x a b).consumeNewline = s.consumeNewline.within n x a b := by
  have hline : s.line + n + 1 = s.line + 1 + n := by omega
  cases hrest : s.rest with
  | nil =>
    rw [hrest] at hx
    simp [consumeNewline, hrest, hx.nil, within]
  | cons c tail =>
    by_cases hcrlf : c = '\r' ∧ tail.head? = some '\n'
    · obtain ⟨rfl, hhead⟩ := hcrlf
      obtain ⟨tail, rfl⟩ := List.head?_eq_some_iff.mp hhead
      simp [consumeNewline, hrest, within, hline]
    · have hno : c = '\r' → tail.head? ≠ some '\n' := fun hc hhead => hcrlf ⟨hc, hhead⟩
      have hno' : c = '\r' → (tail ++ x).head? ≠ some '\n' := by
        rintro rfl hhead
        cases tail with
        | nil =>
          rw [hrest] at hx
          obtain rfl : x = [] := hx.resolve_right (by simp)
          cases hhead
        | cons d tail => exact hno rfl hhead
      rw [consumeNewline_cons hrest hno, consumeNewline_cons (by simp [hrest]) hno']
      split
      · simp [within, hline]
      · rfl

/-- A comment is passed over as it is in the text alone. -/
theorem advance_comment_within (hx : Bounded x s.rest) :
    (s.within n x a b).advance (lineLength (s.within n x a b).rest) = (s.advance (lineLength s.rest)).within n x a b ∧
      Bounded x (s.advance (lineLength s.rest)).rest := by
  obtain ⟨p, hp, hcomment, -⟩ := Along.comment s
  rw [rest_within, lineLength_bounded hx, ← hp]
  rw [← hp] at hcomment
  exact ⟨advance_within hcomment.rest, (hcomment.rest ▸ hx).of_append hcomment.plain⟩

theorem newline_within (hx : Bounded x s.rest) :
    (s.within n x a b).newline = (s.newline.1.down n, s.newline.2.within n x a b) := by
  simp only [newline, consumeNewline_within hx, tokenHere_within]
  rfl

theorem word_within (hx : Bounded x s.rest) : (s.within n x a b).word = s.word := by
  rw [word_eq, word_eq, rest_within, wordHead_bounded hx]

theorem bounded_skipBlanks (hx : Bounded x s.rest) : Bounded x s.skipBlanks.rest := by
  have hblanks := Along.skipBlanks s
  exact (hblanks.rest ▸ hx).of_append hblanks.plain

theorem readCode_within (hx : Bounded x s.rest) :
    (s.within n x a b).readCode (codeHead s.rest) =
      (s.readCode (codeHead s.rest)).map (readDown n) (within n x a b) := by
  have hfits := fits_codeHead s.rest
  unfold readCode
  cases hhead : codeHead s.rest with
  | ending =>
    dsimp only
    rw [newline_within hx]
    rfl
  | comment =>
    obtain ⟨hcomment, hx'⟩ := advance_comment_within (n := n) (a := a) (b := b) hx
    dsimp only
    rw [hcomment, newline_within hx']
    rfl
  | token kind value text =>
    rw [hhead] at hfits
    obtain ⟨-, ⟨q, hq⟩, -⟩ := hfits
    dsimp only
    rw [advance_within hq.symm, tokenHere_within, mode_within]
    rfl
  | refused cause text =>
    rw [hhead] at hfits
    obtain ⟨⟨q, hq⟩, -⟩ := hfits
    dsimp only
    rw [advance_within hq.symm]
    rfl

theorem scanCode_within (hx : Bounded x s.rest) :
    (s.within n x a b).scanCode = s.scanCode.map (readDown n) (within n x a b) := by
  have hx' := bounded_skipBlanks hx
  rw [scanCode_eq, scanCode_eq, skipBlanks_within hx, rest_within, codeHead_bounded hx', readCode_within hx']

theorem scanTag_within (hx : Bounded x s.rest) :
    (s.within n x a b).scanTag = s.scanTag.map (Token.down n) (within n x a b) := by
  have hx' := bounded_skipBlanks hx
  have hblank := head?_skipBlanks s
  rw [scanTag_eq, scanTag_eq, skipBlanks_within hx, rest_within, tagHead_bounded hx']
  generalize s.skipBlanks = m at *
  cases hhead : tagHead m.rest with
  | none => exact newline_within hx'
  | some head =>
    obtain ⟨-, ⟨q, hq⟩, -⟩ := tagHead_fits hblank hhead
    unfold readTag take
    dsimp only
    rw [advance_within hq.symm, tokenHere_within]
    rfl

theorem flags_newline (s : Lexer) : s.newline.2.inChoice = s.inChoice ∧ s.newline.2.textStart = s.textStart := by
  unfold newline consumeNewline
  dsimp only
  split
  · exact ⟨rfl, rfl⟩
  · split <;> exact ⟨rfl, rfl⟩
  · exact ⟨rfl, rfl⟩

theorem begun_within (hx : Bounded x s.rest) : Bounded x s.begun.rest ∧
    (s.within n x s.inChoice s.textStart).begun = s.begun.within n x s.begun.inChoice s.begun.textStart := by
  have hblanks := Along.skipBlanks s
  by_cases hstart : s.textStart = true
  · have hown : (s.within n x s.inChoice s.textStart).textStart = true := hstart
    unfold begun
    rw [if_pos hstart, if_pos hown, skipBlanks_within hx]
    exact ⟨(hblanks.rest ▸ hx).of_append hblanks.plain, rfl⟩
  · have hstart : s.textStart = false := by simpa using hstart
    rw [begun_eq_self hstart, begun_eq_self (s := s.within n x s.inChoice s.textStart) hstart]
    exact ⟨hx, rfl⟩

theorem readRun_within (hx : Bounded x s.rest) (c : Bool) :
    (s.within n x a b).readRun (textRun (textStops c) (s.rest ++ x)) =
      (s.readRun (textRun (textStops c) s.rest)).map (Option.map (Token.down n)) (within n x a b) := by
  have hlines := textStops_lineEnd c
  obtain ⟨q, hq, hplain, -⟩ := textRun_stretch hlines s.rest
  have hleft : Bounded x (textRun (textStops c) s.rest).2 := (hq ▸ hx : Bounded x (q ++ _)).of_append hplain
  rw [textRun_bounded hlines hx]
  unfold readRun
  dsimp only
  rw [hleft.head?, moveTo_within hx hleft, tokenHere_within, Prod.map_apply, apply_ite (Option.map (Token.down n))]
  rfl

/-- The flags of a line matter in its text. -/
theorem scanText_within {o : Option Token} (hx : Bounded x s.rest) (hs : s.scanText = (o, s')) :
    (s.within n x s.inChoice s.textStart).scanText = (o.map (Token.down n), s'.within n x s'.inChoice s'.textStart) := by
  obtain ⟨hx, hbegun⟩ := begun_within (n := n) hx
  rw [scanText_eq] at hs ⊢
  rw [hbegun, rest_within, hx.head?]
  generalize s.begun = m at *
  have hchoice : (m.within n x m.inChoice m.textStart).inChoice = m.inChoice := rfl
  rw [hchoice]
  cases hhead : textHead m.inChoice m.rest.head? with
  | ending =>
    rw [hhead] at hs
    cases hs
    unfold readText
    dsimp only
    rw [newline_within hx, (flags_newline m).1, (flags_newline m).2]
    rfl
  | mark kind value mode =>
    rw [hhead] at hs
    cases hs
    obtain ⟨c, tail, hrest, -⟩ := exists_cons_of_textHead (hhead.trans_ne nofun)
    have hone : (m.within n x m.inChoice m.textStart).advance 1 = (m.advance 1).within n x m.inChoice m.textStart :=
      advance_within (p := [c]) hrest
    unfold readText
    dsimp only
    rw [hone, tokenHere_within]
    rfl
  | run =>
    rw [hhead] at hs
    unfold readText
    dsimp only
    rw [hchoice, rest_within, readRun_within hx]
    cases hs
    rfl

theorem queue_within (ts : List Token) : (s.within n x a b).queue (ts.map (Token.down n)) = (s.queue ts).within n x a b := by
  simp [queue, within]

theorem closeBlocks_within : (s.within n x a b).closeBlocks = s.closeBlocks.within n x a b := by
  simp [closeBlocks, queue, within, Token.down, tokenHere]

@[simp] theorem levels_within : (s.within n x a b).levels = s.levels := rfl

theorem indentTo_within (indent : Nat) :
    (s.within n x a b).indentTo indent =
      (s.indentTo indent).map (Option.map (LexError.down n)) (within n x a b) := by
  unfold indentTo
  rw [levels_within]
  dsimp only
  split
  · rw [tokenHere_within, ← List.map_singleton, queue_within]
    rfl
  · rw [tokenHere_within, ← List.map_replicate, queue_within]
    split <;> rfl

theorem mode_indentTo (indent : Nat) : (s.indentTo indent).2.mode = s.mode := by
  unfold indentTo
  dsimp only
  split
  · rfl
  · split <;> rfl

theorem speakerTokens_within (head : SpeakerHead) (name : List Char) :
    (s.within n x a b).speakerTokens head name = (s.speakerTokens head name).map (Token.down n) := by
  unfold speakerTokens
  cases head.emotion <;> simp [tokenHere, within, Token.down]

theorem queueSpeaker_within (hx : Bounded x s.rest) :
    (s.within n x a b).queueSpeaker = s.queueSpeaker.within n x a b := by
  have hline : (s.rest ++ x).take (lineLength (s.rest ++ x)) = s.rest.take (lineLength s.rest) := by
    rw [take_lineLength, take_lineLength, (takeWhile_bounded hx (by decide)).1]
  unfold queueSpeaker
  rw [rest_within, hline]
  cases hspeaker : speakerHead? (s.rest.take (lineLength s.rest)) with
  | none => rfl
  | some head =>
    dsimp only
    rw [speakerTokens_within, queue_within]
    split
    · rfl
    · obtain ⟨p, htaken, halong⟩ := Along.speaker (s := s.queue (s.speakerTokens head (trim head.name))) hspeaker
      rw [← htaken]
      exact advance_within halong.rest

theorem opensStatement_within (hx : Bounded x s.rest) : (s.within n x a b).opensStatement = s.opensStatement := by
  have hword := Along.word s
  have hrest : Bounded x (s.rest.drop s.word.length) := (hword.rest ▸ hx).of_append hword.plain
  have hdrop : (s.rest ++ x).drop s.word.length = s.rest.drop s.word.length ++ x := by
    refine List.drop_append_of_le_length ?_
    rw [hword.rest]
    simp
  unfold opensStatement
  dsimp only
  rw [word_within hx, rest_within, hdrop, hrest.head?]

/-- The flags that a lexer has in a larger text are its own once they matter. -/
def Fits (a b : Bool) (s : Lexer) : Prop :=
  a = s.inChoice ∧ b = s.textStart ∨ s.mode ∈ [Mode.lineStart, .code, .tags, .done]

theorem fits_self (s : Lexer) : Fits s.inChoice s.textStart s := .inl ⟨rfl, rfl⟩

theorem classify_within (hx : Bounded x s.rest) (hline : ¬ s.AtLineEnd) :
    ∃ a' b', Fits a' b' s.classify ∧ (s.within n x a b).classify = s.classify.within n x a' b' := by
  obtain ⟨c, tail, hrest, hc⟩ : ∃ c tail, s.rest = c :: tail ∧ isLineEnd c = false := by
    cases hrest : s.rest with
    | nil => exact absurd (atLineEnd_nil hrest) hline
    | cons c tail => exact ⟨c, tail, rfl, by simpa [AtLineEnd, hrest] using hline⟩
  have htail : Bounded x tail := (hrest ▸ hx : Bounded x (c :: tail)).tail hc
  unfold classify
  dsimp only
  rw [opensStatement_within hx, rest_within, hx.head?]
  have hsecond : (s.rest ++ x).tail.head? = s.rest.tail.head? := by
    rw [hrest]
    exact htail.head?
  rw [hsecond]
  split
  · next harrow =>
    refine ⟨true, true, .inl ⟨rfl, rfl⟩, ?_⟩
    simp only [Bool.and_eq_true, decide_eq_true_eq, hrest, List.tail_cons] at harrow
    obtain ⟨d, tail', rfl⟩ : ∃ d tail', tail = d :: tail' := by
      cases tail with
      | nil => simp at harrow
      | cons d tail' => exact ⟨d, tail', rfl⟩
    have htwo := advance_within (s := s.queue [s.tokenHere .arrow "->"]) (n := n) (x := x) (a := a) (b := b) (p := [c, d])
      (q := tail') hrest
    rw [tokenHere_within, ← List.map_singleton, queue_within]
    exact congrArg (enterText · true) htwo
  · split
    · exact ⟨a, b, .inr (by simp), rfl⟩
    · split
      · exact ⟨a, b, .inr (by simp), rfl⟩
      · refine ⟨false, true, .inl ⟨rfl, rfl⟩, ?_⟩
        rw [queueSpeaker_within hx]
        rfl

theorem openContent_within (hx : Bounded x s.rest) (hline : ¬ s.AtLineEnd) (hmode : s.mode = .lineStart) {indent : Nat}
    {e : Option LexError} (hs : s.openContent indent = (e, s')) :
    ∃ a' b', Fits a' b' s' ∧
      (s.within n x a b).openContent indent = (e.map (LexError.down n), s'.within n x a' b') := by
  have hrest := rest_indentTo (s := s) indent
  have hmode' := mode_indentTo (s := s) indent
  have hwithin := indentTo_within (s := s) (n := n) (x := x) (a := a) (b := b) indent
  unfold openContent
  obtain ⟨m, hindent, rfl, rfl⟩ | ⟨f, hindent, rfl⟩ := openContent_eq hs
  · rw [hindent] at hrest hwithin
    rw [hwithin]
    have hrest : m.rest = s.rest := hrest
    have hline' : ¬ m.AtLineEnd := by rwa [AtLineEnd, hrest]
    obtain ⟨a', b', hfits, hclassify⟩ := classify_within (n := n) (a := a) (b := b) (hrest ▸ hx) hline'
    exact ⟨a', b', hfits, congrArg _ hclassify⟩
  · rw [hindent] at hmode' hwithin
    rw [hwithin]
    have hmode' : s'.mode = .lineStart := hmode'.trans hmode
    exact ⟨a, b, .inr (by simp [hmode']), rfl⟩

theorem startLine_within {e : Option LexError} (hx : Bounded x s.rest) (hmode : s.mode = .lineStart)
    (hs : s.startLine = (e, s')) :
    ∃ a' b', Fits a' b' s' ∧ (s.within n x a b).startLine = (e.map (LexError.down n), s'.within n x a' b') := by
  by_cases hnil : s.rest = []
  · obtain rfl : x = [] := (hnil ▸ hx : Bounded x []).nil
    rw [startLine_nil hnil] at hs
    cases hs
    refine ⟨a, b, .inr (by simp), ?_⟩
    rw [startLine_nil (by simp [hnil]), closeBlocks_within]
    rfl
  have hblanks := Along.skipBlanks s
  have hne : (s.within n x a b).rest ≠ [] := by simp [hnil]
  have hmode : s.skipBlanks.mode = .lineStart := hmode
  rw [startLine_eq hnil] at hs
  rw [startLine_eq hne, rest_within, (takeWhile_bounded hx rfl).1, skipBlanks_within hx, rest_within]
  have hx : Bounded x s.skipBlanks.rest := (hblanks.rest ▸ hx).of_append hblanks.plain
  rw [lineHead_bounded hx]
  generalize s.skipBlanks = m at *
  cases hhead : lineHead m.rest with
  | nothing =>
    rw [hhead] at hs
    cases hs
    exact ⟨a, b, .inr (by simp [mode_consumeNewline, hmode]), congrArg (Prod.mk none) (consumeNewline_within hx)⟩
  | comment =>
    rw [hhead] at hs
    cases hs
    obtain ⟨hcomment, hx'⟩ := advance_comment_within (n := n) (a := a) (b := b) hx
    refine ⟨a, b, .inr (by simp [mode_consumeNewline, hmode]), ?_⟩
    unfold openLine
    dsimp only
    rw [hcomment, consumeNewline_within hx']
    rfl
  | header =>
    rw [hhead] at hs
    cases hs
    refine ⟨a, b, .inr (by simp), ?_⟩
    unfold openLine
    dsimp only
    rw [closeBlocks_within]
    rfl
  | content =>
    rw [hhead] at hs
    exact openContent_within hx (mt lineHead_eq_nothing.mpr (hhead.trans_ne nofun)) hmode hs

/-- Scanning code leaves the flags alone, for it does not depend on them. -/
theorem flags_scanCode (hs : s.scanCode = (.ok t, s')) :
    s'.inChoice = s.inChoice ∧ s'.textStart = s.textStart := by
  have hsame := scanCode_within (s := s) (n := 0) (x := []) (a := s.inChoice) (b := s.textStart) (.inl rfl)
  rw [within_self, hs] at hsame
  have hs' : s' = s'.within 0 [] s.inChoice s.textStart := congrArg Prod.snd hsame
  exact ⟨by rw [hs']; rfl, by rw [hs']; rfl⟩

theorem mode_scanTag (h : s.mode = .tags) (hs : s.scanTag = (t, s')) : s'.mode = .tags ∨ s'.mode = .lineStart := by
  rw [scanTag_eq] at hs
  cases hhead : tagHead s.skipBlanks.rest with
  | none =>
    rw [hhead] at hs
    cases hs
    exact .inr rfl
  | some head =>
    rw [hhead] at hs
    cases hs
    exact .inl h

/-- The flags stay those of the lexer as long as they matter. -/
theorem Fits.scanCode (hab : Fits a b s) (hmode : s.mode = .code ∨ s.mode = .interpolation)
    (hs : s.scanCode = (.ok t, s')) : Fits a b s' := by
  obtain ⟨hchoice, hstart⟩ := flags_scanCode hs
  rcases hab with ⟨rfl, rfl⟩ | hab
  · exact .inl ⟨hchoice.symm, hstart.symm⟩
  have hmode : s.mode = .code := hmode.resolve_right fun h => by simp [h] at hab
  rcases mode_scanCode hs with ⟨-, hline⟩ | ⟨-, hinside⟩ | hsame
  · exact .inr (by simp [hline])
  · rw [hmode] at hinside
    cases hinside
  · exact .inr (by simp [hsame, hmode])

/-- In text they are its own. -/
theorem Fits.text (hab : Fits a b s) (hmode : s.mode = .text) : a = s.inChoice ∧ b = s.textStart :=
  hab.resolve_right (by simp [hmode])

/-- A pass that yields a token yields the same one further down. -/
theorem pass_token_within (hx : Bounded x s.rest) (hab : Fits a b s) (h : s.pass = (.token t, s')) :
    ∃ a' b', Fits a' b' s' ∧ (s.within n x a b).pass = (.token (t.down n), s'.within n x a' b') := by
  cases ran_of_pass h with
  | code hmode hscan =>
    refine ⟨a, b, hab.scanCode hmode hscan, Ran.pass (.code hmode ?_)⟩
    rw [scanCode_within hx, hscan]
    rfl
  | text hmode hscan =>
    obtain ⟨rfl, rfl⟩ := hab.text hmode
    exact ⟨_, _, fits_self s', Ran.pass (.text hmode (scanText_within hx hscan))⟩
  | tags hmode hscan =>
    refine ⟨a, b, .inr ?_, Ran.pass (.tags hmode ?_)⟩
    · rcases mode_scanTag hmode hscan with hm | hm <;> simp [hm]
    · rw [scanTag_within hx, hscan]
      rfl
  | done hmode =>
    have hpass : (s.within n x a b).pass = _ := Ran.pass (.done hmode)
    exact ⟨a, b, .inr (by simp [hmode]), by rw [hpass, tokenHere_within]⟩

theorem pass_again_within (hx : Bounded x s.rest) (hab : Fits a b s) (h : s.pass = (.again, s')) :
    ∃ a' b', Fits a' b' s' ∧ (s.within n x a b).pass = (.again, s'.within n x a' b') := by
  cases ran_of_pass h with
  | opened hmode hscan =>
    obtain ⟨a', b', hfits, hstart⟩ := startLine_within (n := n) (a := a) (b := b) hx hmode hscan
    exact ⟨a', b', hfits, Ran.pass (.opened hmode hstart)⟩
  | dropped hmode hscan =>
    obtain ⟨rfl, rfl⟩ := hab.text hmode
    exact ⟨_, _, fits_self s', Ran.pass (.dropped hmode (scanText_within hx hscan))⟩

/-- And a pass that fails fails there. -/
theorem pass_failed_within {e : LexError} (hx : Bounded x s.rest) (h : s.pass = (.failed e, s')) :
    ∃ m, (s.within n x a b).pass = (.failed (e.down n), m) := by
  cases ran_of_pass h with
  | refused hmode hscan =>
    obtain ⟨a', b', -, hstart⟩ := startLine_within (n := n) (a := a) (b := b) hx hmode hscan
    exact ⟨_, Ran.pass (.refused hmode hstart)⟩
  | broken hmode hscan =>
    refine ⟨s'.within n x a b, Ran.pass (.broken hmode ?_)⟩
    rw [scanCode_within hx, hscan]
    rfl

end Within
end Lexer
end Parley
