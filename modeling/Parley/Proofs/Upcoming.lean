import Parley.Lexer
import Mathlib.Data.Bool.AllAny
import Mathlib.Data.List.TakeWhile

/-! # What comes next

Every scanner skips blanks, looks at what comes next, and then takes a stretch of the line or goes over its end. What
comes next is told by the text alone (`codeHead`, `tagHead`, `textHead`, `lineHead`), and what a scanner makes of it is
one step of the lexer (`scanCode_eq`, `scanTag_eq`, `scanText_eq`, `startLine_eq`). So two texts in which the same comes
next are scanned alike, and no scanner is opened again. -/

namespace Parley

section Text
variable {stops : Char → Bool} {quote c : Char} {cs tail : List Char}

theorem isLineEnd_of_isEscapable (h : isEscapable c = true) : isLineEnd c = false := by
  simp only [isEscapable, isColon, Bool.or_eq_true, beq_iff_eq] at h
  rcases h with (((((rfl | rfl | rfl) | rfl) | rfl) | rfl) | rfl) | rfl <;> decide

theorem isSpace_of_isBlank (h : isBlank c = true) : isSpace c = true := by
  simp only [isBlank, Bool.or_eq_true, beq_iff_eq] at h
  rcases h with rfl | rfl <;> decide

theorem isLineEnd_of_isBlank (hc : isBlank c = true) : isLineEnd c = false := by
  simp only [isBlank, Bool.or_eq_true, beq_iff_eq] at hc
  rcases hc with rfl | rfl <;> rfl

theorem isBlank_of_isLineEnd (hc : isLineEnd c = true) : isBlank c = false := by
  simp only [isLineEnd, Bool.or_eq_true, beq_iff_eq] at hc
  rcases hc with rfl | rfl <;> rfl

theorem isLineEnd_of_isWordPart (h : isWordPart c = true) : isLineEnd c = false := by
  by_contra hend
  simp only [isLineEnd, Bool.or_eq_false_iff, not_and_or, Bool.not_eq_false, beq_iff_eq] at hend
  rcases hend with rfl | rfl <;> exact absurd h (by decide)

theorem isWordPart_of_isWordStart (h : isWordStart c = true) : isWordPart c = true := by simp [isWordPart, h]

theorem plain_of_isWordPart (h : isWordPart c = true) : isBlank c = false ∧ isLineEnd c = false ∧ c ≠ '/' ∧ c ≠ '"' := by
  refine ⟨?_, isLineEnd_of_isWordPart h, ?_, ?_⟩
  · by_contra hblank
    simp only [isBlank, Bool.or_eq_false_iff, beq_eq_false_iff_ne, not_and_or, not_not] at hblank
    rcases hblank with rfl | rfl <;> exact absurd h (by decide)
  all_goals
    rintro rfl
    exact absurd h (by decide)

theorem isLineEnd_of_isDigit (h : c.isDigit = true) : isLineEnd c = false :=
  isLineEnd_of_isWordPart (by simp [isWordPart, h])

theorem textRun_stop (h : ∀ c ∈ cs.head?, stops c = true) : textRun stops cs = ([], cs) := by
  cases cs with
  | nil => rfl
  | cons c tail =>
    have hc : stops c = true := h c rfl
    cases tail <;> simp [textRun, hc]

theorem textRun_cons (hc : stops c = false) (hesc : c = '\\' → cs.head?.any isEscapable = false) :
    textRun stops (c :: cs) = (c :: (textRun stops cs).1, (textRun stops cs).2) := by
  cases cs with
  | nil => simp [textRun, hc]
  | cons d tail =>
    have hesc : ¬ (decide (c = '\\') && isEscapable d) = true := by
      simpa using hesc
    rw [textRun, if_neg (by simp [hc]), if_neg hesc]

/-- A run of text stays on the line, and takes a character unless the first one stops it. -/
theorem textRun_stretch (hstops : ∀ c, isLineEnd c = true → stops c = true) (cs : List Char) :
    ∃ p, cs = p ++ (textRun stops cs).2 ∧ (∀ c ∈ p, isLineEnd c = false) ∧
      ∀ c ∈ cs.head?, stops c = false → p ≠ [] := by
  have hplain {c : Char} (hc : ¬ stops c = true) : isLineEnd c = false := by
    by_contra hend
    exact hc (hstops c (by simpa using hend))
  fun_induction textRun stops cs with
  | case1 => exact ⟨[], rfl, by simp, by simp⟩
  | case2 c hc => exact ⟨[], rfl, by simp, by simp [hc]⟩
  | case3 c hc => exact ⟨[c], rfl, by simpa using hplain hc, by simp⟩
  | case4 c d tail hc => exact ⟨[], rfl, by simp, by simp [hc]⟩
  | case5 c d tail hc hesc text left heq ih =>
    obtain ⟨p, hp, hlines, -⟩ := ih
    simp only [Bool.and_eq_true, decide_eq_true_eq] at hesc
    rw [heq] at hp
    refine ⟨c :: d :: p, by simp [hp], ?_, by simp⟩
    simpa [or_imp, forall_and] using ⟨hplain hc, isLineEnd_of_isEscapable hesc.2, hlines⟩
  | case6 c d tail hc hesc text left heq ih =>
    obtain ⟨p, hp, hlines, -⟩ := ih
    rw [heq] at hp
    refine ⟨c :: p, by simp [hp], ?_, by simp⟩
    simpa [or_imp, forall_and] using ⟨hplain hc, hlines⟩

/-- What is read of a string, its closing quote included, stays on the line. -/
theorem stringBody_stretch (hquote : isLineEnd quote = false) {body : Option (List Char)} {left : List Char}
    (h : stringBody quote cs = (body, left)) : ∃ p, cs = p ++ left ∧ ∀ c ∈ p, isLineEnd c = false := by
  fun_induction stringBody quote cs generalizing body with
  | case1 =>
    cases h
    exact ⟨[], rfl, by simp⟩
  | case2 c hc =>
    cases h
    exact ⟨[], rfl, by simp⟩
  | case3 hc =>
    cases h
    exact ⟨[quote], rfl, by simpa using hquote⟩
  | case4 c hc hne =>
    cases h
    exact ⟨[c], rfl, by simpa using hc⟩
  | case5 c d tail hc =>
    cases h
    exact ⟨[], rfl, by simp⟩
  | case6 c d tail hc hesc inner after heq ih =>
    cases h
    obtain ⟨p, hp, hlines⟩ := ih heq
    simp only [Bool.and_eq_true, decide_eq_true_eq] at hesc
    obtain ⟨rfl, rfl⟩ := hesc
    refine ⟨'\\' :: d :: p, by simp [hp], ?_⟩
    simpa [or_imp, forall_and] using ⟨by decide, hquote, hlines⟩
  | case7 d tail hc hesc =>
    cases h
    exact ⟨[quote], rfl, by simpa using hquote⟩
  | case8 c d tail hc hesc hne inner after heq ih =>
    cases h
    obtain ⟨p, hp, hlines⟩ := ih heq
    refine ⟨c :: p, by simp [hp], ?_⟩
    simpa [or_imp, forall_and] using ⟨by simpa using hc, hlines⟩

theorem numeral_of_not_point (h : (cs.dropWhile Char.isDigit).head? ≠ some '.') :
    numeral cs = cs.takeWhile Char.isDigit := by
  unfold numeral
  dsimp only
  split
  · next hpoint => simp [hpoint] at h
  · rfl

/-- Texts with the same digits in front of the point and behind it start with the same numeral. -/
theorem numeral_congr {cs' : List Char} (hwhole : cs'.takeWhile Char.isDigit = cs.takeWhile Char.isDigit)
    (hpoint : (cs'.dropWhile Char.isDigit).head? = some '.' ↔ (cs.dropWhile Char.isDigit).head? = some '.')
    (hfraction : ∀ tail tail', cs.dropWhile Char.isDigit = '.' :: tail → cs'.dropWhile Char.isDigit = '.' :: tail' →
      tail'.takeWhile Char.isDigit = tail.takeWhile Char.isDigit) : numeral cs' = numeral cs := by
  by_cases h : (cs.dropWhile Char.isDigit).head? = some '.'
  · obtain ⟨tail, htail⟩ := List.head?_eq_some_iff.mp h
    obtain ⟨tail', htail'⟩ := List.head?_eq_some_iff.mp (hpoint.mpr h)
    simp only [numeral, hwhole, htail, htail', hfraction tail tail' htail htail']
  · rw [numeral_of_not_point h, numeral_of_not_point (mt hpoint.mp h), hwhole]

/-- A numeral is a stretch of digits and points. -/
theorem numeral_stretch (hc : c.isDigit = true) :
    ∃ left, c :: tail = numeral (c :: tail) ++ left ∧ numeral (c :: tail) ≠ [] ∧
      ∀ d ∈ numeral (c :: tail), isLineEnd d = false := by
  have hsplit := List.takeWhile_append_dropWhile (p := Char.isDigit) (l := c :: tail)
  have hwhole : ∀ d ∈ (c :: tail).takeWhile Char.isDigit, isLineEnd d = false := fun d hd =>
    isLineEnd_of_isDigit (List.mem_takeWhile_imp hd)
  have hne : (c :: tail).takeWhile Char.isDigit ≠ [] := by simp [hc]
  unfold numeral
  dsimp only
  split
  · next after hafter =>
    rw [hafter] at hsplit
    split
    · exact ⟨_, hsplit.symm, hne, hwhole⟩
    · have hafter := List.takeWhile_append_dropWhile (p := Char.isDigit) (l := after)
      refine ⟨after.dropWhile Char.isDigit, ?_, by simp, ?_⟩
      · rw [List.append_assoc, List.cons_append, hafter, hsplit]
      · have hfraction : ∀ d ∈ after.takeWhile Char.isDigit, isLineEnd d = false := fun d hd =>
          isLineEnd_of_isDigit (List.mem_takeWhile_imp hd)
        simp only [List.mem_append, List.mem_cons]
        rintro d (hd | rfl | hd)
        · exact hwhole d hd
        · decide
        · exact hfraction d hd
  · exact ⟨_, hsplit.symm, hne, hwhole⟩

end Text

namespace Punctuator

/-- The mark is the next character, or the next two if they stand on the line. -/
def Fits (second : Option Char) : Punctuator → Prop
  | .broken => True
  | .token kind _ width =>
    (width = 1 ∨ width = 2 ∧ ∃ d, second = some d ∧ isLineEnd d = false) ∧ kind.isLayout = false

theorem fits_oneOrTwo {second : Option Char} {double : Bool} {two one : TokenKind × String}
    (hdouble : double = true → ∃ d, second = some d ∧ isLineEnd d = false) (htwo : two.1.isLayout = false)
    (hone : one.1.isLayout = false) : (oneOrTwo double two one).Fits second := by
  cases double with
  | false => exact ⟨.inl rfl, hone⟩
  | true => exact ⟨.inr ⟨rfl, hdouble rfl⟩, htwo⟩

/-- Every mark of code fits. -/
theorem fits_ofChars (c : Char) (second : Option Char) : (ofChars c second).Fits second := by
  have hany {p : Char → Bool} (hp : ∀ d, p d = true → isLineEnd d = false) (h : second.any p = true) :
      ∃ d, second = some d ∧ isLineEnd d = false := by
    cases second with
    | none => cases h
    | some d => exact ⟨d, rfl, hp d h⟩
  have hsame {d : Char} (hd : isLineEnd d = false) (h : (second == some d) = true) :
      ∃ d, second = some d ∧ isLineEnd d = false := ⟨d, by simpa using h, hd⟩
  have hhead (d : Char) (hd : isArrowHead d = true) : isLineEnd d = false := by
    simp only [isArrowHead, Bool.or_eq_true, beq_iff_eq] at hd
    rcases hd with rfl | rfl <;> decide
  have hcolon (d : Char) (hd : isColon d = true) : isLineEnd d = false :=
    isLineEnd_of_isEscapable (by simp [isEscapable, hd])
  unfold ofChars
  dsimp only
  split
  · exact fits_oneOrTwo (hany hcolon) rfl rfl
  · split
    · exact fits_oneOrTwo (hany hhead) rfl rfl
    · split
      · next hsecond => exact ⟨.inr ⟨rfl, hany hhead hsecond⟩, rfl⟩
      · exact fits_oneOrTwo (hsame rfl) rfl rfl
    · exact fits_oneOrTwo (hsame rfl) rfl rfl
    · exact fits_oneOrTwo (hsame rfl) rfl rfl
    · exact fits_oneOrTwo (hsame rfl) rfl rfl
    · split
      · next hsecond => exact ⟨.inr ⟨rfl, hsame rfl hsecond⟩, rfl⟩
      · trivial
    · split
      · next hsecond => exact ⟨.inr ⟨rfl, hsame rfl hsecond⟩, rfl⟩
      · trivial
    all_goals exact ⟨.inl rfl, rfl⟩

end Punctuator

/-- Where the line is not over, a character of it comes next. -/
theorem exists_cons_of_line {cs : List Char} (h : ¬ ∀ c ∈ cs.head?, isLineEnd c = true) :
    ∃ c tail, cs = c :: tail ∧ isLineEnd c = false := by
  cases cs with
  | nil => exact absurd nofun h
  | cons c tail => exact ⟨c, tail, rfl, by simpa using h⟩

/-! ### Code -/

/-- The word that comes next, empty if none does. -/
def wordHead (cs : List Char) : List Char := if cs.head?.any isWordStart then cs.takeWhile isWordPart else []

/-- What comes next in code: nothing of the line, a comment, or what is read or refused, with the stretch of the line
that it takes. -/
inductive CodeHead where
  | ending
  | comment
  | token (kind : TokenKind) (value : String) (text : List Char)
  | refused (cause : LexCause) (text : List Char)

namespace CodeHead

def ofWord (word : List Char) : CodeHead :=
  .token ((keyword? (String.ofList word)).getD .identifier) (String.ofList word) word

def ofNumeral (digits : List Char) : CodeHead := .token .number (String.ofList digits) digits

def ofBody (text : List Char) : Option (List Char) → CodeHead
  | some body => .token .string (String.ofList body) text
  | none => .refused .unclosedString text

/-- A string takes its quotes along, and what there is of the line if that does not close it. -/
def ofString (quote : Char) (tail : List Char) : CodeHead :=
  let (body, left) := stringBody quote tail
  ofBody (quote :: tail.take (tail.length - left.length)) body

def ofName : List Char → CodeHead
  | [] => .refused .missingName ['$']
  | name => .token .reference (String.ofList name) ('$' :: name)

def ofMark (c : Char) (second : Option Char) : CodeHead :=
  match Punctuator.ofChars c second with
  | .broken => .refused (.loneOperator c) []
  | .token kind value width => .token kind value ((c :: second.toList).take width)

end CodeHead

def codeHead : List Char → CodeHead
  | [] => .ending
  | c :: tail =>
    if isLineEnd c then .ending
    else if c = '/' && tail.head? = some '/' then .comment
    else if isWordStart c then .ofWord (wordHead (c :: tail))
    else if c.isDigit then .ofNumeral (numeral (c :: tail))
    else if c = '"' || c = '\'' then .ofString c tail
    else if c = '$' then .ofName (wordHead tail)
    else .ofMark c tail.head?

section CodeHead
variable {c quote : Char} {cs tail p q : List Char} {kind : TokenKind} {value : String} {text : List Char}

theorem wordHead_begins (cs : List Char) : wordHead cs <+: cs := by
  unfold wordHead
  split
  · exact List.takeWhile_prefix _
  · exact List.nil_prefix

theorem isWordPart_of_mem_wordHead (hc : c ∈ wordHead cs) : isWordPart c = true := by
  unfold wordHead at hc
  split at hc
  · exact List.mem_takeWhile_imp hc
  · cases hc

theorem wordHead_ne_nil (hc : isWordStart c = true) : wordHead (c :: tail) ≠ [] := by
  simp [wordHead, hc, isWordPart_of_isWordStart hc]

theorem isLayout_keyword (word : String) : ((keyword? word).getD .identifier).isLayout = false := by
  unfold keyword?
  split <;> rfl

theorem keyword_ne_rightBrace (word : String) : (keyword? word).getD .identifier ≠ .rightBrace := by
  unfold keyword?
  split <;> nofun

namespace CodeHead

/-- What comes next stays on the line, and a token takes some of it. -/
def Fits (cs : List Char) : CodeHead → Prop
  | .ending => ∀ c ∈ cs.head?, isLineEnd c = true
  | .comment => True
  | .token kind _ text => text ≠ [] ∧ text <+: cs ∧ (∀ c ∈ text, isLineEnd c = false) ∧ kind.isLayout = false
  | .refused _ text => text <+: cs ∧ ∀ c ∈ text, isLineEnd c = false

theorem ofString_eq {body : Option (List Char)} {left : List Char} (hbody : stringBody quote tail = (body, left))
    (hp : tail = p ++ left) : ofString quote tail = ofBody (quote :: p) body := by
  rw [ofString, hbody]
  dsimp only
  rw [hp, List.length_append, Nat.add_sub_cancel, List.take_left]

theorem fits_ofString (hquote : isLineEnd quote = false) : (ofString quote tail).Fits (quote :: tail) := by
  rcases hbody : stringBody quote tail with ⟨body, left⟩
  obtain ⟨p, hp, hplain⟩ := stringBody_stretch hquote hbody
  have hbegins : quote :: p <+: quote :: tail := ⟨left, by rw [hp]; rfl⟩
  have hline : ∀ c ∈ quote :: p, isLineEnd c = false := List.forall_mem_cons.mpr ⟨hquote, hplain⟩
  rw [ofString_eq hbody hp]
  cases body with
  | none => exact ⟨hbegins, hline⟩
  | some body => exact ⟨nofun, hbegins, hline, rfl⟩

theorem fits_ofName : (ofName (wordHead tail)).Fits ('$' :: tail) := by
  have hbegins : '$' :: wordHead tail <+: '$' :: tail := List.cons_prefix_cons.mpr ⟨rfl, wordHead_begins tail⟩
  have hline : ∀ c ∈ '$' :: wordHead tail, isLineEnd c = false :=
    List.forall_mem_cons.mpr ⟨rfl, fun c hc => isLineEnd_of_isWordPart (isWordPart_of_mem_wordHead hc)⟩
  cases hname : wordHead tail with
  | nil => exact ⟨⟨tail, rfl⟩, List.forall_mem_singleton.mpr rfl⟩
  | cons d name => exact ⟨nofun, hname ▸ hbegins, hname ▸ hline, rfl⟩

theorem fits_ofMark (hc : isLineEnd c = false) : (ofMark c tail.head?).Fits (c :: tail) := by
  have hfits := Punctuator.fits_ofChars c tail.head?
  unfold ofMark
  cases hmark : Punctuator.ofChars c tail.head? with
  | broken => exact ⟨List.nil_prefix, nofun⟩
  | token kind value width =>
    rw [hmark] at hfits
    obtain ⟨rfl | ⟨rfl, d, hd, hplain⟩, hkind⟩ := hfits
    · exact ⟨nofun, ⟨tail, rfl⟩, List.forall_mem_singleton.mpr hc, hkind⟩
    · obtain ⟨tail, rfl⟩ := List.head?_eq_some_iff.mp hd
      exact ⟨nofun, ⟨tail, rfl⟩, List.forall_mem_cons.mpr ⟨hc, List.forall_mem_singleton.mpr hplain⟩, hkind⟩

end CodeHead

theorem fits_codeHead (cs : List Char) : (codeHead cs).Fits cs := by
  cases cs with
  | nil => exact nofun
  | cons c tail =>
    rw [codeHead]
    split
    · next hc => simpa [CodeHead.Fits] using hc
    next hc =>
    have hc : isLineEnd c = false := by simpa using hc
    split
    · trivial
    split
    · next hword =>
      exact ⟨wordHead_ne_nil hword, wordHead_begins _,
        fun d hd => isLineEnd_of_isWordPart (isWordPart_of_mem_wordHead hd), isLayout_keyword _⟩
    split
    · next hdigit =>
      obtain ⟨left, hsplit, hne, hplain⟩ := @numeral_stretch c tail hdigit
      exact ⟨hne, ⟨left, hsplit.symm⟩, hplain, rfl⟩
    split
    · exact CodeHead.fits_ofString hc
    split
    · next hdollar => exact hdollar ▸ CodeHead.fits_ofName
    · exact CodeHead.fits_ofMark hc

theorem codeHead_of_isWordStart (hc : isWordStart c = true) : codeHead (c :: tail) = .ofWord (wordHead (c :: tail)) := by
  obtain ⟨-, hline, hslash, -⟩ := plain_of_isWordPart (isWordPart_of_isWordStart hc)
  simp [codeHead, hline, hslash, hc]

theorem codeHead_eq_ending : codeHead cs = .ending ↔ ∀ c ∈ cs.head?, isLineEnd c = true := by
  constructor
  · intro h
    have hfits := fits_codeHead cs
    rwa [h] at hfits
  · intro h
    cases cs with
    | nil => rfl
    | cons c tail => exact if_pos (h c rfl)

end CodeHead

namespace Punctuator

/-- The mark is a closing brace just where the character is one. -/
def Closes (c : Char) : Punctuator → Prop
  | .broken => True
  | .token kind _ _ => kind = .rightBrace ↔ c = '\x7d'

theorem closes_oneOrTwo {c : Char} {double : Bool} {two one : TokenKind × String} (hc : c ≠ '\x7d')
    (htwo : two.1 ≠ .rightBrace) (hone : one.1 ≠ .rightBrace) : (oneOrTwo double two one).Closes c := by
  cases double with
  | false => exact iff_of_false hone hc
  | true => exact iff_of_false htwo hc

theorem closes_ofChars (c : Char) (second : Option Char) : (ofChars c second).Closes c := by
  have hcolon (h : isColon c = true) : c ≠ '\x7d' := by
    rintro rfl
    cases h
  unfold ofChars
  dsimp only
  split
  · next h => exact closes_oneOrTwo (hcolon h) (by decide) (by decide)
  split
  case h_2 =>
    split
    · exact iff_of_false (by decide) (by decide)
    · exact closes_oneOrTwo (by decide) (by decide) (by decide)
  case h_6 | h_7 =>
    split
    · exact iff_of_false (by decide) (by decide)
    · trivial
  case h_17 => exact iff_of_true rfl rfl
  case h_20 => exact iff_of_false (by decide) (by assumption)
  all_goals first | exact closes_oneOrTwo (by decide) (by decide) (by decide) | exact iff_of_false (by decide) (by decide)

end Punctuator

/-- Modes of a lexer that is somewhere on a line. -/
def Mode.inLine : Mode → Bool
  | lineStart | done => false
  | _ => true

namespace Mode

/-- A closing brace ends the code of an interpolation. -/
def after (mode : Mode) (kind : TokenKind) : Mode := if kind = .rightBrace && mode = .interpolation then .text else mode

theorem after_of_ne {mode : Mode} {kind : TokenKind} (h : kind ≠ .rightBrace) : mode.after kind = mode := by
  simp [after, h]

theorem after_eq_or (mode : Mode) (kind : TokenKind) :
    kind = .rightBrace ∧ mode = .interpolation ∨ mode.after kind = mode := by
  unfold after
  split
  · next h => exact .inl (by simpa using h)
  · exact .inr rfl

theorem inLine_after {mode : Mode} (h : mode.inLine = true) (kind : TokenKind) : (mode.after kind).inLine = true := by
  unfold after
  split
  · rfl
  · exact h

end Mode

namespace Lexer
variable {s : Lexer} {c : Char} {tail : List Char}

theorem word_eq (s : Lexer) : s.word = wordHead s.rest := by
  unfold word wordHead
  cases hrest : s.rest with
  | nil => rfl
  | cons c tail =>
    by_cases hc : isWordStart c = true
    · simp [hc, isWordPart_of_isWordStart hc]
    · simp [hc]

/-- What scanning code comes to. -/
def readCode (s : Lexer) : CodeHead → Except LexError Token × Lexer
  | .ending => (.ok s.newline.1, s.newline.2)
  | .comment =>
    let behind := s.advance (lineLength s.rest)
    (.ok behind.newline.1, behind.newline.2)
  | .token kind value text =>
    (.ok (s.tokenHere kind value), { s.advance text.length with mode := s.mode.after kind })
  | .refused cause text => (.error (s.errorHere cause), s.advance text.length)

theorem readCode_token {kind : TokenKind} {value : String} {text : List Char} (hkind : kind ≠ .rightBrace) :
    s.readCode (.token kind value text) = (.ok (s.tokenHere kind value), s.advance text.length) := by
  simp [readCode, Mode.after_of_ne hkind, advance]

@[simp] theorem mode_skipBlanks (s : Lexer) : s.skipBlanks.mode = s.mode := rfl

/-- Behind the blanks comes something else. -/
theorem head?_skipBlanks (s : Lexer) : ∀ c ∈ s.skipBlanks.rest.head?, isBlank c = false := by
  intro c hc
  have hhead := List.head?_dropWhile_not isBlank s.rest
  have hc : (s.rest.dropWhile isBlank).head? = some c := hc
  simpa [hc] using hhead

/-- Where no blank comes next none is skipped. -/
theorem skipBlanks_eq (h : ∀ c ∈ s.rest.head?, isBlank c = false) : s.skipBlanks = s := by
  obtain ⟨rest, line, column, levels, pending, mode, inChoice, textStart⟩ := s
  cases rest with
  | nil => simp [skipBlanks]
  | cons c tail =>
    have hc : isBlank c = false := h c rfl
    simp [skipBlanks, hc]

theorem skipBlanks_skipBlanks (s : Lexer) : s.skipBlanks.skipBlanks = s.skipBlanks := skipBlanks_eq (head?_skipBlanks s)

theorem lineLength_append {p q : List Char} (hplain : ∀ c ∈ p, isLineEnd c = false) :
    lineLength (p ++ q) = p.length + lineLength q := by
  unfold lineLength
  rw [List.takeWhile_append_of_pos (by simpa using hplain), List.length_append]

theorem moveTo_eq_advance {p q : List Char} (hrest : s.rest = p ++ q) (hplain : ∀ c ∈ p, isLineEnd c = false) :
    s.moveTo q = s.advance p.length := by
  have hlength : lineLength s.rest - lineLength q = p.length := by
    rw [hrest, lineLength_append hplain]
    omega
  have hdrop : s.rest.drop p.length = q := by simp [hrest]
  simp [moveTo, advance, hlength, hdrop]

theorem scanWord_eq : (Except.ok s.scanWord.1, s.scanWord.2) = s.readCode (.ofWord (wordHead s.rest)) := by
  rw [CodeHead.ofWord, readCode_token (keyword_ne_rightBrace _), ← word_eq]
  rfl

theorem scanString_eq {quote : Char} (hrest : s.rest = quote :: tail) (hquote : isLineEnd quote = false) :
    s.scanString quote = s.readCode (.ofString quote tail) := by
  unfold scanString
  rw [hrest, List.tail_cons]
  rcases hbody : stringBody quote tail with ⟨body, left⟩
  obtain ⟨p, hp, hplain⟩ := stringBody_stretch hquote hbody
  have hmove : s.moveTo left = s.advance (quote :: p).length :=
    moveTo_eq_advance (by rw [hrest, hp]; rfl) (List.forall_mem_cons.mpr ⟨hquote, hplain⟩)
  rw [CodeHead.ofString_eq hbody hp]
  cases body with
  | none => exact congrArg _ hmove
  | some body =>
    rw [CodeHead.ofBody, readCode_token (by decide)]
    exact congrArg _ hmove

theorem scanVariable_eq (hrest : s.rest = c :: tail) : s.scanVariable = s.readCode (.ofName (wordHead tail)) := by
  have hname : (s.advance 1).word = wordHead tail := by simp [word_eq, hrest]
  unfold scanVariable
  dsimp only
  rw [hname]
  cases wordHead tail with
  | nil => rfl
  | cons d name =>
    dsimp only
    rw [CodeHead.ofName, readCode_token (by decide)]
    · simp [advance, Nat.add_assoc, Nat.add_comm]
    · nofun

theorem scanMark_eq (c : Char) (second : Option Char) : s.scanMark c second = s.readCode (.ofMark c second) := by
  have hfits := Punctuator.fits_ofChars c second
  have hcloses := Punctuator.closes_ofChars c second
  unfold scanMark CodeHead.ofMark
  cases hmark : Punctuator.ofChars c second with
  | broken => rfl
  | token kind value width =>
    rw [hmark] at hfits
    have hlength : ((c :: second.toList).take width).length = width := by
      obtain ⟨rfl | ⟨rfl, d, rfl, -⟩, -⟩ := hfits <;> rfl
    rw [hmark] at hcloses
    simp only [readCode, hlength, Mode.after, show kind = .rightBrace ↔ c = '\x7d' from hcloses]
    split <;> rfl

theorem scanCode_eq (s : Lexer) : s.scanCode = s.skipBlanks.readCode (codeHead s.skipBlanks.rest) := by
  unfold scanCode
  generalize s.skipBlanks = m
  dsimp only
  cases hrest : m.rest with
  | nil => rfl
  | cons c tail =>
    dsimp only
    rw [codeHead]
    split
    · rfl
    next hc =>
    split
    · rw [← hrest]
      rfl
    split
    · rw [← hrest]
      exact scanWord_eq
    split
    · rw [CodeHead.ofNumeral, readCode_token (by decide)]
      rfl
    split
    · exact scanString_eq hrest (by simpa using hc)
    split
    · exact scanVariable_eq hrest
    · exact scanMark_eq c _

end Lexer

/-! ### Tags -/

/-- What a tag is made of. -/
def isTagChar (c : Char) : Bool := !(isLineEnd c || isBlank c || c == ',' || c == '#')

/-- What comes next between tags, as the kind of the token and the stretch it takes; none where the line ends. -/
def tagHead : List Char → Option (TokenKind × List Char)
  | [] => none
  | c :: tail =>
    if isLineEnd c then none
    else if c = ',' then some (.comma, [c])
    else if c = '#' then some (.hash, [c])
    else
      let value := (c :: tail).takeWhile isTagChar
      some (wordKind value, value)

theorem kind_wordKind (text : List Char) : wordKind text = .text ∨ wordKind text = .identifier := by
  unfold wordKind
  split <;> simp

theorem isLayout_wordKind (text : List Char) : (wordKind text).isLayout = false := by
  unfold wordKind
  split <;> rfl

theorem isLineEnd_of_isTagChar {c : Char} (hc : isTagChar c = true) : isLineEnd c = false := by
  simp only [isTagChar, Bool.not_eq_true', Bool.or_eq_false_iff] at hc
  exact hc.1.1.1

section TagHead
variable {cs text : List Char} {kind : TokenKind}

theorem tagHead_eq_none : tagHead cs = none ↔ ∀ c ∈ cs.head?, isLineEnd c = true := by
  cases cs with
  | nil => simp [tagHead]
  | cons c tail =>
    rw [tagHead]
    split
    · next hc => simp [hc]
    · next hc =>
      refine iff_of_false ?_ (by simpa using hc)
      split
      · nofun
      · split <;> nofun

/-- Behind the blanks a token takes some of the line. -/
theorem tagHead_fits (hblank : ∀ c ∈ cs.head?, isBlank c = false) (h : tagHead cs = some (kind, text)) :
    text ≠ [] ∧ text <+: cs ∧ (∀ c ∈ text, isLineEnd c = false) ∧ kind.isLayout = false := by
  cases cs with
  | nil => cases h
  | cons c tail =>
    rw [tagHead] at h
    split at h
    · cases h
    next hc =>
    have hone : [c] <+: c :: tail := ⟨tail, rfl⟩
    have hline : ∀ d ∈ [c], isLineEnd d = false := by simpa using hc
    split at h
    · cases h
      exact ⟨nofun, hone, hline, rfl⟩
    next hcomma =>
    split at h
    · cases h
      exact ⟨nofun, hone, hline, rfl⟩
    next hhash =>
    cases h
    have hpart : isTagChar c = true := by simp [isTagChar, hc, hblank c rfl, hcomma, hhash]
    exact ⟨by simp [hpart], List.takeWhile_prefix _, fun d hd => isLineEnd_of_isTagChar (List.mem_takeWhile_imp hd),
      isLayout_wordKind _⟩

end TagHead

namespace Lexer

def readTag (s : Lexer) : Option (TokenKind × List Char) → Token × Lexer
  | none => s.newline
  | some (kind, text) => s.take kind text

theorem scanTag_eq (s : Lexer) : s.scanTag = s.skipBlanks.readTag (tagHead s.skipBlanks.rest) := by
  unfold scanTag
  generalize s.skipBlanks = m
  dsimp only
  cases hrest : m.rest with
  | nil => rfl
  | cons c tail =>
    simp only [tagHead, apply_ite m.readTag]
    rfl

/-! ### Text -/

/-- What ends a stretch of text. -/
def textStops (inChoice : Bool) (c : Char) : Bool := isLineEnd c || c == '#' || c == '\x7b' || (inChoice && c == '[')

theorem textStops_lineEnd (inChoice : Bool) (c : Char) (hc : isLineEnd c = true) : textStops inChoice c = true := by
  simp [textStops, hc]

/-- A stretch of text as a token, if more than white space is in it. -/
def readRun (s : Lexer) (run : List Char × List Char) : Option Token × Lexer :=
  let value := if run.2.head? = some '\x7b' then run.1 else trimEnd run.1
  (if value.isEmpty then none else some (s.tokenHere .text (String.ofList value)), s.moveTo run.2)

/-- What comes next in a text: its end, a mark that is followed by something else than text, or a stretch of it. -/
inductive TextHead where
  | ending
  | mark (kind : TokenKind) (value : String) (mode : Mode)
  | run

def textHead (inChoice : Bool) : Option Char → TextHead
  | none => .ending
  | some c =>
    if isLineEnd c then .ending
    else if c = '#' then .mark .hash "#" .tags
    else if c = '\x7b' then .mark .leftBrace "\x7b" .interpolation
    else if c = '[' && inChoice then .mark .leftBracket "[" .code
    else .run

/-- The lexer where its text begins, behind the blanks in front of it. -/
def begun (s : Lexer) : Lexer := if s.textStart then { s.skipBlanks with textStart := false } else s

/-- What scanning text comes to once it has begun. -/
def readText (s : Lexer) : TextHead → Option Token × Lexer
  | .ending => (some s.newline.1, s.newline.2)
  | .mark kind value mode => (some (s.tokenHere kind value), { s.advance 1 with mode := mode })
  | .run => s.readRun (textRun (textStops s.inChoice) s.rest)

theorem scanText_eq (s : Lexer) : s.scanText = s.begun.readText (textHead s.begun.inChoice s.begun.rest.head?) := by
  unfold scanText begun
  generalize (if s.textStart then { s.skipBlanks with textStart := false } else s) = m
  dsimp only
  cases hrest : m.rest with
  | nil => rfl
  | cons c tail =>
    simp only [List.head?_cons, textHead, apply_ite m.readText]
    rw [← hrest]
    rfl

theorem begun_eq_self {s : Lexer} (h : s.textStart = false) : s.begun = s := if_neg (by simp [h])

theorem begun_begun (s : Lexer) : s.begun.begun = s.begun := by
  refine begun_eq_self ?_
  unfold begun
  split
  · rfl
  · next h => simpa using h

theorem mode_begun (s : Lexer) : s.begun.mode = s.mode := by
  unfold begun
  split <;> rfl

theorem textHead_eq_ending {inChoice : Bool} {o : Option Char} :
    textHead inChoice o = .ending ↔ ∀ c ∈ o, isLineEnd c = true := by
  cases o with
  | none => simp [textHead]
  | some c =>
    rw [textHead]
    split
    · next hc => simp [hc]
    · next hc =>
      refine iff_of_false ?_ (by simpa using hc)
      repeat' split
      all_goals nofun

/-- Where text is not over, its first character is no line end. -/
theorem exists_cons_of_textHead {inChoice : Bool} {cs : List Char} (h : textHead inChoice cs.head? ≠ .ending) :
    ∃ c tail, cs = c :: tail ∧ isLineEnd c = false :=
  exists_cons_of_line (mt textHead_eq_ending.mpr h)

theorem textHead_mark {inChoice : Bool} {o : Option Char} {kind : TokenKind} {value : String} {mode : Mode}
    (h : textHead inChoice o = .mark kind value mode) :
    (kind = .hash ∨ kind = .leftBracket ∨ kind = .leftBrace ∧ mode = .interpolation) ∧ mode.inLine = true := by
  unfold textHead at h
  repeat' split at h
  all_goals cases h
  all_goals simp [Mode.inLine]

theorem textHead_eq_run {inChoice : Bool} {c : Char} :
    textHead inChoice (some c) = .run ↔ textStops inChoice c = false := by
  rw [textHead]
  split
  · next hc => simp [textStops, hc]
  split
  · next hc => simp [textStops, hc]
  split
  · next hc => simp [textStops, hc]
  split
  · next hc => simp_all [textStops]
  · next hc hhash hbrace hbracket =>
    have hbracket : inChoice = true → c ≠ '[' := fun hin heq => hbracket (by simp [hin, heq])
    simpa [textStops, hc, hhash, hbrace] using hbracket

end Lexer

/-! ### The start of a line -/

/-- What comes behind the blanks of a line. -/
inductive LineHead where
  | nothing
  | comment
  | header
  | content

def LineHead.hasContent : LineHead → Bool
  | nothing | comment => false
  | header | content => true

def lineHead : List Char → LineHead
  | [] => .nothing
  | c :: tail =>
    if isLineEnd c then .nothing
    else if c = '/' && tail.head? = some '/' then .comment
    else if isColon c && tail.head?.any isColon then .header
    else .content

theorem lineHead_eq_nothing {cs : List Char} : lineHead cs = .nothing ↔ ∀ c ∈ cs.head?, isLineEnd c = true := by
  cases cs with
  | nil => simp [lineHead]
  | cons c tail =>
    rw [lineHead]
    split
    · next hc => simp [hc]
    · next hc =>
      refine iff_of_false ?_ (by simpa using hc)
      split
      · nofun
      · split <;> nofun

/-- Where there is anything to be read of a line, its first character is no line end. -/
theorem exists_cons_of_lineHead {cs : List Char} (h : lineHead cs ≠ .nothing) :
    ∃ c tail, cs = c :: tail ∧ isLineEnd c = false :=
  exists_cons_of_line (mt lineHead_eq_nothing.mpr h)

namespace Lexer

theorem drop_length_takeWhile (p : Char → Bool) (cs : List Char) : cs.drop (cs.takeWhile p).length = cs.dropWhile p := by
  have hsplit := List.takeWhile_append_dropWhile (p := p) (l := cs)
  calc cs.drop (cs.takeWhile p).length
    _ = (cs.takeWhile p ++ cs.dropWhile p).drop (cs.takeWhile p).length := by rw [hsplit]
    _ = cs.dropWhile p := List.drop_left

theorem advance_blanks (s : Lexer) : s.advance (s.rest.takeWhile isBlank).length = s.skipBlanks := by
  simp [advance, skipBlanks, drop_length_takeWhile]

/-- Content opens and closes blocks before it is classified. -/
def openContent (s : Lexer) (indent : Nat) : Option LexError × Lexer :=
  match s.indentTo indent with
  | (none, s) => (none, s.classify)
  | failed => failed

/-- What starting a line comes to behind the blanks. -/
def openLine (s : Lexer) (indent : Nat) : LineHead → Option LexError × Lexer
  | .nothing => (none, s.consumeNewline)
  | .comment => (none, (s.advance (lineLength s.rest)).consumeNewline)
  | .header => (none, { s.closeBlocks with mode := .code })
  | .content => s.openContent indent

section StartLine
variable {s s' : Lexer} {indent : Nat} {e : Option LexError}

theorem startLine_nil (hrest : s.rest = []) : s.startLine = (none, { s.closeBlocks with mode := .done }) := by
  simp [startLine, hrest]

theorem startLine_eq (hne : s.rest ≠ []) :
    s.startLine = s.skipBlanks.openLine (s.rest.takeWhile isBlank).length (lineHead s.skipBlanks.rest) := by
  unfold startLine
  rw [if_neg (by simpa using hne)]
  dsimp only
  rw [advance_blanks]
  cases hrest : s.skipBlanks.rest with
  | nil => simp [lineHead, openLine, consumeNewline, hrest]
  | cons c tail =>
    simp only [lineHead, apply_ite (s.skipBlanks.openLine _)]
    rw [← hrest]
    rfl

theorem openContent_eq (h : s.openContent indent = (e, s')) :
    (∃ m, s.indentTo indent = (none, m) ∧ e = none ∧ s' = m.classify) ∨
      ∃ f, s.indentTo indent = (some f, s') ∧ e = some f := by
  unfold openContent at h
  rcases hindent : s.indentTo indent with ⟨_ | f, m⟩ <;> rw [hindent] at h <;> cases h
  · exact .inl ⟨m, rfl, rfl, rfl⟩
  · exact .inr ⟨f, rfl, rfl⟩

end StartLine
end Lexer
end Parley
