import Parley.Syntax.Expr
import Parley.Proofs.Vocabulary

/-! # Scanning one token of code

What the lexer makes of a known stretch of code (`Scans`): a word, a numeral, a string whose quotes are escaped, a
variable or a mark is scanned as one token, provided that what comes after the stretch cannot belong to it. A blank
between two tokens is scanned as none. Stretches put together are scanned as their tokens put together, so text that
is written token by token comes back token by token. -/

namespace Parley

section Text
variable {c : Char} {cs rest : List Char}

/-- A stretch of one class ends where the next character is of another. -/
theorem takeWhile_stretch {p : Char → Bool} (hcs : ∀ c ∈ cs, p c = true) (hnext : ∀ c ∈ rest.head?, p c = false) :
    (cs ++ rest).takeWhile p = cs ∧ (cs ++ rest).dropWhile p = rest := by
  have hstop : rest.takeWhile p = [] ∧ rest.dropWhile p = rest := by
    cases rest with
    | nil => exact ⟨rfl, rfl⟩
    | cons c tail => simp [hnext c rfl]
  rw [List.takeWhile_append_of_pos hcs, List.dropWhile_append_of_pos hcs, hstop.1, hstop.2, List.append_nil]
  exact ⟨rfl, rfl⟩

theorem isWordStart_of_isDigit (h : c.isDigit = true) : isWordStart c = false := by
  have hc := Numeral.toNat_of_isDigit h
  have hunder : c ≠ '_' := by
    rintro rfl
    simp at hc
  have halpha : c.isAlpha = false := by
    have hupper : ¬ (65 ≤ c.val ∧ c.val ≤ 90) := fun ⟨hle, _⟩ => by
      have : 65 ≤ c.toNat := hle
      omega
    have hlower : ¬ (97 ≤ c.val ∧ c.val ≤ 122) := fun ⟨hle, _⟩ => by
      have : 97 ≤ c.toNat := hle
      omega
    delta Char.isAlpha Char.isUpper Char.isLower
    simp only [Bool.or_eq_false_iff, Bool.and_eq_false_iff, decide_eq_false_iff_not, ← not_and_or]
    exact ⟨hupper, hlower⟩
  have hideograph : isIdeograph c = false := by
    simp only [isIdeograph, Bool.or_eq_false_iff, Bool.and_eq_false_iff, decide_eq_false_iff_not]
    omega
  simp [isWordStart, hunder, halpha, hideograph]

theorem numeral_of_spells {d : Decimal} (h : Numeral.Spells cs d) (hnext : ∀ c ∈ rest.head?, c.isDigit = false ∧ c ≠ '.') :
    numeral (cs ++ rest) = cs := by
  have hstop : ∀ c ∈ rest.head?, c.isDigit = false := fun c hc => (hnext c hc).1
  unfold numeral
  dsimp only
  cases h with
  | whole hne hds =>
    obtain ⟨htake, hdrop⟩ := takeWhile_stretch hds hstop
    rw [htake, hdrop]
    split
    · next tail => exact absurd rfl (hnext '.' rfl).2
    · rfl
  | @point ws fs hws hw hfs hf =>
    have hpoint : ∀ c ∈ ('.' :: fs ++ rest).head?, c.isDigit = false := by simp
    obtain ⟨htake, hdrop⟩ := takeWhile_stretch hw hpoint
    obtain ⟨htake', -⟩ := takeWhile_stretch hf hstop
    rw [List.append_assoc, htake, hdrop]
    simp [htake', hfs]

/-- A text with its quotes escaped. -/
def escaped (cs : List Char) : List Char := cs.flatMap fun c => if c = '"' then ['\\', '"'] else [c]

@[simp] theorem toList_escapeQuotes (text : String) : (escapeQuotes text).toList = escaped text.toList := by
  simp [escapeQuotes, escaped]

@[simp] theorem escaped_append (cs ds : List Char) : escaped (cs ++ ds) = escaped cs ++ escaped ds := by simp [escaped]

/-- Where there are no quotes there is nothing to escape. -/
theorem escaped_eq_self (h : '"' ∉ cs) : escaped cs = cs := by
  induction cs with
  | nil => rfl
  | cons c cs ih =>
    simp only [List.mem_cons, not_or] at h
    have hrest : escaped cs = cs := ih h.2
    show (if c = '"' then ['\\', '"'] else [c]) ++ escaped cs = c :: cs
    rw [if_neg (Ne.symm h.1), hrest]
    rfl

theorem Quotable.tail (h : Quotable (c :: cs)) : Quotable cs := by
  refine ⟨fun d hd => h.line d (List.mem_cons_of_mem c hd), ?_⟩
  cases cs with
  | nil => simp
  | cons d cs => simpa [List.getLast?_cons_cons] using h.last

/-- What a string holds, with the quotes in it escaped, is read back up to the closing quote. -/
theorem stringBody_escaped (h : Quotable cs) :
    stringBody '"' (escaped cs ++ '"' :: rest) = (some cs, rest) := by
  have hquote : isLineEnd '"' = false := rfl
  induction cs with
  | nil => cases rest <;> simp [escaped, stringBody, hquote]
  | cons c cs ih =>
    have ih := ih h.tail
    have hc := h.line c (by simp)
    show stringBody '"' ((if c = '"' then ['\\', '"'] else [c]) ++ escaped cs ++ '"' :: rest) = _
    rw [List.append_assoc]
    generalize hmore : escaped cs ++ '"' :: rest = more at ih ⊢
    by_cases hq : c = '"'
    · subst hq
      have hbackslash : isLineEnd '\\' = false := rfl
      simp [stringBody, hbackslash, ih]
    · -- a backslash is not the last character, and the next one is shown as itself or after another backslash
      have hfree : ∀ d m, more = d :: m → ¬ (c = '\\' ∧ d = '"') := by
        rintro d m rfl ⟨rfl, rfl⟩
        cases cs with
        | nil => simpa using h.last
        | cons e cs =>
          by_cases he : e = '"' <;> simp [escaped, he] at hmore
      obtain ⟨d, m, rfl⟩ : ∃ d m, more = d :: m := List.exists_cons_of_ne_nil (by rw [← hmore]; simp)
      have hno : ¬ (c = '\\' && d = '"') = true := by simpa using hfree d m rfl
      simp only [hq, if_false, List.singleton_append]
      rw [stringBody, if_neg (by simp [hc]), if_neg hno, if_neg hq, ih]
      rfl

end Text

/-! ### What comes next -/

section Heads
variable {c : Char} {cs ds rest tail : List Char}

/-- A character that is read as a mark, or with the next one as a mark of two. -/
def isMarkHead (c : Char) : Bool := !(isLineEnd c || isWordStart c || c.isDigit || c == '"' || c == '\'' || c == '$')

theorem codeHead_mark (hc : isMarkHead c = true) (hcomment : c = '/' → tail.head? ≠ some '/') :
    codeHead (c :: tail) = .ofMark c tail.head? := by
  simp only [isMarkHead, Bool.not_eq_true', Bool.or_eq_false_iff, beq_eq_false_iff_ne] at hc
  obtain ⟨⟨⟨⟨⟨hline, hword⟩, hdigit⟩, hdouble⟩, hsingle⟩, hdollar⟩ := hc
  have hcomment : ¬ (c = '/' && decide (tail.head? = some '/')) = true := by simpa using hcomment
  rw [codeHead, if_neg hcomment]
  simp [hline, hword, hdigit, hdouble, hsingle, hdollar]

/-- A mark takes one character, or two. -/
theorem ofMark_eq {kind : TokenKind} {value : String}
    (hmark : Punctuator.ofChars c (ds ++ rest).head? = .token kind value (ds.length + 1)) :
    CodeHead.ofMark c (ds ++ rest).head? = .token kind value (c :: ds) := by
  have hfits := Punctuator.fits_ofChars c (ds ++ rest).head?
  rw [hmark] at hfits
  unfold CodeHead.ofMark
  rw [hmark]
  obtain ⟨hwidth | ⟨hwidth, -⟩, -⟩ := hfits
  · obtain rfl : ds = [] := List.length_eq_zero_iff.mp (by omega)
    rfl
  · obtain ⟨d, rfl⟩ := List.length_eq_one_iff.mp (show ds.length = 1 by omega)
    rfl

theorem wordHead_stretch (hname : isIdentifier cs = true) (hnext : ∀ c ∈ rest.head?, isWordPart c = false) :
    wordHead (cs ++ rest) = cs := by
  obtain ⟨c, tail, rfl⟩ : ∃ c tail, cs = c :: tail := List.exists_cons_of_ne_nil (by rintro rfl; cases hname)
  simp only [isIdentifier, Bool.and_eq_true, List.all_eq_true] at hname
  have hpart : ∀ d ∈ c :: tail, isWordPart d = true :=
    List.forall_mem_cons.mpr ⟨isWordPart_of_isWordStart hname.1, hname.2⟩
  have htake := (takeWhile_stretch hpart hnext).1
  simpa [wordHead, hname.1] using htake

theorem codeHead_word (hname : isIdentifier cs = true) (hnext : ∀ c ∈ rest.head?, isWordPart c = false) :
    codeHead (cs ++ rest) = .ofWord cs := by
  have hword := wordHead_stretch hname hnext
  obtain ⟨c, tail, rfl⟩ : ∃ c tail, cs = c :: tail := List.exists_cons_of_ne_nil (by rintro rfl; cases hname)
  have hstart : isWordStart c = true := by
    simp only [isIdentifier, Bool.and_eq_true] at hname
    exact hname.1
  rw [List.cons_append] at hword ⊢
  rw [codeHead_of_isWordStart hstart, hword]

theorem codeHead_variable (hname : isIdentifier cs = true) (hnext : ∀ c ∈ rest.head?, isWordPart c = false) :
    codeHead ('$' :: cs ++ rest) = .token .reference (String.ofList cs) ('$' :: cs) := by
  have hdollar : codeHead ('$' :: (cs ++ rest)) = .ofName (wordHead (cs ++ rest)) := rfl
  rw [List.cons_append, hdollar, wordHead_stretch hname hnext]
  cases cs with
  | nil => cases hname
  | cons c cs => rfl

theorem codeHead_number {d : Decimal} (hspells : Numeral.Spells cs d)
    (hnext : ∀ c ∈ rest.head?, c.isDigit = false ∧ c ≠ '.') :
    codeHead (cs ++ rest) = .token .number (String.ofList cs) cs := by
  have hnumeral := numeral_of_spells hspells hnext
  obtain ⟨c, tail, rfl, hdigit⟩ := hspells.head
  obtain ⟨-, hline, hslash, -⟩ := plain_of_isWordPart (show isWordPart c = true by simp [isWordPart, hdigit])
  have hword : isWordStart c = false := isWordStart_of_isDigit hdigit
  rw [List.cons_append] at hnumeral ⊢
  simp [codeHead, hline, hslash, hword, hdigit, hnumeral, CodeHead.ofNumeral]

theorem codeHead_string (h : Quotable cs) :
    codeHead ('"' :: (escaped cs ++ ['"']) ++ rest) = .token .string (String.ofList cs) ('"' :: (escaped cs ++ ['"'])) := by
  have hbody : stringBody '"' (escaped cs ++ ['"'] ++ rest) = (some cs, rest) := by
    simpa using stringBody_escaped h
  have hquote : codeHead ('"' :: (escaped cs ++ ['"'] ++ rest)) = .ofString '"' (escaped cs ++ ['"'] ++ rest) := rfl
  rw [List.cons_append, hquote, CodeHead.ofString_eq hbody rfl]
  rfl

end Heads

namespace Lexer

/-- The lexer is about to scan the text as code. -/
structure Before (s : Lexer) (text : List Char) : Prop where
  mode : s.mode = .code
  pending : s.pending = []
  rest : s.rest = text

/-- The lexer scans these characters, which come next, as these tokens. -/
def Scans (s : Lexer) (cs : List Char) (ts : List Token) : Prop :=
  ∀ out, Emits (s.advance cs.length) out → Emits s (ts ++ out)

section Marks
variable {s s' : Lexer} {cs ds rest : List Char} {ts us : List Token} {c : Char} {kind : TokenKind} {value : String}

theorem Before.after (hs : s.Before (cs ++ rest)) : (s.advance cs.length).Before rest :=
  ⟨hs.mode, hs.pending, by simp [hs.rest]⟩

theorem advance_add (s : Lexer) (m n : Nat) : (s.advance m).advance n = s.advance (m + n) := by
  simp [Lexer.advance, Nat.add_assoc]

theorem Scans.trans (h : s.Scans cs ts) (h' : (s.advance cs.length).Scans ds us) : s.Scans (cs ++ ds) (ts ++ us) := by
  intro out hout
  rw [List.length_append, ← advance_add] at hout
  rw [List.append_assoc]
  exact h _ (h' _ hout)

/-- What comes next as a token, with no blank before it, is scanned as that token. -/
theorem scanCode_token (hrest : s.rest = cs ++ rest) (hblank : ∀ c ∈ cs.head?, isBlank c = false)
    (hhead : codeHead (cs ++ rest) = .token kind value cs) (hkind : kind ≠ .rightBrace) :
    s.scanCode = (.ok (s.tokenHere kind value), s.advance cs.length) := by
  have hfits := fits_codeHead (cs ++ rest)
  rw [hhead] at hfits
  obtain ⟨c, tail, rfl⟩ := List.exists_cons_of_ne_nil hfits.1
  rw [scanCode_eq, skipBlanks_eq (by simpa [hrest] using hblank), hrest, hhead, readCode_token hkind]

/-- A token of code that stays on the line. -/
theorem Scans.one (hs : s.Before (cs ++ rest)) (hblank : ∀ c ∈ cs.head?, isBlank c = false)
    (hhead : codeHead (cs ++ rest) = .token kind value cs) (hkind : kind ≠ .rightBrace) :
    s.Scans cs [s.tokenHere kind value] := by
  have hscan := scanCode_token hs.rest hblank hhead hkind
  have hfits := fits_codeHead (cs ++ rest)
  rw [hhead] at hfits
  have heof : kind ≠ .eof := by
    rintro rfl
    cases hfits.2.2.2
  have heof : (s.tokenHere kind value).isEof = false := by simpa [Token.isEof, tokenHere] using heof
  exact fun _ hout => .token hs.pending (Ran.pass (.code (.inl hs.mode) hscan)) heof hout

/-- A blank before a token is passed over with it. -/
theorem scanCode_blank (hrest : s.rest = c :: rest) (hc : isBlank c = true) : s.scanCode = (s.advance 1).scanCode := by
  have hskip : (s.advance 1).skipBlanks = s.skipBlanks := by
    simp only [skipBlanks, Lexer.advance, hrest, hc, List.drop_succ_cons, List.drop_zero, List.takeWhile_cons_of_pos,
      List.dropWhile_cons_of_pos, List.length_cons, Lexer.mk.injEq, true_and, and_true]
    omega
  rw [scanCode_eq, scanCode_eq, hskip]

/-- Lexers whose next pass is the same emit the same. -/
theorem emits_of_pass_eq {out : List Token} (hs : s.pending = []) (hs' : s'.pending = []) (hpass : s.pass = s'.pass)
    (h : Emits s' out) : Emits s out := by
  cases h with
  | queued hpending _ _ =>
    rw [hs'] at hpending
    cases hpending
  | again _ h hout => exact .again hs (hpass.trans h) hout
  | token _ h ht hout => exact .token hs (hpass.trans h) ht hout
  | last _ h ht => exact .last hs (hpass.trans h) ht

theorem Scans.blank (hs : s.Before (' ' :: rest)) : s.Scans [' '] [] := by
  intro out hout
  have hcode := scanCode_blank hs.rest (c := ' ') rfl
  have hpass : s.pass = (s.advance 1).pass := by simp [pass, hs.mode, hcode]
  have hpending : (s.advance 1).pending = [] := hs.pending
  exact emits_of_pass_eq hs.pending hpending hpass hout

/-- Marks that expressions are written with. -/
def marks : List Char := ['|', '&', '=', '!', '>', '<', '+', '-', '*', '/', '%', '(', ')', ',']

theorem Scans.mark (hs : s.Before (c :: ds ++ rest)) (hc : c ∈ marks) (hcomment : c = '/' → (ds ++ rest).head? ≠ some '/')
    (hmark : Punctuator.ofChars c (ds ++ rest).head? = .token kind value (ds.length + 1)) :
    s.Scans (c :: ds) [s.tokenHere kind value] := by
  have hplain : ∀ c ∈ marks, isBlank c = false ∧ isMarkHead c = true ∧ c ≠ '\x7d' := List.all_iff_forall_prop.mp (by decide)
  obtain ⟨hblank, hhead, hbrace⟩ := hplain c hc
  have hcloses := Punctuator.closes_ofChars c (ds ++ rest).head?
  rw [hmark] at hcloses
  refine .one hs (by simpa using hblank) ?_ (mt hcloses.mp hbrace)
  rw [List.cons_append, codeHead_mark hhead hcomment, ofMark_eq hmark]

theorem Scans.word (hs : s.Before (cs ++ rest)) (hname : isIdentifier cs = true)
    (hnext : ∀ c ∈ rest.head?, isWordPart c = false) :
    s.Scans cs [s.tokenHere ((keyword? (String.ofList cs)).getD .identifier) (String.ofList cs)] := by
  refine .one hs ?_ (codeHead_word hname hnext) (keyword_ne_rightBrace _)
  cases cs with
  | nil => simp
  | cons c tail =>
    simp only [isIdentifier, Bool.and_eq_true] at hname
    simpa using (plain_of_isWordPart (isWordPart_of_isWordStart hname.1)).1

theorem Scans.variable (hs : s.Before ('$' :: cs ++ rest)) (hname : isIdentifier cs = true)
    (hnext : ∀ c ∈ rest.head?, isWordPart c = false) :
    s.Scans ('$' :: cs) [s.tokenHere .reference (String.ofList cs)] :=
  .one hs (by simp [isBlank]) (codeHead_variable hname hnext) (by decide)

theorem Scans.number {d : Decimal} (hs : s.Before (cs ++ rest)) (hspells : Numeral.Spells cs d)
    (hnext : ∀ c ∈ rest.head?, c.isDigit = false ∧ c ≠ '.') : s.Scans cs [s.tokenHere .number (String.ofList cs)] := by
  refine .one hs ?_ (codeHead_number hspells hnext) (by decide)
  obtain ⟨c, tail, rfl, hdigit⟩ := hspells.head
  simpa using (plain_of_isWordPart (show isWordPart c = true by simp [isWordPart, hdigit])).1

theorem Scans.string (hs : s.Before ('"' :: (escaped cs ++ ['"']) ++ rest)) (h : Quotable cs) :
    s.Scans ('"' :: (escaped cs ++ ['"'])) [s.tokenHere .string (String.ofList cs)] :=
  .one hs (by simp [isBlank]) (codeHead_string h) (by decide)

end Marks
end Lexer
end Parley
