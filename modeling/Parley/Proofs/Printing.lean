import Parley.Proofs.Written
import Parley.Proofs.Relocation
import Parley.Proofs.Scanning

/-! # Scanning what was written

`Expr.source` writes an expression and the lexer scans it again: the tokens are a phrase as tight as the expression,
with a tree that differs from it in places only (`Prints`). The proof follows the phrase that the expression was read
from. Each part is scanned up to the character after it, which cannot belong to it (`Delimited`): operators have
blanks on both sides, an operand is followed by a blank, a comma, a closing parenthesis or the end of the line. An
operand opens with no character that an operator before it could take along (`Opens`), so signs may stand close to
it. -/

namespace Parley

mutual

/-- The expression and all those below it. -/
def Expr.parts : Expr → List Expr
  | .unary op operand pos => .unary op operand pos :: operand.parts
  | .binary op left right pos => .binary op left right pos :: (left.parts ++ right.parts)
  | .call name args bare pos => .call name args bare pos :: partsOf args
  | .interpolated segments pos => .interpolated segments pos :: textParts segments
  | .braces e pos => .braces e pos :: e.parts
  | e => [e]

def partsOf : List Expr → List Expr
  | [] => []
  | e :: rest => e.parts ++ partsOf rest

def textParts : List Segment → List Expr
  | [] => []
  | .literal .. :: rest => textParts rest
  | .hole e _ :: rest | .stray e :: rest => e.parts ++ textParts rest

end

/-- The number is written in digits, perhaps with a fraction, and is read back from that. -/
structure Binary64.Canonical (x : Binary64) : Prop where
  decimal : ∃ d, Numeral.Spells x.text.toList d
  read : Numeral.read? x.text.toList = some x

/-- So are all numbers in the expression. -/
def Expr.Canonical (e : Expr) : Prop := ∀ x pos, Expr.number x pos ∈ e.parts → x.Canonical

/-- The phrase that an operator joins. -/
def BinaryOp.phrase : BinaryOp → Phrase
  | or => .or
  | and => .and
  | eq | ne | gt | lt | ge | le => .comparison
  | add | sub => .additive
  | mul | div | mod => .multiplicative
  | other _ => .or

/-- The tightest phrase that the source of an expression is. -/
def Expr.phrase : Expr → Phrase
  | .binary op _ _ _ => op.phrase
  | .unary .. => .unary
  | _ => .primary

/-- What stands after a printed expression. -/
def Delimited (rest : List Char) : Prop := ∀ c ∈ rest.head?, c ∈ [' ', ',', ')', '\n']

/-- The text opens as an operand does: no operator takes its first character along. -/
def Opens (text : List Char) : Prop :=
  ∃ c tail, text = c :: tail ∧ (isWordPart c = true ∨ c ∈ ['"', '$', '!', '-', '+', '('])

/-- Scanned in front of a delimiter the text is a phrase, whose tree is the expression up to places. -/
structure Prints (p : Phrase) (text : List Char) (e : Expr) : Prop where
  opens : Opens text
  scans {s : Lexer} {rest : List Char} : s.Before (text ++ rest) → Delimited rest →
    ∃ ts e', s.Scans text ts ∧ Derives p ts e' ∧ e'.placeless = e.placeless

/-- The same for a list before its closing parenthesis. -/
structure PrintsList (text : List Char) (args : List Expr) : Prop where
  opens : Opens text
  scans {s : Lexer} {rest : List Char} : s.Before (text ++ ')' :: rest) →
    ∃ ts args', s.Scans text ts ∧ DerivesList ts args' ∧
      relocateAll (fun _ => {}) args' = relocateAll (fun _ => {}) args

/-- A phrase is every looser phrase. -/
theorem Derives.lift {p q : Phrase} {ts : List Token} {e : Expr} (hpq : p.depth ≤ q.depth) (h : Derives q ts e) :
    Derives p ts e := by
  by_cases heq : p = q
  · exact heq ▸ h
  · have hp : p ≠ .primary := by
      rintro rfl
      cases q <;> simp [Phrase.depth] at hpq heq
    have hdepth := Phrase.depth_operand hp
    have hlt : p.depth ≠ q.depth := by cases p <;> cases q <;> simp [Phrase.depth] at heq ⊢
    exact .operand hp (Derives.lift (p := p.operand) (by omega) h)
termination_by q.depth - p.depth

section Text
variable {c : Char} {text us vs rest : List Char}

/-- No operator takes the character along. -/
structure Apart (c : Char) : Prop where
  equals : c ≠ '='
  slash : c ≠ '/'
  head : isArrowHead c = false

theorem Opens.head (h : Opens text) : ∃ c tail, text = c :: tail ∧ Apart c := by
  obtain ⟨c, tail, rfl, hpart | hmark⟩ := h
  · have hne : ∀ d ∈ ['=', '/', '>', '》'], c ≠ d := by
      rintro d hd rfl
      have hnone : ∀ d ∈ ['=', '/', '>', '》'], isWordPart d = false := List.all_iff_forall_prop.mp (by decide)
      rw [hnone c hd] at hpart
      cases hpart
    refine ⟨c, tail, rfl, hne '=' (by simp), hne '/' (by simp), ?_⟩
    simp [isArrowHead, hne '>' (by simp), hne '》' (by simp)]
  · have hall : ∀ c ∈ ['"', '$', '!', '-', '+', '('], c ≠ '=' ∧ c ≠ '/' ∧ isArrowHead c = false :=
      List.all_iff_forall_prop.mp (by decide)
    obtain ⟨hequals, hslash, hhead⟩ := hall c hmark
    exact ⟨c, tail, rfl, hequals, hslash, hhead⟩

/-- An operator is scanned as itself before a character that stands apart. -/
theorem scans_operator {s : Lexer} {kind : TokenKind} {symbol : String} (hsymbol : kind.symbol? = some symbol)
    (hs : s.Before (symbol.toList ++ c :: rest)) (hc : Apart c) : s.Scans symbol.toList [s.tokenHere kind symbol] := by
  have hhead : c ≠ '>' ∧ c ≠ '》' := by simpa [isArrowHead] using hc.head
  obtain ⟨d, ds, hcons, hd, hcomment, hmark⟩ : ∃ d ds, symbol = String.ofList (d :: ds) ∧ d ∈ Lexer.marks ∧
      (d = '/' → (ds ++ c :: rest).head? ≠ some '/') ∧
      Punctuator.ofChars d (ds ++ c :: rest).head? = .token kind symbol (ds.length + 1) := by
    unfold TokenKind.symbol? at hsymbol
    split at hsymbol <;> cases hsymbol <;> refine ⟨_, _, rfl, by decide, ?_, ?_⟩ <;>
      simp [Punctuator.ofChars, Punctuator.oneOrTwo, isColon, isArrowHead, hc.equals, hc.slash, hhead]
  have hchars : symbol.toList = d :: ds := by rw [hcons, String.toList_ofList]
  rw [hchars] at hs ⊢
  exact .mark hs hd hcomment hmark

theorem Opens.append (h : Opens us) : Opens (us ++ vs) := by
  obtain ⟨c, tail, rfl, hc⟩ := h
  exact ⟨c, tail ++ vs, rfl, hc⟩

/-- A word, a variable or a numeral ends where a delimiter comes. -/
theorem Delimited.next (h : Delimited rest) : ∀ c ∈ rest.head?, isWordPart c = false ∧ c ≠ '.' := by
  intro c hc
  have hall : ∀ c ∈ [' ', ',', ')', '\n'], isWordPart c = false ∧ c ≠ '.' := List.all_iff_forall_prop.mp (by decide)
  exact hall c (h c hc)

end Text

section Reprint
variable {pos : Pos} {c : Char} {us vs name : List Char}

theorem Quotable.suffix (h : Quotable (us ++ vs)) : Quotable vs := by
  induction us with
  | nil => exact h
  | cons c us ih => exact ih h.tail

theorem Quotable.cons (hline : isLineEnd c = false) (hlast : c ≠ '\\') (h : Quotable vs) : Quotable (c :: vs) := by
  refine ⟨by simpa using ⟨hline, h.line⟩, ?_⟩
  cases vs with
  | nil => simpa using hlast
  | cons d vs => simpa [List.getLast?_cons_cons] using h.last

/-- Only the last character may not be a backslash. -/
theorem Quotable.append (hus : ∀ c ∈ us, isLineEnd c = false) (hne : vs ≠ []) (h : Quotable vs) : Quotable (us ++ vs) := by
  refine ⟨fun c hc => (List.mem_append.mp hc).elim (hus c) (h.line c), ?_⟩
  rw [getLast?_append_of_ne_nil hne]
  exact h.last

theorem isSpace_of_isWordPart (h : isWordPart c = true) : isSpace c = false := by
  have hrange : (48 ≤ c.toNat ∧ c.toNat ≤ 122) ∨ 0x3400 ≤ c.toNat := by
    unfold isWordPart isWordStart at h
    delta Char.isAlpha Char.isUpper Char.isLower at h
    simp only [isIdeograph, Char.isDigit, Bool.or_eq_true, Bool.and_eq_true, decide_eq_true_eq, beq_iff_eq] at h
    rcases h with ((rfl | ⟨hle, hge⟩ | ⟨hle, hge⟩) | h) | ⟨hle, hge⟩
    · decide
    · have hle : 65 ≤ c.toNat := hle
      have hge : c.toNat ≤ 90 := hge
      omega
    · have hle : 97 ≤ c.toNat := hle
      have hge : c.toNat ≤ 122 := hge
      omega
    · omega
    · have hle : 48 ≤ c.toNat := hle
      have hge : c.toNat ≤ 57 := hge
      omega
  by_contra hspace
  simp only [isSpace, Bool.not_eq_false, Bool.or_eq_true, Bool.and_eq_true, decide_eq_true_eq, beq_iff_eq] at hspace
  omega

theorem isWordPart_of_isIdentifier (hname : isIdentifier name = true) : ∀ c ∈ name, isWordPart c = true := by
  cases name with
  | nil => simp
  | cons c name =>
    simp only [isIdentifier, Bool.and_eq_true, List.all_eq_true] at hname
    simpa using ⟨isWordPart_of_isWordStart hname.1, hname.2⟩

theorem holeName?_name (hname : isIdentifier name = true) : holeName? ('$' :: name) = some name := by
  have htrim : trim ('$' :: name) = '$' :: name := by
    have hdollar : isSpace '$' = false := by decide
    refine Numeral.strip_eq_self ?_
    simpa [hdollar] using fun c hc => isSpace_of_isWordPart (isWordPart_of_isIdentifier hname c hc)
  simp [holeName?, htrim, hname]

theorem isIdentifier_of_holeName? {body : List Char} (h : holeName? body = some name) : isIdentifier name = true := by
  unfold holeName? at h
  split at h
  · split at h
    · cases h
      assumption
    · cases h
  · cases h

theorem segmentSources_literalText (more : List Segment) :
    (String.join (Expr.segmentSources (literalText pos us ++ more))).toList =
      escaped us ++ (String.join (Expr.segmentSources more)).toList := by
  unfold literalText
  split
  · next hnil => simp [hnil, escaped]
  · simp [Expr.segmentSources]

theorem relocateText_append (f : Pos → Pos) (more : List Segment) (text : List Segment) :
    relocateText f (text ++ more) = relocateText f text ++ relocateText f more := by
  induction text with
  | nil => rfl
  | cons segment text ih => cases segment <;> simp [relocateText, ih]

theorem relocateText_literalText (f : Pos → Pos) : relocateText f (literalText pos us) = literalText (f pos) us := by
  unfold literalText
  split <;> rfl

/-- The segments of a string are printed as a text that is cut into them again; holes lose the blanks around their
names. -/
theorem Pieces.reprint {cs : List Char} {segments : List Segment} (h : Pieces pos cs segments) (hcs : Quotable cs) :
    ∃ text, (String.join (Expr.segmentSources segments)).toList = escaped text ∧
      (∀ p : Pos, ∃ again, Pieces p text again ∧
        relocateText (fun _ => {}) again = relocateText (fun _ => {}) segments) ∧
      Quotable text ∧ ('{' ∈ cs → HasBraces text) := by
  induction h with
  | @last text htext =>
    refine ⟨text, ?_, fun p => ⟨_, .last htext, by simp only [relocateText_literalText]⟩, hcs, fun h => absurd h htext⟩
    simpa [Expr.segmentSources, String.join] using segmentSources_literalText []
  | @hole text body name rest more htext hbody hname _ ih =>
    have hrest : Quotable rest := by
      have : Quotable ((text ++ '{' :: (body ++ ['}'])) ++ rest) := by simpa using hcs
      exact this.suffix
    obtain ⟨text', hsource, hpieces, hquotable, -⟩ := ih hrest
    have hident := isIdentifier_of_holeName? hname
    have hparts := isWordPart_of_isIdentifier hident
    have hfree {c : Char} (hc : isWordPart c = false) : c ∉ name := fun hmem => by
      rw [hparts c hmem] at hc
      cases hc
    have hbody' : '}' ∉ '$' :: name := by simpa using hfree (by decide)
    have hquotes : '"' ∉ '$' :: name := by simpa using hfree (by decide)
    refine ⟨text ++ '{' :: (('$' :: name) ++ '}' :: text'), ?_, fun p => ?_, ?_, fun _ => ⟨by simp, by simp⟩⟩
    · rw [segmentSources_literalText]
      have hhole : escaped ('{' :: (('$' :: name) ++ '}' :: text')) = '{' :: (('$' :: name) ++ '}' :: escaped text') := by
        have hbrace (c : Char) (hc : c ≠ '"') (cs : List Char) : escaped (c :: cs) = c :: escaped cs := by
          simp [escaped, hc]
        rw [hbrace _ (by decide), escaped_append, escaped_eq_self hquotes, hbrace _ (by decide)]
      rw [escaped_append, hhole]
      simp [Expr.segmentSources, Expr.source, inBraces, hsource]
    · obtain ⟨again, hagain, hplace⟩ := hpieces p
      refine ⟨_, .hole htext hbody' (holeName?_name hident) hagain, ?_⟩
      simp only [relocateText_append, relocateText_literalText]
      simp [relocateText, Expr.relocate, hplace]
    · have hplain : ∀ c ∈ text, isLineEnd c = false := fun c hc => hcs.line c (by simp [hc])
      have hword : ∀ c ∈ '$' :: name, isLineEnd c = false := by
        have hdollar : isLineEnd '$' = false := rfl
        simpa [hdollar] using fun c hc => isLineEnd_of_isWordPart (hparts c hc)
      have hclosed := hquotable.cons (c := '}') (by decide) (by decide)
      exact .append hplain (by simp) ((Quotable.append hword (by simp) hclosed).cons (by decide) (by decide))

end Reprint

section Prints
variable {p q : Phrase} {text us vs : List Char} {e left right : Expr} {args : List Expr} {t op : Token} {pos : Pos}

theorem Prints.lift (hpq : p.depth ≤ q.depth) (h : Prints q text e) : Prints p text e where
  opens := h.opens
  scans hs hnext := by
    obtain ⟨ts, e', hscans, hder, hplace⟩ := h.scans hs hnext
    exact ⟨ts, e', hscans, hder.lift hpq, hplace⟩

/-- A mark that no character after it changes. -/
theorem scans_paren {s : Lexer} {rest : List Char} :
    (s.Before ('(' :: rest) → s.Scans ['('] [s.tokenHere .leftParen "("]) ∧
      (s.Before (')' :: rest) → s.Scans [')'] [s.tokenHere .rightParen ")"]) ∧
        (s.Before (',' :: rest) → s.Scans [','] [s.tokenHere .comma ","]) :=
  ⟨fun hs => .mark hs (by decide) (fun h => absurd h (by decide)) rfl,
    fun hs => .mark hs (by decide) (fun h => absurd h (by decide)) rfl,
    fun hs => .mark hs (by decide) (fun h => absurd h (by decide)) rfl⟩

theorem Prints.parens (h : Prints .or text e) : Prints .primary ('(' :: (text ++ [')'])) e where
  opens := ⟨'(', _, rfl, .inr (by simp)⟩
  scans {s rest} hs hnext := by
    have hopen : s.Before (['('] ++ (text ++ ([')'] ++ rest))) := by simpa using hs
    have hclose := hopen.after.after
    obtain ⟨ts, e', hscans, hder, hplace⟩ := h.scans hopen.after (by simp [Delimited])
    exact ⟨_, e', (scans_paren.1 hopen).trans (hscans.trans (scans_paren.2.1 hclose)), .parens rfl hder rfl, hplace⟩

theorem Prints.wrapIf {wrap : Bool} {body : String} (h : Prints q body.toList e)
    (hpq : wrap = false → p.depth ≤ q.depth) : Prints p (Expr.wrapIf wrap body).toList e := by
  cases wrap with
  | false => exact h.lift (hpq rfl)
  | true =>
    have hor : Phrase.depth .or ≤ q.depth := Nat.zero_le _
    have hprimary : p.depth ≤ Phrase.depth .primary := by cases p <;> decide
    simpa [Expr.wrapIf] using (h.lift hor).parens.lift hprimary

/-- An operator that joins a phrase is read back from its spelling. -/
theorem Phrase.symbol?_of_mem {kind : TokenKind} (h : kind ∈ p.operators) :
    ∃ symbol, kind.symbol? = some symbol ∧ (BinaryOp.ofSymbol symbol).symbol = symbol ∧
      (BinaryOp.ofSymbol symbol).phrase = p ∧ (BinaryOp.ofSymbol symbol).strength = p.depth + 1 := by
  cases p <;> simp [Phrase.operators] at h <;> rcases h with rfl | rfl | rfl | rfl | rfl | rfl <;>
    exact ⟨_, rfl, rfl, rfl, rfl⟩

theorem Prints.binary (hleft : Prints p us left) (hop : op.kind ∈ p.operators) (hgenuine : op.Genuine)
    (hright : Prints p.operand vs right) :
    Prints p (us ++ ([' '] ++ (op.value.toList ++ ([' '] ++ vs)))) (.binary (.ofSymbol op.value) left right pos) where
  opens := hleft.opens.append
  scans {s rest} hs hnext := by
    obtain ⟨symbol, hsymbol, -⟩ := Phrase.symbol?_of_mem hop
    obtain rfl := hgenuine.operator symbol hsymbol
    have hs₀ : s.Before (us ++ ([' '] ++ (op.value.toList ++ ([' '] ++ (vs ++ rest))))) := by simpa using hs
    have hs₁ := hs₀.after
    have hs₂ := hs₁.after
    have hs₃ := hs₂.after
    have hs₄ := hs₃.after
    obtain ⟨ts, left', hscans, hder, hplace⟩ := hleft.scans hs₀ (by simp [Delimited])
    obtain ⟨ts', right', hscans', hder', hplace'⟩ := hright.scans hs₄ hnext
    have hgap := Lexer.Scans.blank hs₁
    have hspace := Lexer.Scans.blank hs₃
    have hsign := scans_operator hsymbol hs₂ ⟨by decide, by decide, rfl⟩
    refine ⟨_, _, hscans.trans (hgap.trans (hsign.trans (hspace.trans hscans'))), .binary hder hop hder', ?_⟩
    show Expr.binary _ left'.placeless right'.placeless _ = .binary _ left.placeless right.placeless _
    rw [hplace, hplace']
    rfl

/-- So is a sign. -/
theorem symbol?_of_sign {kind : TokenKind} (h : kind ∈ [TokenKind.not, .minus, .plus]) :
    ∃ symbol, kind.symbol? = some symbol ∧ Opens symbol.toList ∧ (UnaryOp.ofSymbol symbol).symbol = symbol := by
  simp only [List.mem_cons, List.not_mem_nil, or_false] at h
  rcases h with rfl | rfl | rfl
  · exact ⟨"!", rfl, ⟨'!', [], by simp, by simp⟩, rfl⟩
  · exact ⟨"-", rfl, ⟨'-', [], by simp, by simp⟩, rfl⟩
  · exact ⟨"+", rfl, ⟨'+', [], by simp, by simp⟩, rfl⟩

theorem Prints.unary (hop : op.kind ∈ [TokenKind.not, .minus, .plus]) (hgenuine : op.Genuine) (h : Prints .unary text e) :
    Prints .unary (op.value.toList ++ text) (.unary (.ofSymbol op.value) e pos) := by
  obtain ⟨symbol, hsymbol, hopens, -⟩ := symbol?_of_sign hop
  obtain rfl := hgenuine.operator symbol hsymbol
  refine ⟨hopens.append, fun {s rest} hs hnext => ?_⟩
  obtain ⟨d, tail, rfl, hapart⟩ := h.opens.head
  have hs₀ : s.Before (op.value.toList ++ (d :: tail ++ rest)) := by simpa using hs
  obtain ⟨ts, e', hscans, hder, hplace⟩ := h.scans hs₀.after hnext
  refine ⟨_, _, (scans_operator hsymbol hs₀ hapart).trans hscans, .unary hop hder, ?_⟩
  show Expr.unary _ e'.placeless _ = .unary _ e.placeless _
  rw [hplace]
  rfl

/-- An expression of one token. -/
theorem Prints.token {kind : TokenKind} {value : String} (hopens : Opens text)
    (hscan : ∀ (s : Lexer) (rest : List Char), s.Before (text ++ rest) → Delimited rest →
      s.Scans text [s.tokenHere kind value])
    (hder : ∀ t : Token, t.kind = kind → t.value = value → ∃ e', Derives .primary [t] e' ∧ e'.placeless = e.placeless) :
    Prints .primary text e where
  opens := hopens
  scans {s rest} hs hnext := by
    obtain ⟨e', he', hplace⟩ := hder (s.tokenHere kind value) rfl rfl
    exact ⟨_, e', hscan s rest hs hnext, he', hplace⟩

theorem opens_of_isIdentifier (h : isIdentifier text = true) : Opens text := by
  cases text with
  | nil => cases h
  | cons c tail =>
    simp only [isIdentifier, Bool.and_eq_true] at h
    exact ⟨c, tail, rfl, .inl (isWordPart_of_isWordStart h.1)⟩

theorem prints_number {x : Binary64} (hx : x.Canonical) : Prints .primary x.text.toList (.number x pos) := by
  obtain ⟨d, hd⟩ := hx.decimal
  refine @Prints.token _ _ .number x.text ?_ (fun s rest hs hnext => ?_) fun t hkind hvalue => ?_
  · obtain ⟨c, tail, htext, hc⟩ := hd.head
    exact ⟨c, tail, htext, .inl (by simp [isWordPart, hc])⟩
  · have hscan := Lexer.Scans.number hs hd fun c hc => ?_
    · simpa using hscan
    · obtain ⟨hpart, hpoint⟩ := hnext.next c hc
      simp only [isWordPart, Bool.or_eq_false_iff] at hpart
      exact ⟨hpart.2, hpoint⟩
  · have hread : x = d.toBinary false := by
      have := hx.read
      rw [Numeral.read?_of_spells hd] at this
      exact (Option.some.inj this).symm
    exact ⟨_, .number hkind (hvalue ▸ hd), by rw [hread]; rfl⟩

theorem prints_string {value : String} (hquotable : Quotable value.toList) (hbraces : ¬ HasBraces value.toList) :
    Prints .primary ('"' :: (escaped value.toList ++ ['"'])) (.string value pos) := by
  refine .token ⟨'"', _, rfl, .inr (by simp)⟩ (fun s rest hs _ => ?_)
    fun t hkind hvalue => ⟨_, .string hkind (hvalue ▸ hbraces), by rw [hvalue]; rfl⟩
  simpa using Lexer.Scans.string hs hquotable

/-- A word of code is one token. -/
theorem scans_word {s : Lexer} {rest : List Char} {word : String} (hname : isIdentifier word.toList = true)
    (hs : s.Before (word.toList ++ rest)) (hnext : ∀ c ∈ rest.head?, isWordPart c = false) :
    s.Scans word.toList [s.tokenHere ((keyword? word).getD .identifier) word] := by
  simpa using Lexer.Scans.word hs hname hnext

theorem prints_boolean (value : Bool) :
    Prints .primary (if value then "true" else "false").toList (.boolean value pos) := by
  cases value with
  | false =>
    have hname : isIdentifier "false".toList = true := by decide
    exact .token (opens_of_isIdentifier hname)
      (fun _ _ hs hnext => scans_word hname hs fun c hc => (hnext.next c hc).1)
      fun t hkind _ => ⟨_, .falseWord hkind, rfl⟩
  | true =>
    have hname : isIdentifier "true".toList = true := by decide
    exact .token (opens_of_isIdentifier hname)
      (fun _ _ hs hnext => scans_word hname hs fun c hc => (hnext.next c hc).1)
      fun t hkind _ => ⟨_, .trueWord hkind, rfl⟩

theorem prints_reference {name : String} (hname : isIdentifier name.toList = true) :
    Prints .primary ('$' :: name.toList) (.reference name pos) := by
  refine .token ⟨'$', _, rfl, .inr (by simp)⟩ (fun s rest hs hnext => ?_)
    fun t hkind hvalue => ⟨_, .reference hkind, by rw [hvalue]; rfl⟩
  simpa using Lexer.Scans.variable hs hname fun c hc => (hnext.next c hc).1

theorem prints_name {name : String} (hname : isIdentifier name.toList = true) (hfree : keyword? name = none) :
    Prints .primary name.toList (.call name [] true pos) := by
  refine .token (opens_of_isIdentifier hname) (fun s rest hs hnext => ?_)
    fun t hkind hvalue => ⟨_, .name hkind, by rw [hvalue]; rfl⟩
  simpa [hfree] using scans_word hname hs fun c hc => (hnext.next c hc).1

theorem Prints.one (h : Prints .or text e) : PrintsList text [e] where
  opens := h.opens
  scans hs := by
    obtain ⟨ts, e', hscans, hder, hplace⟩ := h.scans hs (by simp [Delimited])
    refine ⟨ts, [e'], hscans, .one hder, ?_⟩
    show [e'.placeless] = [e.placeless]
    rw [hplace]

theorem Prints.more (h : Prints .or us e) (hmore : PrintsList vs args) :
    PrintsList (us ++ ([','] ++ ([' '] ++ vs))) (e :: args) where
  opens := h.opens.append
  scans {s rest} hs := by
    have hs₀ : s.Before (us ++ ([','] ++ ([' '] ++ (vs ++ ')' :: rest)))) := by simpa using hs
    have hs₁ := hs₀.after
    have hs₂ := hs₁.after
    obtain ⟨ts, e', hscans, hder, hplace⟩ := h.scans hs₀ (by simp [Delimited])
    obtain ⟨ts', args', hscans', hder', hplace'⟩ := hmore.scans hs₂.after
    have hcomma := scans_paren.2.2 hs₁
    have hgap := Lexer.Scans.blank hs₂
    refine ⟨_, e' :: args', hscans.trans (hcomma.trans (hgap.trans hscans')), .more hder rfl hder', ?_⟩
    show e'.placeless :: relocateAll _ args' = e.placeless :: relocateAll _ args
    rw [hplace, hplace']

section Calls
variable {name : String} (hname : isIdentifier name.toList = true) (hfree : keyword? name = none)
include hname hfree

theorem prints_call : Prints .primary (name.toList ++ (['('] ++ [')'])) (.call name [] false pos) where
  opens := (opens_of_isIdentifier hname).append
  scans {s rest} hs hnext := by
    have hs₀ : s.Before (name.toList ++ (['('] ++ ([')'] ++ rest))) := by simpa using hs
    have hs₁ := hs₀.after
    have hword := scans_word hname hs₀ (by simp [isWordPart, isWordStart, isIdeograph])
    rw [hfree] at hword
    exact ⟨_, _, hword.trans ((scans_paren.1 hs₁).trans (scans_paren.2.1 hs₁.after)), .call rfl rfl rfl, rfl⟩

theorem PrintsList.call (h : PrintsList text args) :
    Prints .primary (name.toList ++ (['('] ++ (text ++ [')']))) (.call name args false pos) where
  opens := (opens_of_isIdentifier hname).append
  scans {s rest} hs hnext := by
    have hs₀ : s.Before (name.toList ++ (['('] ++ (text ++ ([')'] ++ rest)))) := by simpa using hs
    have hs₁ := hs₀.after
    have hs₂ := hs₁.after
    have hword := scans_word hname hs₀ (by simp [isWordPart, isWordStart, isIdeograph])
    rw [hfree] at hword
    obtain ⟨ts, args', hscans, hder, hplace⟩ := h.scans hs₂
    have hclose := scans_paren.2.1 hs₂.after
    refine ⟨_, _, hword.trans ((scans_paren.1 hs₁).trans (hscans.trans hclose)), .callWith rfl rfl hder rfl, ?_⟩
    show Expr.call name (relocateAll _ args') false _ = .call name (relocateAll _ args) false _
    rw [hplace]

end Calls

theorem prints_interpolated {value : String} {segments : List Segment} (hquotable : Quotable value.toList)
    (hbraces : HasBraces value.toList) (h : Pieces pos value.toList segments) :
    Prints .primary (quoted (String.join (Expr.segmentSources segments))).toList (.interpolated segments pos) := by
  obtain ⟨text, hsource, hpieces, hquotable', hbraces'⟩ := h.reprint hquotable
  have hquoted : (quoted (String.join (Expr.segmentSources segments))).toList = '"' :: (escaped text ++ ['"']) := by
    rw [quoted, String.toList_append, String.toList_append, hsource]
    simp
  rw [hquoted]
  refine .token ⟨'"', _, rfl, .inr (by simp)⟩
    (fun s rest hs _ => Lexer.Scans.string hs hquotable') fun t hkind hvalue => ?_
  have htext : t.value.toList = text := by rw [hvalue, String.toList_ofList]
  obtain ⟨again, hagain, hplace⟩ := hpieces t.pos
  refine ⟨_, .interpolated hkind (htext ▸ hbraces' hbraces.1) (htext ▸ hagain), ?_⟩
  show Expr.interpolated (relocateText _ again) _ = .interpolated (relocateText _ segments) _
  rw [hplace]

/-- What is left out of an operand without parentheses binds tightly enough. -/
theorem Expr.le_depth_phrase {n : Nat} (hn : n ≤ 5) (e : Expr) (h : (e.strength?.any fun s => decide (s ≤ n)) = false) :
    n ≤ e.phrase.depth := by
  cases e with
  | binary op left right pos =>
    have hstrength : op.strength ≤ op.phrase.depth + 1 := by
      cases op with
      | other => exact Nat.zero_le _
      | _ => decide
    have hlt : n < op.strength := by simpa [Expr.strength?] using h
    show n ≤ op.phrase.depth
    omega
  | unary => exact hn
  | _ => exact Nat.le_succ_of_le hn

theorem Expr.unary_le_depth_phrase (e : Expr) (h : e.strength?.isSome = false) : Phrase.unary.depth ≤ e.phrase.depth := by
  cases e with
  | binary => cases h
  | unary => exact Nat.le_refl _
  | _ => exact Nat.le_succ _

mutual

theorem Derives.prints {p : Phrase} {ts : List Token} {e : Expr} (h : Derives p ts e) (hgenuine : ∀ t ∈ ts, t.Genuine)
    (hnum : e.Canonical) : Prints e.phrase e.source.toList e := by
  match h with
  | .operand _ h => exact h.prints hgenuine hnum
  | @Derives.binary _ us vs op left right hleft hop hright =>
    simp only [List.mem_append, List.mem_cons, or_imp, forall_and, forall_eq, Expr.Canonical, Expr.parts] at hgenuine hnum
    obtain ⟨hus, hgop, hvs⟩ := hgenuine
    obtain ⟨symbol, hsymbol, hspelled, hphrase, hstrength⟩ := Phrase.symbol?_of_mem hop
    obtain rfl := hgop.operator symbol hsymbol
    have hdepth : p.depth < 5 := by cases p <;> simp [Phrase.operators] at hop <;> decide
    have hnext : p.operand.depth = p.depth + 1 := Phrase.depth_operand (by rintro rfl; cases hop)
    have hl : Prints p (Expr.wrapIf (left.strength?.any fun s => s < (BinaryOp.ofSymbol op.value).strength)
        left.source).toList left :=
      (hleft.prints hus hnum.2.1).wrapIf fun hwrap => by
        simp only [hstrength, Nat.lt_succ_iff] at hwrap
        exact Expr.le_depth_phrase (by omega) left hwrap
    have hr : Prints p.operand (Expr.wrapIf (right.strength?.any fun s => s ≤ (BinaryOp.ofSymbol op.value).strength)
        right.source).toList right :=
      (hright.prints hvs hnum.2.2).wrapIf fun hwrap => by
        rw [hstrength] at hwrap
        rw [hnext]
        exact Expr.le_depth_phrase hdepth right hwrap
    simpa [Expr.source, Expr.phrase, hspelled, hphrase] using hl.binary hop hgop hr
  | @Derives.unary op ts e hop h =>
    simp only [List.mem_cons, or_imp, forall_and, forall_eq, Expr.Canonical, Expr.parts] at hgenuine hnum
    obtain ⟨symbol, hsymbol, -, hspelled⟩ := symbol?_of_sign hop
    obtain rfl := hgenuine.1.operator symbol hsymbol
    have hoperand : Prints .unary (Expr.wrapIf e.strength?.isSome e.source).toList e :=
      (h.prints hgenuine.2 hnum.2).wrapIf e.unary_le_depth_phrase
    simpa [Expr.source, Expr.phrase, hspelled] using hoperand.unary hop hgenuine.1
  | .number (t := t) (d := d) hkind hd => exact prints_number (hnum _ _ (.head _))
  | .string (t := t) hkind hplain =>
    have hquotable := (hgenuine t (by simp)).string hkind
    simpa [Expr.source, Expr.phrase, quoted] using prints_string hquotable hplain
  | .interpolated (t := t) hkind hbraces hpieces =>
    have hquotable := (hgenuine t (by simp)).string hkind
    exact prints_interpolated hquotable hbraces hpieces
  | .trueWord _ => exact prints_boolean true
  | .falseWord _ => exact prints_boolean false
  | .reference (t := t) hkind =>
    simpa [Expr.source, Expr.phrase] using prints_reference ((hgenuine t (by simp)).reference hkind)
  | .name (t := t) hkind =>
    obtain ⟨hname, hfree⟩ := (hgenuine t (by simp)).name hkind
    exact prints_name hname hfree
  | @Derives.call name _ _ hkind hopening hclosing =>
    obtain ⟨hname, hfree⟩ := (hgenuine name (by simp)).name hkind
    simpa [Expr.source, Expr.sources, Expr.phrase] using prints_call hname hfree
  | @Derives.callWith name _ _ _ _ hkind hopening hargs hclosing =>
    obtain ⟨hname, hfree⟩ := (hgenuine name (by simp)).name hkind
    have hlist := hargs.prints (fun t ht => hgenuine t (by simp [ht])) (by simpa [Expr.Canonical, Expr.parts] using hnum)
    simpa [Expr.source, Expr.phrase] using hlist.call hname hfree
  | .parens _ h _ => exact h.prints (fun t ht => hgenuine t (by simp [ht])) hnum

theorem DerivesList.prints {ts : List Token} {args : List Expr} (h : DerivesList ts args)
    (hgenuine : ∀ t ∈ ts, t.Genuine) (hnum : ∀ x pos, Expr.number x pos ∈ partsOf args → x.Canonical) :
    PrintsList ([',', ' '].intercalate ((Expr.sources args).map String.toList)) args := by
  match h with
  | .one h =>
    have hone := h.prints hgenuine (by simpa [Expr.Canonical, partsOf] using hnum)
    simpa [Expr.sources] using (hone.lift (Nat.zero_le _)).one
  | @DerivesList.more us vs comma e es h hcomma hmore =>
    simp only [List.mem_append, List.mem_cons, or_imp, forall_and, partsOf] at hgenuine hnum
    have hfirst := h.prints hgenuine.1 hnum.1
    have hrest := hmore.prints hgenuine.2.2 hnum.2
    obtain ⟨d, ds, rfl⟩ : ∃ d ds, es = d :: ds := by cases hmore <;> exact ⟨_, _, rfl⟩
    simpa [Expr.sources] using (hfirst.lift (Nat.zero_le _)).more hrest

end

end Prints
end Parley
