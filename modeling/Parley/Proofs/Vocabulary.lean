import Parley.Proofs.Emission
import Parley.Proofs.Numerals

/-! # The words that code is made of

A token scanned as code has the value that its kind calls for (`Token.Genuine`): a name is an identifier and no
keyword, a number is a decimal numeral, the text of a string fits between two quotes again, an operator is spelled as
itself. Tokens of free text promise none of this; a tag or a speaker may be called `if`. But the lexer is scanning
code from every keyword up to the end of its line, and from every opening brace up to the closing one, which is where
expressions are. `Orderly` says this of a stream of tokens alone, and the stream of every text is orderly
(`Emits.orderly`). -/

namespace Parley

/-- The text stays what it is between two quotes of any kind, once those quotes are escaped in it: it does not end the
line, nor does it escape the closing quote. -/
structure Quotable (text : List Char) : Prop where
  line : ∀ c ∈ text, isLineEnd c = false
  last : text.getLast? ≠ some '\\'

/-- The spelling of an operator. -/
def TokenKind.symbol? : TokenKind → Option String
  | or => some "||"
  | and => some "&&"
  | equals => some "=="
  | notEquals => some "!="
  | greater => some ">"
  | less => some "<"
  | greaterEquals => some ">="
  | lessEquals => some "<="
  | plus => some "+"
  | minus => some "-"
  | multiply => some "*"
  | divide => some "/"
  | modulo => some "%"
  | not => some "!"
  | _ => none

/-- The value is one that code gives to a token of this kind. -/
structure Token.Genuine (t : Token) : Prop where
  name : t.kind = .identifier → isIdentifier t.value.toList = true ∧ keyword? t.value = none
  reference : t.kind = .reference → isIdentifier t.value.toList = true
  number : t.kind = .number → ∃ d, Numeral.Spells t.value.toList d
  string : t.kind = .string → Quotable t.value.toList
  operator : ∀ symbol, t.kind.symbol? = some symbol → t.value = symbol

/-- Kinds whose values are free. -/
theorem Token.Genuine.of_kind {t : Token} (hkind : t.kind ∉ [TokenKind.identifier, .reference, .number, .string])
    (hsymbol : t.kind.symbol? = none) : t.Genuine := by
  simp only [List.mem_cons, List.not_mem_nil, or_false, not_or] at hkind
  obtain ⟨hname, hreference, hnumber, hstring⟩ := hkind
  exact ⟨fun h => absurd h hname, fun h => absurd h hreference, fun h => absurd h hnumber, fun h => absurd h hstring,
    fun symbol h => by rw [hsymbol] at h; cases h⟩

section Scan
variable {quote c : Char} {cs tail : List Char}

/-- Only the quote closes a string at once. -/
theorem eq_quote_of_stringBody {left : List Char} (h : stringBody quote (c :: tail) = (some [], left)) : c = quote := by
  cases tail with
  | nil =>
    unfold stringBody at h
    split at h
    · cases h
    · split at h
      · assumption
      · cases h
  | cons d tail =>
    unfold stringBody at h
    split at h
    · cases h
    · split at h
      · cases hbody : (stringBody quote tail).1 <;> simp [hbody] at h
      · split at h
        · assumption
        · cases hbody : (stringBody quote (d :: tail)).1 <;> simp [hbody] at h

/-- What a string holds can be put between quotes again: a backslash at its end would have escaped the quote. -/
theorem quotable_of_stringBody (hquote : isLineEnd quote = false) (hbackslash : quote ≠ '\\') {body left : List Char}
    (h : stringBody quote cs = (some body, left)) : Quotable body := by
  fun_induction stringBody quote cs generalizing body with
  | case1 => cases h
  | case2 c hc => cases h
  | case3 hc =>
    cases h
    exact ⟨by simp, by simp⟩
  | case4 c hc hne => cases h
  | case5 c d tail hc => cases h
  | case6 c d tail hc hesc inner after heq ih =>
    cases inner with
    | none => cases h
    | some inner =>
      cases h
      obtain ⟨hline, hlast⟩ := ih heq
      refine ⟨by simpa using ⟨hquote, hline⟩, ?_⟩
      cases inner with
      | nil => simpa using hbackslash
      | cons d inner => simpa [List.getLast?_cons_cons] using hlast
  | case7 d tail hc hesc =>
    cases h
    exact ⟨by simp, by simp⟩
  | case8 c d tail hc hesc hne inner after heq ih =>
    cases inner with
    | none => cases h
    | some inner =>
      cases h
      obtain ⟨hline, hlast⟩ := ih heq
      refine ⟨by simpa using ⟨by simpa using hc, hline⟩, ?_⟩
      cases inner with
      | cons d inner => simpa [List.getLast?_cons_cons] using hlast
      | nil =>
        -- the next character closes the string, so the one before it is no backslash
        obtain rfl := eq_quote_of_stringBody heq
        simpa using hesc

theorem isIdentifier_wordHead (h : wordHead cs ≠ []) : isIdentifier (wordHead cs) = true := by
  cases cs with
  | nil => exact absurd rfl h
  | cons c tail =>
    by_cases hc : isWordStart c = true
    · simp [wordHead, isIdentifier, hc, isWordPart_of_isWordStart hc]
    · simp [wordHead, hc] at h

/-- The numeral that opens with a digit is a decimal numeral. -/
theorem spells_numeral (hc : c.isDigit = true) : ∃ d, Numeral.Spells (numeral (c :: tail)) d := by
  have hwhole : ∀ d ∈ (c :: tail).takeWhile Char.isDigit, d.isDigit = true := fun d hd => List.mem_takeWhile_imp hd
  have hne : (c :: tail).takeWhile Char.isDigit ≠ [] := by simp [hc]
  unfold numeral
  dsimp only
  split
  · split
    · exact ⟨_, .whole hne hwhole⟩
    · next hfraction => exact ⟨_, .point hne hwhole (by simpa using hfraction) fun d hd => List.mem_takeWhile_imp hd⟩
  · exact ⟨_, .whole hne hwhole⟩

/-- A keyword is neither a name nor a value nor an operator. -/
theorem keyword?_eq_some {word : String} {kind : TokenKind} (h : keyword? word = some kind) :
    kind ∉ [TokenKind.identifier, .reference, .number, .string] ∧ kind.symbol? = none := by
  unfold keyword? at h
  split at h <;> cases h <;> decide

end Scan

namespace Punctuator

/-- The value is the one that the kind calls for. -/
def Spelled : Punctuator → Prop
  | .broken => True
  | .token kind value _ =>
    kind ∉ [TokenKind.identifier, .reference, .number, .string] ∧ (kind.symbol? = none ∨ kind.symbol? = some value)

theorem spelled_oneOrTwo {double : Bool} {two one : TokenKind × String} (htwo : (token two.1 two.2 2).Spelled)
    (hone : (token one.1 one.2 1).Spelled) : (oneOrTwo double two one).Spelled := by
  cases double with
  | false => exact hone
  | true => exact htwo

theorem spelled_ofChars (c : Char) (second : Option Char) : (ofChars c second).Spelled := by
  unfold ofChars
  dsimp only
  split
  · exact spelled_oneOrTwo ⟨by decide, .inl rfl⟩ ⟨by decide, .inl rfl⟩
  · split
    · exact spelled_oneOrTwo ⟨by decide, .inl rfl⟩ ⟨by decide, .inr rfl⟩
    · split
      · exact ⟨by decide, .inl rfl⟩
      · exact spelled_oneOrTwo ⟨by decide, .inr rfl⟩ ⟨by decide, .inl rfl⟩
    · exact spelled_oneOrTwo ⟨by decide, .inr rfl⟩ ⟨by decide, .inr rfl⟩
    · exact spelled_oneOrTwo ⟨by decide, .inr rfl⟩ ⟨by decide, .inr rfl⟩
    · exact spelled_oneOrTwo ⟨by decide, .inr rfl⟩ ⟨by decide, .inr rfl⟩
    · split
      · exact ⟨by decide, .inr rfl⟩
      · trivial
    · split
      · exact ⟨by decide, .inr rfl⟩
      · trivial
    all_goals first | exact ⟨by decide, .inr rfl⟩ | exact ⟨by decide, .inl rfl⟩

end Punctuator

namespace CodeHead
variable {quote : Char} {cs tail : List Char}

/-- What is read has the value that its kind calls for. -/
def Genuine : CodeHead → Prop
  | .token kind value _ => ∀ line column, Token.Genuine ⟨kind, value, line, column⟩
  | _ => True

theorem genuine_ofWord (h : wordHead cs ≠ []) : (ofWord (wordHead cs)).Genuine := by
  intro line column
  cases hkeyword : keyword? (String.ofList (wordHead cs)) with
  | none => exact ⟨fun _ => ⟨by simpa using isIdentifier_wordHead h, hkeyword⟩, nofun, nofun, nofun, nofun⟩
  | some kind =>
    obtain ⟨hkind, hsymbol⟩ := keyword?_eq_some hkeyword
    exact .of_kind hkind hsymbol

theorem genuine_ofNumeral {digits : List Char} {d : Decimal} (h : Numeral.Spells digits d) : (ofNumeral digits).Genuine :=
  fun _ _ => ⟨by rintro ⟨⟩, by rintro ⟨⟩, fun _ => ⟨d, by simpa using h⟩, by rintro ⟨⟩, by rintro _ ⟨⟩⟩

theorem genuine_ofString (hquote : isLineEnd quote = false) (hbackslash : quote ≠ '\\') :
    (ofString quote tail).Genuine := by
  rcases hbody : stringBody quote tail with ⟨_ | body, left⟩ <;> unfold ofString <;> rw [hbody]
  · trivial
  · exact fun _ _ => ⟨nofun, nofun, nofun, fun _ => by simpa using quotable_of_stringBody hquote hbackslash hbody, nofun⟩

theorem genuine_ofName (tail : List Char) : (ofName (wordHead tail)).Genuine := by
  cases hname : wordHead tail with
  | nil => trivial
  | cons c name =>
    have hidentifier : isIdentifier (c :: name) = true := hname ▸ isIdentifier_wordHead (by simp [hname])
    exact fun _ _ => ⟨nofun, fun _ => by simpa using hidentifier, nofun, nofun, nofun⟩

theorem genuine_ofMark (c : Char) (second : Option Char) : (ofMark c second).Genuine := by
  have hspelled := Punctuator.spelled_ofChars c second
  unfold ofMark
  cases hmark : Punctuator.ofChars c second with
  | broken => trivial
  | token kind value width =>
    rw [hmark] at hspelled
    intro line column
    obtain ⟨hkind, hnone | hsome⟩ := hspelled
    · exact .of_kind hkind hnone
    · simp only [List.mem_cons, List.not_mem_nil, or_false, not_or] at hkind
      obtain ⟨hname, hreference, hnumber, hstring⟩ := hkind
      exact ⟨fun h => absurd h hname, fun h => absurd h hreference, fun h => absurd h hnumber,
        fun h => absurd h hstring, fun symbol h => Option.some.inj (hsome.symm.trans h)⟩

end CodeHead

theorem genuine_codeHead (cs : List Char) : (codeHead cs).Genuine := by
  cases cs with
  | nil => trivial
  | cons c tail =>
    rw [codeHead]
    split
    · trivial
    next hc =>
    split
    · trivial
    split
    · next hword => exact CodeHead.genuine_ofWord (wordHead_ne_nil hword)
    split
    · next hdigit =>
      obtain ⟨d, hd⟩ := @spells_numeral c tail hdigit
      exact CodeHead.genuine_ofNumeral hd
    split
    · next hquote =>
      refine CodeHead.genuine_ofString (by simpa using hc) ?_
      rintro rfl
      simp at hquote
    split
    · exact CodeHead.genuine_ofName tail
    · exact CodeHead.genuine_ofMark c _

namespace Lexer
variable {s s' : Lexer} {t : Token}

theorem genuine_newline (s : Lexer) : s.newline.1.Genuine := by
  refine .of_kind ?_ rfl
  show TokenKind.newline ∉ _
  decide

/-- Scanning code yields genuine tokens only. -/
theorem genuine_scanCode (hs : s.scanCode = (.ok t, s')) : t.Genuine := by
  have hgenuine := genuine_codeHead s.skipBlanks.rest
  rw [scanCode_eq] at hs
  cases hhead : codeHead s.skipBlanks.rest with
  | ending | comment =>
    rw [hhead] at hs
    cases hs
    exact genuine_newline _
  | token kind value text =>
    rw [hhead] at hs hgenuine
    cases hs
    exact hgenuine _ _
  | refused =>
    rw [hhead] at hs
    cases hs

end Lexer

namespace TokenKind

/-- After a token of this kind the lexer scans code. -/
def opensCode : TokenKind → Bool
  | ifWord | elifWord | leftBrace => true
  | kind => kind.isCommand

/-- Whether code is certain after a token of this kind, if it was before. -/
def leavesCode (code : Bool) : TokenKind → Bool
  | newline | rightBrace => false
  | kind => code || kind.opensCode

end TokenKind

/-- Where code is certain, the tokens are genuine; numbers are so everywhere. -/
def Orderly : Bool → List Token → Prop
  | _, [] => True
  | code, t :: ts => (code = true ∨ t.kind = .number → t.Genuine) ∧ Orderly (t.kind.leavesCode code) ts

namespace Lexer

/-- The lexer scans code. -/
def InCode (s : Lexer) : Prop := s.mode = .code ∨ s.mode = .interpolation

section Modes
variable {s s' : Lexer} {t : Token} {c : Char} {tail : List Char}

theorem kind_tagHead {cs text : List Char} {kind : TokenKind} (h : tagHead cs = some (kind, text)) :
    kind ∈ [TokenKind.newline, .comma, .hash, .identifier, .text] := by
  cases cs with
  | nil => cases h
  | cons c tail =>
    rw [tagHead] at h
    split at h
    · cases h
    split at h
    · cases h
      exact .tail _ (.head _)
    split at h
    · cases h
      exact .tail _ (.tail _ (.head _))
    · cases h
      rcases kind_wordKind ((c :: tail).takeWhile isTagChar) with hkind | hkind <;> rw [hkind] <;> decide

/-- Free text opens code with a brace only. -/
theorem kind_scanText (hs : s.scanText = (some t, s')) :
    t.kind ∈ [TokenKind.newline, .hash, .leftBracket, .text] ∨ t.kind = .leftBrace ∧ s'.mode = .interpolation := by
  rw [scanText_eq] at hs
  cases hhead : textHead s.begun.inChoice s.begun.rest.head? with
  | ending =>
    rw [hhead] at hs
    cases hs
    exact .inl (.head _)
  | mark =>
    rw [hhead] at hs
    cases hs
    obtain ⟨rfl | rfl | ⟨rfl, rfl⟩, -⟩ := textHead_mark hhead
    · exact .inl (.tail _ (.head _))
    · exact .inl (.tail _ (.tail _ (.head _)))
    · exact .inr ⟨rfl, rfl⟩
  | run =>
    rw [hhead] at hs
    obtain ⟨-, htext⟩ := Option.ite_none_left_eq_some.mp (congrArg Prod.fst hs)
    cases htext
    exact .inl (.tail _ (.tail _ (.tail _ (.head _))))

theorem kind_scanTag (hs : s.scanTag = (t, s')) : t.kind ∈ [TokenKind.newline, .comma, .hash, .identifier, .text] := by
  rw [scanTag_eq] at hs
  cases hhead : tagHead s.skipBlanks.rest with
  | none =>
    rw [hhead] at hs
    cases hs
    exact .head _
  | some head =>
    rw [hhead] at hs
    cases hs
    exact kind_tagHead hhead

theorem leavesCode_of_ne {kind : TokenKind} {code : Bool} (h : kind.leavesCode code = true) :
    kind ≠ .newline ∧ kind ≠ .rightBrace ∧ (code = true ∨ kind.opensCode = true) := by
  unfold TokenKind.leavesCode at h
  split at h
  · cases h
  · cases h
  · next hnewline hbrace => exact ⟨hnewline, hbrace, by simpa using h⟩

/-- Where code is certain the lexer scans code, so a token that it yields is genuine, and it goes on where code is still
certain after the token. -/
theorem orderly_pass {code : Bool} (h : s.pass = (.token t, s')) (hcode : code = true → s.InCode) :
    (code = true ∨ t.kind = .number → t.Genuine) ∧ (t.kind.leavesCode code = true → s'.InCode) := by
  -- outside code only a brace leads to it, and there are no numbers
  have houtside (hcode : code = false) (hnumber : t.kind ≠ .number) (hopens : t.kind.opensCode = true → s'.InCode) :
      (code = true ∨ t.kind = .number → t.Genuine) ∧ (t.kind.leavesCode code = true → s'.InCode) := by
    subst hcode
    refine ⟨fun h => absurd (h.resolve_left nofun) hnumber, fun hleaves => ?_⟩
    obtain ⟨-, -, hcode | hyes⟩ := leavesCode_of_ne hleaves
    · cases hcode
    · exact hopens hyes
  cases ran_of_pass h with
  | code hmode hscan =>
    refine ⟨fun _ => genuine_scanCode hscan, fun hleaves => ?_⟩
    obtain ⟨hnewline, hbrace, -⟩ := leavesCode_of_ne hleaves
    rcases mode_scanCode hscan with ⟨hkind, -⟩ | ⟨hkind, -⟩ | hsame
    · exact absurd hkind hnewline
    · exact absurd hkind hbrace
    · rwa [InCode, hsame]
  | text hmode hscan =>
    have hnone : ∀ kind ∈ [TokenKind.newline, .hash, .leftBracket, .text],
        kind ≠ .number ∧ kind.opensCode = false := by decide
    have hfree : code = false := by simpa [InCode, hmode] using hcode
    rcases kind_scanText hscan with hkind | ⟨hkind, hbrace⟩
    · obtain ⟨hnumber, hopens⟩ := hnone _ hkind
      exact houtside hfree hnumber (by rw [hopens]; nofun)
    · exact houtside hfree (by rw [hkind]; decide) fun _ => .inr hbrace
  | tags hmode hscan =>
    have hnone : ∀ kind ∈ [TokenKind.newline, .comma, .hash, .identifier, .text],
        kind ≠ .number ∧ kind.opensCode = false := by decide
    obtain ⟨hnumber, hopens⟩ := hnone _ (kind_scanTag hscan)
    exact houtside (by simpa [InCode, hmode] using hcode) hnumber (by rw [hopens]; nofun)
  | done hmode => exact houtside (by simpa [InCode, hmode] using hcode) nofun nofun

/-- What waits in the queue opens a block, a line or a choice. -/
def Plain (s : Lexer) : Prop := ∀ t ∈ s.pending, t.kind ∈ queuedKinds

theorem plain_pass_again (hs : s.Plain) (h : s.pass = (.again, s')) : s'.Plain := by
  obtain ⟨ts, hts, hkinds⟩ := pending_pass_again h
  intro t ht
  rw [hts] at ht
  exact (List.mem_append.mp ht).elim (hs t) (hkinds t)

end Modes
end Lexer

/-- Every stream of tokens is orderly. -/
theorem Emits.orderly {s : Lexer} {ts : List Token} (h : Emits s ts) (hplain : s.Plain) {code : Bool}
    (hcode : code = true → s.pending = [] ∧ s.InCode) : Orderly code ts := by
  induction h generalizing code with
  | @queued s t ts out hpending _ _ ih =>
    have hfree : code = false := by
      by_contra htrue
      have := (hcode (by simpa using htrue)).1
      rw [hpending] at this
      cases this
    subst hfree
    have hqueued : ∀ kind ∈ Lexer.queuedKinds, kind.leavesCode false = false ∧ kind ≠ .number := by decide
    obtain ⟨hstill, hnumber⟩ := hqueued _ (hplain t (by simp [hpending]))
    have hrest : Lexer.Plain { s with pending := ts } := by
      intro u hu
      exact hplain u (by rw [hpending]; exact List.mem_cons_of_mem t hu)
    refine ⟨fun h => absurd (h.resolve_left nofun) hnumber, ?_⟩
    rw [hstill]
    exact ih hrest fun htrue => by cases htrue
  | @again s s' out hpending hpass _ ih =>
    refine ih (Lexer.plain_pass_again hplain hpass) fun htrue => ?_
    have hin := (hcode htrue).2
    rcases Lexer.pass_again hpass with ⟨hmode, -⟩ | ⟨hmode, -⟩ <;> simp [Lexer.InCode, hmode] at hin
  | @token s s' t out hpending hpass ht _ ih =>
    obtain ⟨hgenuine, hstill⟩ := Lexer.orderly_pass hpass fun htrue => (hcode htrue).2
    have hempty : s'.pending = [] := by
      rcases Lexer.pass_token hpass with ⟨-, hline⟩ | ⟨-, -, rfl⟩
      · rw [hline.pending, hpending]
      · exact hpending
    refine ⟨hgenuine, ih (fun u hu => ?_) fun hleaves => ⟨hempty, hstill hleaves⟩⟩
    rw [hempty] at hu
    cases hu
  | @last s s' t hpending hpass ht =>
    exact ⟨(Lexer.orderly_pass hpass fun htrue => (hcode htrue).2).1, trivial⟩

end Parley
