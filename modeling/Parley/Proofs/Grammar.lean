import Parley.Parser.Expression
import Parley.Proofs.Numerals
import Parley.Proofs.StringPieces

/-! # The grammar of expressions

`Derives` is the grammar as it is written down: every phrase joins parts of the next tighter phrase with its own
operators, the left part being a phrase of the same kind again. The parser climbs the same ladder with loops instead
of left recursion, and stops where it cannot go on. That it reads exactly the phrases, and how far, is
`expression_iff`.

Soundness is an induction on the number of calls. Its invariant is that the tokens taken so far derive the tree built
so far, and that what comes next cannot go on with it (`Ends`): neither an operator of the phrase or of a tighter one,
nor an opening parenthesis after a name. Completeness is an induction on the derivation. A left recursion of the
grammar is a turn of the parser's loop, so its invariant for a joined phrase is about the middle of the loop
(`Chains`): having taken the phrase, the loop is about to look at what follows, with nearly as many calls left as
before. Ten calls for each token are enough, which is what the parser allows itself. -/

namespace Parley

/-- What tokens can be read as, the loosest binding first. -/
inductive Phrase where
  | or | and | comparison | additive | multiplicative | unary | primary
deriving DecidableEq, Repr

namespace Phrase

/-- The operators that join the parts of a phrase. -/
def operators : Phrase → List TokenKind
  | or => [.or]
  | and => [.and]
  | comparison => [.equals, .notEquals, .greater, .less, .greaterEquals, .lessEquals]
  | additive => [.plus, .minus]
  | multiplicative => [.multiply, .divide, .modulo]
  | unary | primary => []

/-- The phrase that the parts are. -/
def operand : Phrase → Phrase
  | or => and
  | and => comparison
  | comparison => additive
  | additive => multiplicative
  | multiplicative => unary
  | unary | primary => primary

end Phrase

mutual

/-- The tokens are a phrase, and this is its tree: operators associate to the left, parentheses leave no trace, and
every part stands at its operator or else at its first token. -/
inductive Derives : Phrase → List Token → Expr → Prop
  | operand {p : Phrase} {ts : List Token} {e : Expr} (hp : p ≠ .primary) (h : Derives p.operand ts e) : Derives p ts e
  | binary {p : Phrase} {us vs : List Token} {op : Token} {left right : Expr} (hleft : Derives p us left)
      (hop : op.kind ∈ p.operators) (hright : Derives p.operand vs right) :
      Derives p (us ++ op :: vs) (.binary (.ofSymbol op.value) left right op.pos)
  | unary {op : Token} {ts : List Token} {e : Expr} (hop : op.kind ∈ [TokenKind.not, .minus, .plus])
      (h : Derives .unary ts e) : Derives .unary (op :: ts) (.unary (.ofSymbol op.value) e op.pos)
  | number {t : Token} {d : Decimal} (hkind : t.kind = .number) (hd : Numeral.Spells t.value.toList d) :
      Derives .primary [t] (.number (d.toBinary false) t.pos)
  | string {t : Token} (hkind : t.kind = .string) (hplain : ¬ HasBraces t.value.toList) :
      Derives .primary [t] (.string t.value t.pos)
  | interpolated {t : Token} {segments : List Segment} (hkind : t.kind = .string) (hbraces : HasBraces t.value.toList)
      (hpieces : Pieces t.pos t.value.toList segments) : Derives .primary [t] (.interpolated segments t.pos)
  | trueWord {t : Token} (hkind : t.kind = .trueWord) : Derives .primary [t] (.boolean true t.pos)
  | falseWord {t : Token} (hkind : t.kind = .falseWord) : Derives .primary [t] (.boolean false t.pos)
  | reference {t : Token} (hkind : t.kind = .reference) : Derives .primary [t] (.reference t.value t.pos)
  | name {t : Token} (hkind : t.kind = .identifier) : Derives .primary [t] (.call t.value [] true t.pos)
  | call {name opening closing : Token} (hname : name.kind = .identifier) (hopening : opening.kind = .leftParen)
      (hclosing : closing.kind = .rightParen) :
      Derives .primary [name, opening, closing] (.call name.value [] false name.pos)
  | callWith {name opening closing : Token} {ts : List Token} {args : List Expr} (hname : name.kind = .identifier)
      (hopening : opening.kind = .leftParen) (hargs : DerivesList ts args) (hclosing : closing.kind = .rightParen) :
      Derives .primary (name :: opening :: (ts ++ [closing])) (.call name.value args false name.pos)
  | parens {opening closing : Token} {ts : List Token} {e : Expr} (hopening : opening.kind = .leftParen)
      (h : Derives .or ts e) (hclosing : closing.kind = .rightParen) :
      Derives .primary (opening :: (ts ++ [closing])) e

/-- The tokens are one phrase or more, with commas between them. -/
inductive DerivesList : List Token → List Expr → Prop
  | one {ts : List Token} {e : Expr} (h : Derives .or ts e) : DerivesList ts [e]
  | more {us vs : List Token} {comma : Token} {e : Expr} {es : List Expr} (h : Derives .or us e)
      (hcomma : comma.kind = .comma) (hmore : DerivesList vs es) : DerivesList (us ++ comma :: vs) (e :: es)

end

namespace Phrase

/-- How tightly a phrase binds. -/
def depth : Phrase → Nat
  | or => 0
  | and => 1
  | comparison => 2
  | additive => 3
  | multiplicative => 4
  | unary => 5
  | primary => 6

/-- The tiers that the parser climbs to read a phrase. -/
def tiers (p : Phrase) : List (List TokenKind) := Reading.tiers.drop p.depth

theorem tiers_eq {p : Phrase} (h : p.operators ≠ []) : p.tiers = p.operators :: p.operand.tiers := by
  cases p <;> first | rfl | exact absurd rfl h

theorem operators_of_unary_le {p : Phrase} (h : unary.depth ≤ p.depth) : p.operators = [] := by
  cases p <;> first | rfl | exact absurd h (by decide)

/-- Every phrase is reached from the loosest one by going over to its parts. -/
theorem depth_operand {p : Phrase} (hp : p ≠ .primary) : p.operand.depth = p.depth + 1 := by
  cases p <;> first | rfl | exact absurd rfl hp

/-- An operator joins one kind of phrase only. -/
theorem eq_of_mem_operators {p q : Phrase} {kind : TokenKind} (hp : kind ∈ p.operators) (hq : kind ∈ q.operators) :
    p = q := by
  cases p <;> simp [operators] at hp <;> cases q <;> simp [operators] at hq <;> grind

end Phrase

/-- The kinds of tokens that expressions are made of. -/
def TokenKind.inExpression : TokenKind → Bool
  | or | and | equals | notEquals | greater | less | greaterEquals | lessEquals | plus | minus | multiply | divide | modulo
  | not | number | string | trueWord | falseWord | reference | identifier | leftParen | rightParen | comma => true
  | _ => false

theorem Phrase.inExpression_of_mem {p : Phrase} {kind : TokenKind} (h : kind ∈ p.operators) :
    kind.inExpression = true := by
  cases p <;> simp [operators] at h <;> rcases h with rfl | rfl | rfl | rfl | rfl | rfl <;> rfl

mutual

theorem Derives.inExpression {p : Phrase} {ts : List Token} {e : Expr} (h : Derives p ts e) :
    ∀ t ∈ ts, t.kind.inExpression = true := by
  match h with
  | .operand _ h => exact h.inExpression
  | .binary hleft hop hright =>
    simpa [or_imp, forall_and] using ⟨hleft.inExpression, Phrase.inExpression_of_mem hop, hright.inExpression⟩
  | .unary hop h =>
    have hsign : ∀ kind ∈ [TokenKind.not, .minus, .plus], kind.inExpression = true := by decide
    simpa [or_imp, forall_and] using ⟨hsign _ hop, h.inExpression⟩
  | .number hkind _ | .string hkind _ | .interpolated hkind _ _ | .trueWord hkind | .falseWord hkind | .reference hkind
  | .name hkind => simp [hkind, TokenKind.inExpression]
  | .call hname hopening hclosing => simp [hname, hopening, hclosing, TokenKind.inExpression]
  | .callWith hname hopening hargs hclosing =>
    have := hargs.inExpression
    simpa [hname, hopening, hclosing, TokenKind.inExpression, or_imp, forall_and] using this
  | .parens hopening h hclosing =>
    have := h.inExpression
    simpa [hopening, hclosing, TokenKind.inExpression, or_imp, forall_and] using this

theorem DerivesList.inExpression {ts : List Token} {es : List Expr} (h : DerivesList ts es) :
    ∀ t ∈ ts, t.kind.inExpression = true := by
  match h with
  | .one h => exact h.inExpression
  | .more h hcomma hmore =>
    have hmark : TokenKind.inExpression .comma = true := rfl
    simpa [or_imp, forall_and, hcomma] using ⟨h.inExpression, hmark, hmore.inExpression⟩

end

/-- A phrase opens with a token, and not with a closing parenthesis. -/
theorem Derives.opens {p : Phrase} {ts : List Token} {e : Expr} (h : Derives p ts e) :
    ∃ t us, ts = t :: us ∧ t.kind ≠ .rightParen := by
  match h with
  | .operand _ h => exact h.opens
  | .binary hleft _ _ =>
    obtain ⟨t, us, rfl, ht⟩ := hleft.opens
    exact ⟨t, _, rfl, ht⟩
  | .unary hop _ =>
    refine ⟨_, _, rfl, ?_⟩
    rintro hkind
    rw [hkind] at hop
    simp at hop
  | .number hkind _ | .string hkind _ | .interpolated hkind _ _ | .trueWord hkind | .falseWord hkind | .reference hkind
  | .name hkind | .call hkind _ _ | .callWith hkind _ _ _ | .parens hkind _ _ =>
    exact ⟨_, _, rfl, by rw [hkind]; decide⟩

theorem Derives.ne_nil {p : Phrase} {ts : List Token} {e : Expr} (h : Derives p ts e) : ts ≠ [] := by
  obtain ⟨t, us, rfl, -⟩ := h.opens
  simp

theorem DerivesList.opens {ts : List Token} {es : List Expr} (h : DerivesList ts es) :
    ∃ t us, ts = t :: us ∧ t.kind ≠ .rightParen := by
  cases h with
  | one h => exact h.opens
  | more h _ _ =>
    obtain ⟨t, us, rfl, ht⟩ := h.opens
    exact ⟨t, _, rfl, ht⟩

section Taken
variable {p : Phrase} {ts us used rest : List Token} {e : Expr}

/-- What comes next cannot go on with the phrase that was taken. -/
structure Ends (p : Phrase) (used rest : List Token) : Prop where
  operator : ∀ q : Phrase, p.depth ≤ q.depth → (Reading.peek rest).kind ∉ q.operators
  call : ∀ t ∈ used.getLast?, t.kind = .identifier → (Reading.peek rest).kind ≠ .leftParen

/-- A phrase that joins nothing ends wherever it is not the name of a call. -/
theorem Ends.of_single (hp : Phrase.unary.depth ≤ p.depth)
    (hcall : ∀ t ∈ used.getLast?, t.kind = .identifier → (Reading.peek rest).kind ≠ .leftParen) : Ends p used rest := by
  refine ⟨fun q hq => ?_, hcall⟩
  rw [Phrase.operators_of_unary_le (Nat.le_trans hp hq)]
  exact List.not_mem_nil

/-- After an operator that is no longer looked for, what ends the parts ends the whole. -/
theorem Ends.of_operand (hp : p ≠ .primary) (hop : (Reading.peek rest).kind ∉ p.operators) (h : Ends p.operand used rest) :
    Ends p used rest := by
  refine ⟨fun q hq => ?_, h.call⟩
  by_cases heq : p.depth = q.depth
  · have : p = q := by cases p <;> cases q <;> first | rfl | simp [Phrase.depth] at heq
    exact this ▸ hop
  · exact h.operator q (by rw [Phrase.depth_operand hp]; omega)

/-- An operator of the phrase ends each of its parts. -/
theorem Ends.of_mem {op : Token} (hop : op.kind ∈ p.operators) : Ends p.operand used (op :: rest) := by
  refine ⟨fun q hq hmem => ?_, fun _ _ _ heq => ?_⟩
  · obtain rfl := Phrase.eq_of_mem_operators hop hmem
    have hp : p ≠ .primary := by rintro rfl; simp [Phrase.operators] at hop
    rw [Phrase.depth_operand hp] at hq
    omega
  · have heq : op.kind = .leftParen := heq
    rw [heq] at hop
    cases p <;> simp [Phrase.operators] at hop

theorem getLast?_append_of_ne_nil {α : Type} {us used : List α} (hne : used ≠ []) :
    (us ++ used).getLast? = used.getLast? := by
  rw [List.getLast?_append, List.getLast?_eq_some_getLast hne, Option.some_or]

/-- Only the last token taken matters. -/
theorem Ends.append_iff (hne : used ≠ []) : Ends p (us ++ used) rest ↔ Ends p used rest := by
  have hlast : (us ++ used).getLast? = used.getLast? := getLast?_append_of_ne_nil hne
  exact ⟨fun h => ⟨h.operator, hlast ▸ h.call⟩, fun h => ⟨h.operator, hlast.symm ▸ h.call⟩⟩

theorem Ends.cons_iff {t : Token} (hne : used ≠ []) : Ends p (t :: used) rest ↔ Ends p used rest := by
  rw [← List.singleton_append, Ends.append_iff hne]

/-- What ends a phrase ends its last part. -/
theorem Ends.operand (hp : p ≠ .primary) (h : Ends p used rest) : Ends p.operand used rest :=
  ⟨fun q hq => h.operator q (by rw [Phrase.depth_operand hp] at hq; omega), h.call⟩

/-- A closing mark or the end of the line ends any phrase. -/
theorem Ends.of_closing {t : Token} (h : t.kind ∈ [TokenKind.rightParen, .comma, .rightBrace, .rightBracket, .newline]) :
    Ends p used (t :: rest) := by
  refine ⟨fun q _ hmem => ?_, fun _ _ _ heq => ?_⟩
  · have hmem : t.kind ∈ q.operators := hmem
    simp only [List.mem_cons, List.not_mem_nil, or_false] at h
    rcases h with h | h | h | h | h <;> rw [h] at hmem <;> cases q <;> simp [Phrase.operators] at hmem
  · have heq : t.kind = .leftParen := heq
    rw [heq] at h
    simp at h

end Taken

/-- Tokens that are numbers hold decimal numerals. -/
def Numbered (ts : List Token) : Prop :=
  ∀ t ∈ ts, t.kind = .number → ∃ d, Numeral.Spells t.value.toList d

theorem Numbered.right {us vs : List Token} (h : Numbered (us ++ vs)) : Numbered vs :=
  fun t ht => h t (List.mem_append_right us ht)

theorem Numbered.tail {t : Token} {ts : List Token} (h : Numbered (t :: ts)) : Numbered ts :=
  fun u hu => h u (List.mem_cons_of_mem t hu)

namespace Reading

theorem ok_of_bind {ε α β : Type} {x : Except ε α} {f : α → Except ε β} {b : β} (h : (x >>= f) = .ok b) :
    ∃ a, x = .ok a ∧ f a = .ok b := by
  cases x with
  | error e => cases h
  | ok a => exact ⟨a, rfl, h⟩

/-- A token that is no end of text is there and can be passed. -/
theorem eq_cons_of_kind {ts : List Token} {kind : TokenKind} (h : (peek ts).kind = kind) (hkind : kind ≠ .eof) :
    ts = peek ts :: skip ts := by
  cases ts with
  | nil => exact absurd h.symm hkind
  | cons t ts =>
    have hno : t.isEof = false := by
      have : t.kind = kind := h
      simpa [Token.isEof, this] using hkind
    simp [peek, skip, hno]

/-- A phrase stands before `rest`, and `rest` does not go on with it. -/
def Takes (p : Phrase) (ts : List Token) (e : Expr) (rest : List Token) : Prop :=
  ∃ used, ts = used ++ rest ∧ Derives p used e ∧ Ends p used rest

/-- With this many calls the parser takes phrases, and lists of them with their closing parenthesis. -/
structure Sound (fuel : Nat) : Prop where
  tiers {p : Phrase} {ts rest : List Token} {e : Expr} : Numbered ts → p ≠ .primary →
    tiersIn fuel p.tiers ts = .ok (e, rest) → Takes p ts e rest
  operators {p : Phrase} {us ts rest : List Token} {left e : Expr} : Numbered ts → p.operators ≠ [] →
    Derives p us left → Ends p.operand us ts → operatorsIn fuel p.operators p.operand.tiers left ts = .ok (e, rest) →
    ∃ used, ts = used ++ rest ∧ Derives p (us ++ used) e ∧ Ends p (us ++ used) rest
  unary {ts rest : List Token} {e : Expr} : Numbered ts → unaryIn fuel ts = .ok (e, rest) → Takes .unary ts e rest
  primary {ts rest : List Token} {e : Expr} : Numbered ts → primaryIn fuel ts = .ok (e, rest) → Takes .primary ts e rest
  arguments {ts rest : List Token} {args : List Expr} : Numbered ts → argumentsIn fuel ts = .ok (args, rest) →
    ∃ used closing, ts = used ++ closing :: rest ∧ closing.kind = .rightParen ∧
      (used = [] ∧ args = [] ∨ DerivesList used args)
  list {ts rest : List Token} {args : List Expr} : Numbered ts → argumentListIn fuel ts = .ok (args, rest) →
    ∃ used closing, ts = used ++ closing :: rest ∧ closing.kind = .rightParen ∧ DerivesList used args

section Sound
variable {fuel : Nat} {p : Phrase} {ts us rest : List Token} {left e : Expr} {args : List Expr}

/-- What is taken with a closing token is the token. -/
theorem consume_ok {kind : TokenKind} {expected : String} {t : Token} (hkind : kind ≠ .eof)
    (h : consume kind expected ts = .ok (t, rest)) : t.kind = kind ∧ ts = t :: rest := by
  unfold consume at h
  split at h
  · next hsees =>
    have hpeek : (peek ts).kind = kind := by simpa [sees] using hsees
    cases h
    exact ⟨hpeek, eq_cons_of_kind hpeek hkind⟩
  · cases h

theorem operand_ne_primary (hp : p.operators ≠ []) : p.operand ≠ .primary := by
  cases p <;> first | exact absurd rfl hp | simp [Phrase.operand]

theorem ne_primary (hp : p.operators ≠ []) : p ≠ .primary := by
  rintro rfl
  exact hp rfl

theorem Sound.tiers_succ (ih : Sound fuel) (hnum : Numbered ts) (hp : p ≠ .primary)
    (h : tiersIn (fuel + 1) p.tiers ts = .ok (e, rest)) : Takes p ts e rest := by
  by_cases hop : p.operators = []
  · have hunary : p = .unary := by cases p <;> first | rfl | exact absurd rfl hp | cases hop
    subst hunary
    exact ih.unary hnum h
  · rw [Phrase.tiers_eq hop] at h
    obtain ⟨⟨left, mid⟩, hleft, hloop⟩ := ok_of_bind h
    obtain ⟨us, rfl, hus, hends⟩ := ih.tiers hnum (operand_ne_primary hop) hleft
    obtain ⟨used, rfl, hder, hends⟩ := ih.operators hnum.right hop (.operand hp hus) hends hloop
    exact ⟨us ++ used, (List.append_assoc ..).symm, hder, hends⟩

theorem Sound.operators_succ (ih : Sound fuel) (hnum : Numbered ts) (hop : p.operators ≠ []) (hus : Derives p us left)
    (hends : Ends p.operand us ts)
    (h : operatorsIn (fuel + 1) p.operators p.operand.tiers left ts = .ok (e, rest)) :
    ∃ used, ts = used ++ rest ∧ Derives p (us ++ used) e ∧ Ends p (us ++ used) rest := by
  unfold operatorsIn at h
  dsimp only at h
  split at h
  · next hcontains =>
    have hmem : (peek ts).kind ∈ p.operators := by simpa using hcontains
    have hts := eq_cons_of_kind rfl (by rintro heq; rw [heq] at hmem; cases p <;> simp [Phrase.operators] at hmem)
    generalize peek ts = op at h hmem hts
    generalize skip ts = tail at h hts
    subst hts
    obtain ⟨⟨right, mid⟩, hright, hloop⟩ := ok_of_bind h
    obtain ⟨vs, rfl, hvs, hend⟩ := ih.tiers hnum.tail (operand_ne_primary hop) hright
    have hboth := Derives.binary hus hmem hvs
    have hend' : Ends p.operand (us ++ op :: vs) mid := by
      rw [List.append_cons]
      exact (Ends.append_iff hvs.ne_nil).mpr hend
    obtain ⟨used, rfl, hder, hends⟩ := ih.operators hnum.tail.right hop hboth hend' hloop
    exact ⟨op :: (vs ++ used), by simp, by simpa using hder, by simpa using hends⟩
  · next hcontains =>
    cases h
    have hmem : (peek ts).kind ∉ p.operators := by simpa using hcontains
    exact ⟨[], rfl, by simpa using hus, by simpa using hends.of_operand (ne_primary hop) hmem⟩

theorem Sound.unary_succ (ih : Sound fuel) (hnum : Numbered ts) (h : unaryIn (fuel + 1) ts = .ok (e, rest)) :
    Takes .unary ts e rest := by
  unfold unaryIn at h
  dsimp only at h
  split at h
  · next hcontains =>
    have hmem : (peek ts).kind ∈ [TokenKind.not, .minus, .plus] := by simpa [unaryKinds] using hcontains
    have hts := eq_cons_of_kind rfl (by rintro heq; rw [heq] at hmem; simp at hmem)
    generalize peek ts = op at h hmem hts
    generalize skip ts = tail at h hts
    subst hts
    obtain ⟨⟨operand, mid⟩, hoperand, hdone⟩ := ok_of_bind h
    cases hdone
    obtain ⟨used, rfl, hused, hend⟩ := ih.unary hnum.tail hoperand
    exact ⟨op :: used, rfl, .unary hmem hused, (Ends.cons_iff hused.ne_nil).mpr hend⟩
  · obtain ⟨used, hts, hused, hend⟩ := ih.primary hnum h
    exact ⟨used, hts, .operand (by decide) hused, .of_single (Nat.le_refl _) hend.call⟩

/-- A phrase of one token that is no name. -/
theorem takes_token {t : Token} (hder : Derives .primary [t] e) (hkind : t.kind ≠ .identifier) :
    Takes .primary (t :: rest) e rest := by
  refine ⟨[t], rfl, hder, .of_single (by decide) fun u hu hname => absurd hname ?_⟩
  obtain rfl : t = u := by simpa using hu
  exact hkind

/-- A phrase that ends with a closing parenthesis. -/
theorem takes_closed (us : List Token) {closing : Token} (hclosing : closing.kind = .rightParen)
    (hder : Derives .primary (us ++ [closing]) e) :
    Takes .primary (us ++ closing :: rest) e rest := by
  refine ⟨us ++ [closing], by simp, hder, .of_single (by decide) fun u hu hname => ?_⟩
  obtain rfl : closing = u := by simpa using hu
  rw [hclosing] at hname
  cases hname

theorem Sound.primary_succ (ih : Sound fuel) (hnum : Numbered ts) (h : primaryIn (fuel + 1) ts = .ok (e, rest)) :
    Takes .primary ts e rest := by
  unfold primaryIn at h
  dsimp only at h
  have hcons {kind : TokenKind} (hkind : (peek ts).kind = kind) (hne : kind ≠ .eof) := eq_cons_of_kind hkind hne
  generalize hpeek : peek ts = t at h hcons
  generalize skip ts = tail at h hcons
  split at h
  · next hkind =>
    obtain rfl := hcons hkind (by decide)
    obtain ⟨d, hd⟩ := hnum t (by simp) hkind
    rw [Numeral.read?_of_spells hd] at h
    cases h
    exact takes_token (.number hkind hd) (by rw [hkind]; decide)
  · next hkind =>
    obtain rfl := hcons hkind (by decide)
    obtain ⟨s, hs, hdone⟩ := ok_of_bind h
    cases hdone
    have hne : t.kind ≠ .identifier := by rw [hkind]; decide
    rcases stringLiteral_iff.mp hs with ⟨hplain, rfl⟩ | ⟨hbraces, segments, hpieces, rfl⟩
    · exact takes_token (.string hkind hplain) hne
    · exact takes_token (.interpolated hkind hbraces hpieces) hne
  · next hkind =>
    obtain rfl := hcons hkind (by decide)
    cases h
    exact takes_token (.trueWord hkind) (by rw [hkind]; decide)
  · next hkind =>
    obtain rfl := hcons hkind (by decide)
    cases h
    exact takes_token (.falseWord hkind) (by rw [hkind]; decide)
  · next hkind =>
    obtain rfl := hcons hkind (by decide)
    cases h
    exact takes_token (.reference hkind) (by rw [hkind]; decide)
  · next hkind =>
    obtain rfl := hcons hkind (by decide)
    split at h
    · next hsees =>
      have hopening : (peek tail).kind = .leftParen := by simpa [sees] using hsees
      have htail := eq_cons_of_kind hopening (by decide)
      generalize peek tail = opening at hopening htail
      generalize skip tail = inside at h htail
      subst htail
      obtain ⟨⟨args, after⟩, hargs, hdone⟩ := ok_of_bind h
      cases hdone
      obtain ⟨used, closing, rfl, hclosing, ⟨rfl, rfl⟩ | hused⟩ := ih.arguments hnum.tail.tail hargs
      · exact takes_closed [t, opening] hclosing (.call hkind hopening hclosing)
      · exact takes_closed (t :: opening :: used) hclosing (.callWith hkind hopening hused hclosing)
    · next hsees =>
      have hopening : (peek tail).kind ≠ .leftParen := by simpa [sees] using hsees
      cases h
      exact ⟨[t], rfl, .name hkind, .of_single (by decide) fun _ _ _ => hopening⟩
  · next hkind =>
    obtain rfl := hcons hkind (by decide)
    obtain ⟨⟨inner, mid⟩, hinner, hrest⟩ := ok_of_bind h
    obtain ⟨⟨closing, after⟩, hconsume, hdone⟩ := ok_of_bind hrest
    cases hdone
    obtain ⟨used, rfl, hused, -⟩ := ih.tiers (p := .or) hnum.tail (by decide) hinner
    obtain ⟨hclosing, rfl⟩ := consume_ok (by decide) hconsume
    exact takes_closed (t :: used) hclosing (.parens hkind hused hclosing)
  · cases h

theorem Sound.arguments_succ (ih : Sound fuel) (hnum : Numbered ts) (h : argumentsIn (fuel + 1) ts = .ok (args, rest)) :
    ∃ used closing, ts = used ++ closing :: rest ∧ closing.kind = .rightParen ∧
      (used = [] ∧ args = [] ∨ DerivesList used args) := by
  unfold argumentsIn at h
  split at h
  · next hsees =>
    cases h
    have hclosing : (peek ts).kind = .rightParen := by simpa [sees] using hsees
    exact ⟨[], peek ts, eq_cons_of_kind hclosing (by decide), hclosing, .inl ⟨rfl, rfl⟩⟩
  · obtain ⟨used, closing, hts, hclosing, hused⟩ := ih.list hnum h
    exact ⟨used, closing, hts, hclosing, .inr hused⟩

theorem Sound.list_succ (ih : Sound fuel) (hnum : Numbered ts) (h : argumentListIn (fuel + 1) ts = .ok (args, rest)) :
    ∃ used closing, ts = used ++ closing :: rest ∧ closing.kind = .rightParen ∧ DerivesList used args := by
  unfold argumentListIn at h
  obtain ⟨⟨arg, mid⟩, harg, hrest⟩ := ok_of_bind h
  obtain ⟨us, rfl, hus, -⟩ := ih.tiers (p := .or) hnum (by decide) harg
  dsimp only at hrest
  split at hrest
  · next hsees =>
    have hcomma : (peek mid).kind = .comma := by simpa [sees] using hsees
    have hmid := eq_cons_of_kind hcomma (by decide)
    generalize peek mid = comma at hcomma hmid
    generalize skip mid = tail at hrest hmid
    subst hmid
    obtain ⟨⟨more, after⟩, hmore, hdone⟩ := ok_of_bind hrest
    cases hdone
    obtain ⟨vs, closing, rfl, hclosing, hvs⟩ := ih.list hnum.right.tail hmore
    exact ⟨us ++ comma :: vs, closing, by simp, hclosing, .more hus hcomma hvs⟩
  · obtain ⟨⟨closing, after⟩, hconsume, hdone⟩ := ok_of_bind hrest
    cases hdone
    obtain ⟨hclosing, rfl⟩ := consume_ok (by decide) hconsume
    exact ⟨us, closing, rfl, hclosing, .one hus⟩

theorem sound (fuel : Nat) : Sound fuel := by
  induction fuel with
  | zero => constructor <;> intros <;> contradiction
  | succ fuel ih =>
    exact ⟨ih.tiers_succ, ih.operators_succ, ih.unary_succ, ih.primary_succ, ih.arguments_succ, ih.list_succ⟩

end Sound

/-- With ten calls for each token and one for each tier the parser reads the phrase. -/
def Reads (p : Phrase) (used : List Token) (e : Expr) : Prop :=
  ∀ (fuel : Nat) (rest : List Token), 10 * used.length + p.tiers.length + 1 ≤ fuel → Ends p used rest →
    tiersIn fuel p.tiers (used ++ rest) = .ok (e, rest)

/-- With as many calls the parser comes to where it has read the phrase and looks for an operator after it. -/
def Chains (p : Phrase) (used : List Token) (e : Expr) : Prop :=
  ∀ (fuel : Nat) (rest : List Token), 10 * used.length + p.tiers.length + 1 ≤ fuel → Ends p.operand used rest →
    ∃ left, fuel ≤ left + used.length ∧
      tiersIn fuel p.tiers (used ++ rest) = operatorsIn left p.operators p.operand.tiers e rest

/-- The same for a list up to its closing parenthesis. -/
def ReadsList (used : List Token) (args : List Expr) : Prop :=
  ∀ (fuel : Nat) (rest : List Token) (closing : Token), 10 * used.length + 7 ≤ fuel → closing.kind = .rightParen →
    argumentListIn fuel (used ++ closing :: rest) = .ok (args, rest)

section Complete
variable {p : Phrase} {ts us vs used rest : List Token} {op t : Token} {left right e : Expr} {args : List Expr}

theorem length_tiers (hop : p.operators ≠ []) : p.tiers.length = p.operand.tiers.length + 1 := by
  rw [Phrase.tiers_eq hop, List.length_cons]

theorem skip_cons {kind : TokenKind} (hkind : t.kind = kind) (hne : kind ≠ .eof) : skip (t :: ts) = ts := by
  have : t.isEof = false := by simpa [Token.isEof, hkind] using hne
  simp [skip, this]

theorem Reads.chains (hop : p.operators ≠ []) (hne : used ≠ []) (h : Reads p.operand used e) : Chains p used e := by
  intro fuel rest hfuel hends
  rw [length_tiers hop] at hfuel
  obtain ⟨fuel, rfl⟩ : ∃ f, fuel = f + 1 := Nat.exists_eq_add_of_le' (by omega)
  have hlength := List.length_pos_iff.mpr hne
  refine ⟨fuel, by omega, ?_⟩
  rw [Phrase.tiers_eq hop, tiersIn, h fuel rest (by omega) hends]
  rfl

/-- What ends the phrase ends the loop. -/
theorem Chains.reads (hop : p.operators ≠ []) (hne : used ≠ []) (h : Chains p used e) : Reads p used e := by
  intro fuel rest hfuel hends
  obtain ⟨left, hleft, heq⟩ := h fuel rest hfuel (hends.operand (ne_primary hop))
  have hlength := List.length_pos_iff.mpr hne
  obtain ⟨left, rfl⟩ : ∃ f, left = f + 1 := Nat.exists_eq_add_of_le' (by omega)
  have hstop : ¬ p.operators.contains (peek rest).kind = true := by simpa using hends.operator p (Nat.le_refl _)
  rw [heq, operatorsIn, if_neg hstop]

/-- An operator and the part after it are one turn of the loop. -/
theorem Chains.binary (hleft : Chains p us left) (hmem : op.kind ∈ p.operators) (hright : Reads p.operand vs right)
    (hne : vs ≠ []) : Chains p (us ++ op :: vs) (.binary (.ofSymbol op.value) left right op.pos) := by
  intro fuel rest hfuel hends
  have hop : p.operators ≠ [] := List.ne_nil_of_mem hmem
  simp only [List.length_append, List.length_cons] at hfuel
  obtain ⟨turn, hturn, heq⟩ := hleft fuel (op :: (vs ++ rest)) (by omega) (Ends.of_mem hmem)
  rw [length_tiers hop] at hfuel
  obtain ⟨turn, rfl⟩ : ∃ f, turn = f + 1 := Nat.exists_eq_add_of_le' (by omega)
  have hends' : Ends p.operand vs rest := by
    rw [List.append_cons] at hends
    exact (Ends.append_iff hne).mp hends
  have hpart : tiersIn turn p.operand.tiers (vs ++ rest) = .ok (right, rest) := hright turn rest (by omega) hends'
  have hskip : skip (op :: (vs ++ rest)) = vs ++ rest :=
    skip_cons rfl (by rintro heof; rw [heof] at hmem; cases p <;> simp [Phrase.operators] at hmem)
  refine ⟨turn, by simp only [List.length_append, List.length_cons]; omega, ?_⟩
  rw [List.append_assoc, List.cons_append, heq, operatorsIn]
  simp only [peek, List.headD_cons, List.contains_eq_mem, hmem, decide_true, if_true, hskip, hpart]
  rfl

theorem Reads.unary (hmem : op.kind ∈ [TokenKind.not, .minus, .plus]) (hne : ts ≠ []) (h : Reads .unary ts e) :
    Reads .unary (op :: ts) (.unary (.ofSymbol op.value) e op.pos) := by
  intro fuel rest hfuel hends
  simp only [List.length_cons] at hfuel
  obtain ⟨fuel, rfl⟩ : ∃ f, fuel = f + 2 := Nat.exists_eq_add_of_le' (by omega)
  have hends' : Ends .unary ts rest := (Ends.cons_iff hne).mp hends
  have hrest : unaryIn fuel (ts ++ rest) = .ok (e, rest) := h (fuel + 1) rest (by omega) hends'
  have hskip : skip (op :: (ts ++ rest)) = ts ++ rest := skip_cons rfl (by rintro heof; rw [heof] at hmem; simp at hmem)
  have hcontains : unaryKinds.contains op.kind = true := by simpa [unaryKinds] using hmem
  show unaryIn (fuel + 1) (op :: (ts ++ rest)) = _
  rw [unaryIn]
  simp only [peek, List.headD_cons, hcontains, if_true, hskip, hrest]
  rfl

/-- A phrase that opens with no sign is read at the innermost place. -/
theorem Reads.of_primary (hsign : t.kind ∉ unaryKinds)
    (h : ∀ (fuel : Nat) (rest : List Token), 10 * ts.length + 8 ≤ fuel → Ends .primary (t :: ts) rest →
      primaryIn (fuel + 1) (t :: (ts ++ rest)) = .ok (e, rest)) : Reads .primary (t :: ts) e := by
  intro fuel rest hfuel hends
  simp only [List.length_cons] at hfuel
  obtain ⟨fuel, rfl⟩ : ∃ f, fuel = f + 3 := Nat.exists_eq_add_of_le' (by omega)
  have hcontains : ¬ unaryKinds.contains (peek (t :: (ts ++ rest))).kind = true := by simpa [peek] using hsign
  show unaryIn (fuel + 2) (t :: (ts ++ rest)) = _
  rw [unaryIn, if_neg hcontains]
  exact h fuel rest (by omega) hends

theorem consume_closing (hclosing : t.kind = .rightParen) (expected : String) :
    consume .rightParen expected (t :: rest) = .ok (t, rest) := by
  simp [consume, sees, peek, hclosing, skip_cons hclosing]

theorem ReadsList.one (h : Reads .or ts e) : ReadsList ts [e] := by
  intro fuel rest closing hfuel hclosing
  obtain ⟨fuel, rfl⟩ : ∃ f, fuel = f + 1 := Nat.exists_eq_add_of_le' (by omega)
  have hread : tiersIn fuel tiers (ts ++ closing :: rest) = .ok (e, closing :: rest) :=
    h fuel _ (by show _ + 5 + 1 ≤ _; omega) (Ends.of_closing (by simp [hclosing]))
  have hno : ¬ sees (closing :: rest) .comma = true := by simp [sees, peek, hclosing]
  rw [argumentListIn, hread]
  show (if sees (closing :: rest) .comma = true then _ else _) = _
  rw [if_neg hno, consume_closing hclosing]
  rfl

theorem ReadsList.more {comma : Token} (h : Reads .or us e) (hcomma : comma.kind = .comma) (hmore : ReadsList vs args) :
    ReadsList (us ++ comma :: vs) (e :: args) := by
  intro fuel rest closing hfuel hclosing
  simp only [List.length_append, List.length_cons] at hfuel
  obtain ⟨fuel, rfl⟩ : ∃ f, fuel = f + 1 := Nat.exists_eq_add_of_le' (by omega)
  have hread : tiersIn fuel tiers (us ++ comma :: (vs ++ closing :: rest)) = .ok (e, comma :: (vs ++ closing :: rest)) :=
    h fuel _ (by show _ + 5 + 1 ≤ _; omega) (Ends.of_closing (by simp [hcomma]))
  have hsees : sees (comma :: (vs ++ closing :: rest)) .comma = true := by simp [sees, peek, hcomma]
  rw [List.append_assoc, List.cons_append, argumentListIn, hread]
  show (if sees (comma :: (vs ++ closing :: rest)) .comma = true then _ else _) = _
  rw [if_pos hsees, skip_cons hcomma (by decide), hmore fuel rest closing (by omega) hclosing]
  rfl

/-- A list does not open with the parenthesis that closes it. -/
theorem ReadsList.arguments (h : ReadsList ts args) (hopens : ∃ t us, ts = t :: us ∧ t.kind ≠ .rightParen)
    (fuel : Nat) (rest : List Token) (closing : Token) (hfuel : 10 * ts.length + 8 ≤ fuel)
    (hclosing : closing.kind = .rightParen) : argumentsIn fuel (ts ++ closing :: rest) = .ok (args, rest) := by
  obtain ⟨fuel, rfl⟩ : ∃ f, fuel = f + 1 := Nat.exists_eq_add_of_le' (by omega)
  have hno : ¬ sees (ts ++ closing :: rest) .rightParen = true := by
    obtain ⟨t, us, rfl, ht⟩ := hopens
    simpa [sees, peek] using ht
  rw [argumentsIn, if_neg hno, h fuel rest closing (by omega) hclosing]

theorem reads_call (ts : List Token) {name opening closing : Token} (hname : name.kind = .identifier)
    (hopening : opening.kind = .leftParen)
    (hargs : ∀ (fuel : Nat) (rest : List Token), 10 * ts.length + 8 ≤ fuel →
      argumentsIn fuel (ts ++ closing :: rest) = .ok (args, rest)) :
    Reads .primary (name :: opening :: (ts ++ [closing])) (.call name.value args false name.pos) := by
  refine .of_primary (by rw [hname]; decide) fun fuel rest hfuel _ => ?_
  simp only [List.length_cons, List.length_append] at hfuel
  have hread := hargs fuel rest (by omega)
  have hsees : sees (opening :: (ts ++ closing :: rest)) .leftParen = true := by simp [sees, peek, hopening]
  simp only [List.cons_append, List.append_assoc, List.nil_append]
  simp only [primaryIn, peek, List.headD_cons, skip_cons hname (by decide : TokenKind.identifier ≠ .eof), hname, hsees,
    if_true, skip_cons hopening (by decide : TokenKind.leftParen ≠ .eof), hread]
  rfl

theorem reads_parens {opening closing : Token} (hopening : opening.kind = .leftParen) (h : Reads .or ts e)
    (hclosing : closing.kind = .rightParen) : Reads .primary (opening :: (ts ++ [closing])) e := by
  refine .of_primary (by rw [hopening]; decide) fun fuel rest hfuel _ => ?_
  simp only [List.length_append, List.length_cons, List.length_nil] at hfuel
  have hread : tiersIn fuel tiers (ts ++ closing :: rest) = .ok (e, closing :: rest) :=
    h fuel _ (by show _ + 5 + 1 ≤ _; omega) (Ends.of_closing (by simp [hclosing]))
  simp only [List.append_assoc, List.cons_append, List.nil_append]
  simp only [primaryIn, peek, List.headD_cons, skip_cons hopening (by decide : TokenKind.leftParen ≠ .eof), hopening, hread]
  show (consume .rightParen "')' after expression" (closing :: rest) >>= fun read => pure (e, read.2)) = _
  rw [consume_closing hclosing]
  rfl

end Complete

mutual

theorem reads_of_derives {p : Phrase} {ts : List Token} {e : Expr} (h : Derives p ts e) :
    Reads p ts e ∧ (p.operators ≠ [] → Chains p ts e) := by
  match h with
  | .operand (p := p) hp h =>
    have ih := (reads_of_derives h).1
    by_cases hop : p.operators = []
    · have hunary : p = .unary := by cases p <;> first | rfl | exact absurd rfl hp | cases hop
      subst hunary
      exact ⟨fun fuel rest hfuel hends => ih fuel rest hfuel (hends.operand hp), fun hne => absurd hop hne⟩
    · have hchains := ih.chains hop h.ne_nil
      exact ⟨hchains.reads hop h.ne_nil, fun _ => hchains⟩
  | .binary hleft hmem hright =>
    have hop := List.ne_nil_of_mem hmem
    have hchains := ((reads_of_derives hleft).2 hop).binary hmem (reads_of_derives hright).1 hright.ne_nil
    exact ⟨hchains.reads hop (by simp), fun _ => hchains⟩
  | .unary hmem h => exact ⟨.unary hmem h.ne_nil (reads_of_derives h).1, fun hne => absurd rfl hne⟩
  | .number (t := t) hkind hd =>
    refine ⟨.of_primary (by rw [hkind]; decide) fun _ _ _ _ => ?_, fun hne => absurd rfl hne⟩
    simp [primaryIn, peek, hkind, Numeral.read?_of_spells hd, skip_cons hkind]
  | .string hkind hplain =>
    refine ⟨.of_primary (by rw [hkind]; decide) fun _ _ _ _ => ?_, fun hne => absurd rfl hne⟩
    have hlit := stringLiteral_iff.mpr (.inl ⟨hplain, rfl⟩)
    simp [primaryIn, peek, hkind, hlit, skip_cons hkind, bind, Except.bind, pure, Except.pure]
  | .interpolated hkind hbraces hpieces =>
    refine ⟨.of_primary (by rw [hkind]; decide) fun _ _ _ _ => ?_, fun hne => absurd rfl hne⟩
    have hlit := stringLiteral_iff.mpr (.inr ⟨hbraces, _, hpieces, rfl⟩)
    simp [primaryIn, peek, hkind, hlit, skip_cons hkind, bind, Except.bind, pure, Except.pure]
  | .trueWord hkind | .falseWord hkind | .reference hkind =>
    refine ⟨.of_primary (by rw [hkind]; decide) fun _ _ _ _ => ?_, fun hne => absurd rfl hne⟩
    simp [primaryIn, peek, hkind, skip_cons hkind]
  | .name hkind =>
    refine ⟨.of_primary (by rw [hkind]; decide) fun _ rest _ hends => ?_, fun hne => absurd rfl hne⟩
    have hno : ¬ sees rest .leftParen = true := by simpa [sees] using hends.call _ (by simp) hkind
    simp [primaryIn, peek, hkind, skip_cons hkind, hno]
  | .call hname hopening hclosing =>
    refine ⟨reads_call [] hname hopening fun fuel rest hfuel => ?_, fun hne => absurd rfl hne⟩
    obtain ⟨fuel, rfl⟩ : ∃ f, fuel = f + 1 := Nat.exists_eq_add_of_le' (by omega)
    simp [argumentsIn, sees, peek, hclosing, skip_cons hclosing]
  | .callWith hname hopening hargs hclosing =>
    have hread := (readsList_of_derives hargs).arguments hargs.opens
    exact ⟨reads_call _ hname hopening fun fuel rest hfuel => hread fuel rest _ hfuel hclosing, fun hne => absurd rfl hne⟩
  | .parens hopening h hclosing =>
    exact ⟨reads_parens hopening (reads_of_derives h).1 hclosing, fun hne => absurd rfl hne⟩

theorem readsList_of_derives {ts : List Token} {args : List Expr} (h : DerivesList ts args) : ReadsList ts args := by
  match h with
  | .one h => exact .one (reads_of_derives h).1
  | .more h hcomma hmore => exact .more (reads_of_derives h).1 hcomma (readsList_of_derives hmore)

end

/-- A stretch of a line leaves as many tokens on the line as it holds. -/
theorem length_le_lineSize {used : List Token} (rest : List Token) (h : ∀ t ∈ used, t.kind.inExpression = true) :
    used.length ≤ lineSize (used ++ rest) := by
  have hline : ∀ t ∈ used, (t.kind != .newline && !t.isEof) = true := by
    intro t ht
    have hne {kind : TokenKind} (hkind : kind.inExpression = false) : t.kind ≠ kind := by
      rintro rfl
      rw [h t ht] at hkind
      cases hkind
    simp [Token.isEof, hne (rfl : TokenKind.newline.inExpression = false), hne (rfl : TokenKind.eof.inExpression = false)]
  rw [lineSize, List.takeWhile_append_of_pos hline, List.length_append]
  exact Nat.le_add_right _ _

theorem takes_of_expression {ts rest : List Token} {e : Expr} (hnum : Numbered ts)
    (h : expression ts = .ok (e, rest)) : Takes .or ts e rest :=
  (sound _).tiers hnum (by decide) h

theorem expression_of_takes {ts rest : List Token} {e : Expr} (h : Takes .or ts e rest) :
    expression ts = .ok (e, rest) := by
  obtain ⟨used, rfl, hused, hends⟩ := h
  have hlength := length_le_lineSize rest hused.inExpression
  have hroom : 10 * used.length + Phrase.or.tiers.length + 1 ≤ linePatience (used ++ rest) := by
    show 10 * used.length + 5 + 1 ≤ 10 * (lineSize (used ++ rest) + 1)
    omega
  exact (reads_of_derives hused).1 _ _ hroom hends

end Reading

/-- The parser of expressions accepts exactly its grammar: it takes a stretch of tokens for a tree just when the
stretch is a phrase with that tree, and what is left goes on neither with an operator nor, after a bare name, with a
parenthesis. -/
theorem expression_iff_derives {ts rest : List Token} {e : Expr} (hnum : Numbered ts) :
    Reading.expression ts = .ok (e, rest) ↔
      ∃ used, ts = used ++ rest ∧ Derives .or used e ∧ (∀ p : Phrase, (Reading.peek rest).kind ∉ p.operators) ∧
        ∀ t ∈ used.getLast?, t.kind = .identifier → (Reading.peek rest).kind ≠ .leftParen := by
  constructor
  · intro h
    obtain ⟨used, hts, hused, hends⟩ := Reading.takes_of_expression hnum h
    exact ⟨used, hts, hused, fun p => hends.operator p (Nat.zero_le _), hends.call⟩
  · rintro ⟨used, hts, hused, hop, hcall⟩
    exact Reading.expression_of_takes ⟨used, hts, hused, fun p _ => hop p, hcall⟩

/-- The line `1 - $x * f()`. -/
theorem expression_iff_derives_difference :
    Reading.expression [⟨.number, "1", 1, 1⟩, ⟨.minus, "-", 1, 3⟩, ⟨.reference, "x", 1, 5⟩, ⟨.multiply, "*", 1, 7⟩,
      ⟨.identifier, "f", 1, 9⟩, ⟨.leftParen, "(", 1, 10⟩, ⟨.rightParen, ")", 1, 11⟩, ⟨.newline, "\\n", 1, 12⟩] =
    .ok (.binary .sub (.number (Decimal.toBinary false ⟨1, 0⟩) ⟨1, 1⟩)
      (.binary .mul (.reference "x" ⟨1, 5⟩) (.call "f" [] false ⟨1, 9⟩) ⟨1, 7⟩) ⟨1, 3⟩, [⟨.newline, "\\n", 1, 12⟩]) := by
  have hone : Numeral.Spells "1".toList ⟨1, 0⟩ := .whole (by decide) (List.all_iff_forall_prop.mp (by decide))
  have hnumber : Derives .multiplicative [⟨.number, "1", 1, 1⟩] _ :=
    .operand (by decide) (.operand (by decide) (.number rfl hone))
  have hcall : Derives .unary [⟨.identifier, "f", 1, 9⟩, ⟨.leftParen, "(", 1, 10⟩, ⟨.rightParen, ")", 1, 11⟩] _ :=
    .operand (by decide) (.call rfl rfl rfl)
  have href : Derives .multiplicative [⟨.reference, "x", 1, 5⟩] _ :=
    .operand (by decide) (.operand (by decide) (.reference rfl))
  have hproduct : Derives .multiplicative ([⟨.reference, "x", 1, 5⟩] ++ ⟨.multiply, "*", 1, 7⟩ :: _) _ :=
    href.binary (by decide) hcall
  have hdifference : Derives .additive ([⟨.number, "1", 1, 1⟩] ++ ⟨.minus, "-", 1, 3⟩ :: _) _ :=
    .binary (.operand (by decide) hnumber) (by decide) hproduct
  refine (expression_iff_derives ?_).mpr ⟨_, rfl,
    .operand (by decide) (.operand (by decide) (.operand (by decide) hdifference)), ?_, ?_⟩
  · intro t ht hkind
    simp only [List.mem_cons, List.not_mem_nil, or_false] at ht
    rcases ht with rfl | rfl | rfl | rfl | rfl | rfl | rfl | rfl <;> first | exact ⟨_, hone⟩ | cases hkind
  · intro p
    cases p <;> decide
  · intro t ht hkind
    obtain rfl : _ = t := Option.some.inj ht
    cases hkind

end Parley
