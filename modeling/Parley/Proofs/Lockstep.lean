import Parley.Parser.Expression
import Parley.Proofs.Grammar
import Parley.Proofs.Relocation

/-! # Reading two token lists side by side

Two token lists go side by side when they hold the same tokens, up to their places, as long as the first one lasts
(`Lockstep`). The second one may then go on where the first is over, with empty lines and what opens a node. A token
that is part of a line is never the last one before the end, so a reading that stays on its line never gets to see
that end: what it makes of the first list it makes of the second one too, and moves (`Mirrors`). It is shown for one
reading after the other by induction on the number of calls, of which the second may have more. -/

namespace Parley

/-- The same token, at the place that `f` makes of its own. Where a token of the layout stands shows nowhere. -/
structure Token.Alike (f : Pos → Pos) (t t' : Token) : Prop where
  kind : t'.kind = t.kind
  value : t'.value = t.value
  pos : t.kind.isLayout = false → t'.pos = f t.pos

namespace Reading

/-- Empty lines, no more than `m`, before `after`. -/
def Leads (m : Nat) (after ts : List Token) : Prop :=
  ∃ blank, ts = blank ++ after ∧ blank.length ≤ m ∧ ∀ t ∈ blank, t.kind = .newline

section
variable (f : Pos → Pos) (m : Nat) (after : List Token)

/-- The same tokens, and where the first list is over the second one goes on. -/
inductive Lockstep : List Token → List Token → Prop
  | ends {eof : Token} {ts' : List Token} (heof : eof.kind = .eof) (hleads : Leads m after ts') : Lockstep [eof] ts'
  | cons {t t' : Token} {ts ts' : List Token} (halike : t.Alike f t') (hne : t.kind ≠ .eof)
      (hline : t.kind.isLayout = false → (peek ts).kind ≠ .eof) (h : Lockstep ts ts') : Lockstep (t :: ts) (t' :: ts')

/-- The lists are within a line, and the first has no more than `n` tokens. -/
structure Amid (n : Nat) (ts ts' : List Token) : Prop where
  lockstep : Lockstep f m after ts ts'
  inside : (peek ts).kind ≠ .eof
  room : ts.length ≤ n

end

variable {f : Pos → Pos} {m n : Nat} {after ts ts' : List Token}

/-- Where the first list is over. -/
theorem Lockstep.last (h : Lockstep f m after ts ts') (heof : (peek ts).kind = .eof) :
    ∃ eof, ts = [eof] ∧ eof.kind = .eof := by
  cases h with
  | ends heof _ => exact ⟨_, rfl, heof⟩
  | cons _ hne _ _ => exact absurd heof hne

theorem Lockstep.leads (h : Lockstep f m after ts ts') (heof : (peek ts).kind = .eof) : Leads m after ts' := by
  cases h with
  | ends _ hleads => exact hleads
  | cons _ hne _ _ => exact absurd heof hne

theorem Amid.alike (h : Amid f m after n ts ts') : (peek ts).Alike f (peek ts') := by
  obtain ⟨hlists, hinside, -⟩ := h
  cases hlists with
  | ends heof _ => exact absurd heof hinside
  | cons halike _ _ _ => exact halike

theorem Amid.sees (h : Amid f m after n ts ts') (kind : TokenKind) : sees ts' kind = sees ts kind := by
  rw [Reading.sees, Reading.sees, h.alike.kind]

/-- A token of a line is not the last one before the end. -/
theorem Amid.skip (h : Amid f m after n ts ts') (hline : (peek ts).kind.isLayout = false) :
    Amid f m after n (skip ts) (skip ts') := by
  obtain ⟨hlists, hinside, hroom⟩ := h
  cases hlists with
  | ends heof _ => exact absurd heof hinside
  | @cons t t' ts ts' halike hne hnext h =>
    have hskip {u : Token} {us : List Token} (hu : u.kind ≠ .eof) : Reading.skip (u :: us) = us :=
      skip_cons rfl hu
    rw [hskip hne, hskip (halike.kind ▸ hne)]
    exact ⟨h, hnext hline, Nat.le_of_succ_le hroom⟩

theorem Amid.second (h : Amid f m after n ts ts') (hline : (peek ts).kind.isLayout = false) :
    (peekSecond ts).Alike f (peekSecond ts') := by
  obtain ⟨hlists, hinside, -⟩ := h
  cases hlists with
  | ends heof _ => exact absurd heof hinside
  | cons _ _ hnext h =>
    cases h with
    | ends heof _ => exact absurd heof (hnext hline)
    | cons halike _ _ _ => exact halike

/-- The second list has at least as many tokens left on the line. -/
theorem lineSize_le (h : Lockstep f m after ts ts') : lineSize ts ≤ lineSize ts' := by
  unfold lineSize
  induction h with
  | ends heof _ => simp [Token.isEof, heof]
  | @cons t t' ts ts' halike _ _ _ ih =>
    have hsame : (t'.kind != .newline && !t'.isEof) = (t.kind != .newline && !t.isEof) := by
      rw [Token.isEof, Token.isEof, halike.kind]
    rw [List.takeWhile_cons, List.takeWhile_cons, hsame]
    split
    · simpa using ih
    · exact Nat.le_refl _

theorem linePatience_le (h : Lockstep f m after ts ts') : linePatience ts ≤ linePatience ts' := by
  have := lineSize_le h
  unfold linePatience
  omega

section Mirrors
variable {α β : Type} {R : α → α → Prop} {S : β → β → Prop} {x x' : Except ParseError (α × List Token)}

/-- What comes out of `x` comes out of `x'` as well, related by `R`, and both are still within the line. -/
def Mirrors (f : Pos → Pos) (m : Nat) (after : List Token) (n : Nat) (R : α → α → Prop)
    (x x' : Except ParseError (α × List Token)) : Prop :=
  ∀ a rest, x = .ok (a, rest) → ∃ a' rest', x' = .ok (a', rest') ∧ R a a' ∧ Amid f m after n rest rest'

theorem Mirrors.bind {k k' : α × List Token → Except ParseError (β × List Token)} (hx : Mirrors f m after n R x x')
    (hk : ∀ a a' rest rest', R a a' → Amid f m after n rest rest' → Mirrors f m after n S (k (a, rest)) (k' (a', rest'))) :
    Mirrors f m after n S (x >>= k) (x' >>= k') := by
  intro b rest h
  obtain ⟨⟨a, mid⟩, ha, hb⟩ := ok_of_bind h
  obtain ⟨a', mid', ha', hR, hmid⟩ := hx a mid ha
  obtain ⟨b', rest', hb', hS, hrest⟩ := hk a a' mid mid' hR hmid b rest hb
  exact ⟨b', rest', by rw [ha']; exact hb', hS, hrest⟩

theorem Mirrors.ok {a a' : α} (hR : R a a') (h : Amid f m after n ts ts') :
    Mirrors f m after n R (.ok (a, ts)) (.ok (a', ts')) := by
  rintro b rest ⟨⟩
  exact ⟨a', ts', rfl, hR, h⟩

theorem Mirrors.error {e : ParseError} : Mirrors f m after n R (.error e) x' := nofun

theorem Mirrors.ite {c : Prop} [Decidable c] {y y' : Except ParseError (α × List Token)}
    (hx : c → Mirrors f m after n R x x') (hy : ¬ c → Mirrors f m after n R y y') :
    Mirrors f m after n R (if c then x else y) (if c then x' else y') := by
  split
  · exact hx ‹_›
  · exact hy ‹_›

theorem mirrors_consume {kind : TokenKind} (hkind : kind.isLayout = false) (expected : String)
    (h : Amid f m after n ts ts') :
    Mirrors f m after n (Token.Alike f) (consume kind expected ts) (consume kind expected ts') := by
  unfold consume
  rw [h.sees]
  refine .ite (fun hsees => ?_) fun _ => .error
  have hpeek : (peek ts).kind = kind := by simpa [sees] using hsees
  exact .ok h.alike (h.skip (hpeek ▸ hkind))

end Mirrors

/-- A string is cut into the same pieces wherever it stands. -/
theorem pieces_relocate {pos : Pos} {cs : List Char} {segments : List Segment} (h : Pieces pos cs segments) :
    Pieces (f pos) cs (relocateText f segments) := by
  have hliteral (text : List Char) (rest : List Segment) :
      relocateText f (literalText pos text ++ rest) = literalText (f pos) text ++ relocateText f rest := by
    unfold literalText
    split <;> rfl
  induction h with
  | @last text htext =>
    have := hliteral text []
    rw [List.append_nil] at this
    rw [this, relocateText, List.append_nil]
    exact .last htext
  | hole htext hbody hname _ ih =>
    rw [hliteral, relocateText, Expr.relocate]
    exact .hole htext hbody hname ih

theorem stringLiteral_alike {t t' : Token} {e : Expr} (halike : t.Alike f t') (hline : t.kind.isLayout = false)
    (h : stringLiteral t = .ok e) : stringLiteral t' = .ok (e.relocate f) := by
  rw [stringLiteral_iff, halike.value, halike.pos hline]
  rcases stringLiteral_iff.mp h with ⟨hplain, rfl⟩ | ⟨hbraces, segments, hpieces, rfl⟩
  · exact .inl ⟨hplain, rfl⟩
  · exact .inr ⟨hbraces, _, pieces_relocate hpieces, rfl⟩

/-- The tiers hold operators only. -/
def Operators (tiers : List (List TokenKind)) : Prop := ∀ tier ∈ tiers, ∀ kind ∈ tier, kind.isLayout = false

theorem operators_tiers : Operators tiers := by
  unfold Operators tiers
  decide

/-- With this many calls the readings of expressions make of the second list what they make of the first. -/
structure Apace (f : Pos → Pos) (m : Nat) (after : List Token) (n fuel : Nat) : Prop where
  tiers {fuel' : Nat} {tiers : List (List TokenKind)} {ts ts' : List Token} : fuel ≤ fuel' → Operators tiers →
    Amid f m after n ts ts' →
    Mirrors f m after n (fun e e' => e' = e.relocate f) (tiersIn fuel tiers ts) (tiersIn fuel' tiers ts')
  operators {fuel' : Nat} {tier : List TokenKind} {tighter : List (List TokenKind)} {left : Expr} {ts ts' : List Token} :
    fuel ≤ fuel' → Operators (tier :: tighter) → Amid f m after n ts ts' →
    Mirrors f m after n (fun e e' => e' = e.relocate f) (operatorsIn fuel tier tighter left ts)
      (operatorsIn fuel' tier tighter (left.relocate f) ts')
  unary {fuel' : Nat} {ts ts' : List Token} : fuel ≤ fuel' → Amid f m after n ts ts' →
    Mirrors f m after n (fun e e' => e' = e.relocate f) (unaryIn fuel ts) (unaryIn fuel' ts')
  primary {fuel' : Nat} {ts ts' : List Token} : fuel ≤ fuel' → Amid f m after n ts ts' →
    Mirrors f m after n (fun e e' => e' = e.relocate f) (primaryIn fuel ts) (primaryIn fuel' ts')
  arguments {fuel' : Nat} {ts ts' : List Token} : fuel ≤ fuel' → Amid f m after n ts ts' →
    Mirrors f m after n (fun es es' => es' = relocateAll f es) (argumentsIn fuel ts) (argumentsIn fuel' ts')
  list {fuel' : Nat} {ts ts' : List Token} : fuel ≤ fuel' → Amid f m after n ts ts' →
    Mirrors f m after n (fun es es' => es' = relocateAll f es) (argumentListIn fuel ts) (argumentListIn fuel' ts')

namespace Apace
variable {fuel fuel' : Nat} {tier : List TokenKind} {tighter : List (List TokenKind)} {left : Expr}

theorem tiers_succ (ih : Apace f m after n fuel) {tiers : List (List TokenKind)} (hfuel : fuel ≤ fuel')
    (hops : Operators tiers) (h : Amid f m after n ts ts') :
    Mirrors f m after n (fun e e' => e' = e.relocate f) (tiersIn (fuel + 1) tiers ts) (tiersIn (fuel' + 1) tiers ts') := by
  cases tiers with
  | nil => exact ih.unary hfuel h
  | cons tier tighter =>
    refine .bind (ih.tiers hfuel (fun t ht => hops t (List.mem_cons_of_mem tier ht)) h) ?_
    rintro left - rest rest' rfl hrest
    exact ih.operators hfuel hops hrest

theorem operators_succ (ih : Apace f m after n fuel) (hfuel : fuel ≤ fuel') (hops : Operators (tier :: tighter))
    (h : Amid f m after n ts ts') :
    Mirrors f m after n (fun e e' => e' = e.relocate f) (operatorsIn (fuel + 1) tier tighter left ts)
      (operatorsIn (fuel' + 1) tier tighter (left.relocate f) ts') := by
  rw [operatorsIn, operatorsIn]
  dsimp only
  rw [h.alike.kind]
  refine .ite (fun hop => ?_) fun _ => .ok rfl h
  have hline : (peek ts).kind.isLayout = false := hops tier (by simp) _ (by simpa using hop)
  refine .bind (ih.tiers hfuel (fun t ht => hops t (List.mem_cons_of_mem tier ht)) (h.skip hline)) ?_
  rintro right - rest rest' rfl hrest
  dsimp only
  rw [h.alike.value, h.alike.pos hline]
  have hmoved : Expr.binary (.ofSymbol (peek ts).value) (left.relocate f) (right.relocate f) (f (peek ts).pos) =
      (Expr.binary (.ofSymbol (peek ts).value) left right (peek ts).pos).relocate f := rfl
  rw [hmoved]
  exact ih.operators hfuel hops hrest

theorem unary_succ (ih : Apace f m after n fuel) (hfuel : fuel ≤ fuel') (h : Amid f m after n ts ts') :
    Mirrors f m after n (fun e e' => e' = e.relocate f) (unaryIn (fuel + 1) ts) (unaryIn (fuel' + 1) ts') := by
  rw [unaryIn, unaryIn]
  dsimp only
  rw [h.alike.kind]
  refine .ite (fun hop => ?_) fun _ => ih.primary hfuel h
  have hsign : ∀ kind ∈ unaryKinds, kind.isLayout = false := by decide
  have hline := hsign _ (by simpa using hop)
  refine .bind (ih.unary hfuel (h.skip hline)) ?_
  rintro e - rest rest' rfl hrest
  refine .ok ?_ hrest
  rw [h.alike.value, h.alike.pos hline, Expr.relocate]

theorem primary_succ (ih : Apace f m after n fuel) (hfuel : fuel ≤ fuel') (h : Amid f m after n ts ts') :
    Mirrors f m after n (fun e e' => e' = e.relocate f) (primaryIn (fuel + 1) ts) (primaryIn (fuel' + 1) ts') := by
  have halike := h.alike
  have hskip (hline : (peek ts).kind.isLayout = false) := h.skip hline
  rw [primaryIn, primaryIn]
  dsimp only
  rw [halike.kind, halike.value]
  generalize peek ts = t at halike hskip ⊢
  generalize peek ts' = t' at halike ⊢
  have hpos (hline : t.kind.isLayout = false) : t'.pos = f t.pos := halike.pos hline
  split
  · next hkind =>
    have hline : t.kind.isLayout = false := by rw [hkind]; rfl
    split
    · exact .ok (by rw [hpos hline]; rfl) (hskip hline)
    · exact .error
  · next hkind =>
    have hline : t.kind.isLayout = false := by rw [hkind]; rfl
    intro e rest hread
    obtain ⟨e, he, hdone⟩ := ok_of_bind hread
    cases hdone
    rw [stringLiteral_alike halike hline he]
    exact ⟨_, _, rfl, rfl, hskip hline⟩
  · next hkind =>
    have hline : t.kind.isLayout = false := by rw [hkind]; rfl
    exact .ok (by rw [hpos hline]; rfl) (hskip hline)
  · next hkind =>
    have hline : t.kind.isLayout = false := by rw [hkind]; rfl
    exact .ok (by rw [hpos hline]; rfl) (hskip hline)
  · next hkind =>
    have hline : t.kind.isLayout = false := by rw [hkind]; rfl
    exact .ok (by rw [hpos hline]; rfl) (hskip hline)
  · next hkind =>
    have hline : t.kind.isLayout = false := by rw [hkind]; rfl
    have hrest := hskip hline
    rw [hrest.sees]
    refine .ite (fun hsees => ?_) fun _ => .ok (by rw [hpos hline]; rfl) hrest
    have hopening : (peek (skip ts)).kind = .leftParen := by simpa [sees] using hsees
    refine .bind (ih.arguments hfuel (hrest.skip (by rw [hopening]; rfl))) ?_
    rintro args - rest rest' rfl hdone
    exact .ok (by rw [hpos hline]; rfl) hdone
  · next hkind =>
    have hline : t.kind.isLayout = false := by rw [hkind]; rfl
    refine .bind (ih.tiers hfuel operators_tiers (hskip hline)) ?_
    rintro e - rest rest' rfl hrest
    refine .bind (mirrors_consume (by rfl) _ hrest) ?_
    rintro _ _ rest rest' - hdone
    exact .ok rfl hdone
  · exact .error

theorem arguments_succ (ih : Apace f m after n fuel) (hfuel : fuel ≤ fuel') (h : Amid f m after n ts ts') :
    Mirrors f m after n (fun es es' => es' = relocateAll f es) (argumentsIn (fuel + 1) ts)
      (argumentsIn (fuel' + 1) ts') := by
  rw [argumentsIn, argumentsIn, h.sees]
  refine .ite (fun hsees => ?_) fun _ => ih.list hfuel h
  have hclosing : (peek ts).kind = .rightParen := by simpa [sees] using hsees
  exact .ok rfl (h.skip (by rw [hclosing]; rfl))

theorem list_succ (ih : Apace f m after n fuel) (hfuel : fuel ≤ fuel') (h : Amid f m after n ts ts') :
    Mirrors f m after n (fun es es' => es' = relocateAll f es) (argumentListIn (fuel + 1) ts)
      (argumentListIn (fuel' + 1) ts') := by
  rw [argumentListIn, argumentListIn]
  refine .bind (ih.tiers hfuel operators_tiers h) ?_
  rintro e - rest rest' rfl hrest
  dsimp only
  rw [hrest.sees]
  refine .ite (fun hsees => ?_) fun _ => ?_
  · have hcomma : (peek rest).kind = .comma := by simpa [sees] using hsees
    refine .bind (ih.list hfuel (hrest.skip (by rw [hcomma]; rfl))) ?_
    rintro es - rest rest' rfl hdone
    exact .ok rfl hdone
  · refine .bind (mirrors_consume (by rfl) _ hrest) ?_
    rintro _ _ rest rest' - hdone
    exact .ok rfl hdone

end Apace

theorem apace (fuel : Nat) : Apace f m after n fuel := by
  have hsucc {fuel fuel' : Nat} (hfuel : fuel + 1 ≤ fuel') : ∃ more, fuel' = more + 1 ∧ fuel ≤ more :=
    ⟨fuel' - 1, by omega, by omega⟩
  induction fuel with
  | zero => constructor <;> intros <;> exact .error
  | succ fuel ih =>
    constructor <;> intro fuel' <;> intros <;> obtain ⟨fuel', rfl, hfuel⟩ := hsucc ‹fuel + 1 ≤ fuel'›
    · exact ih.tiers_succ hfuel ‹_› ‹_›
    · exact ih.operators_succ hfuel ‹_› ‹_›
    · exact ih.unary_succ hfuel ‹_›
    · exact ih.primary_succ hfuel ‹_›
    · exact ih.arguments_succ hfuel ‹_›
    · exact ih.list_succ hfuel ‹_›

theorem mirrors_expression (h : Amid f m after n ts ts') :
    Mirrors f m after n (fun e e' => e' = e.relocate f) (expression ts) (expression ts') :=
  (apace _).tiers (linePatience_le h.lockstep) operators_tiers h

theorem mirrors_arguments (h : Amid f m after n ts ts') :
    Mirrors f m after n (fun es es' => es' = relocateAll f es) (arguments ts) (arguments ts') :=
  (apace _).arguments (linePatience_le h.lockstep) h

theorem mirrors_textIn {fuel fuel' : Nat} (hfuel : fuel ≤ fuel') (h : Amid f m after n ts ts') :
    Mirrors f m after n (fun text text' => text' = relocateText f text) (textIn fuel ts) (textIn fuel' ts') := by
  induction fuel generalizing fuel' ts ts' with
  | zero => exact .error
  | succ fuel ih =>
    obtain ⟨fuel', rfl⟩ : ∃ k, fuel' = k + 1 := Nat.exists_eq_add_of_le' (by omega)
    rw [textIn, textIn]
    dsimp only
    rw [h.alike.kind, h.alike.value]
    split
    · next hkind =>
      have hline : (peek ts).kind.isLayout = false := by rw [hkind]; rfl
      refine .bind (ih (by omega) (h.skip hline)) ?_
      rintro text - rest rest' rfl hrest
      exact .ok (by rw [h.alike.pos hline]; rfl) hrest
    · next hkind =>
      have hline : (peek ts).kind.isLayout = false := by rw [hkind]; rfl
      refine .bind (mirrors_expression (h.skip hline)) ?_
      rintro e - rest rest' rfl hrest
      refine .bind (mirrors_consume (by rfl) _ hrest) ?_
      rintro _ _ rest rest' - hrest
      refine .bind (ih (by omega) hrest) ?_
      rintro text - rest rest' rfl hrest
      exact .ok (by rw [h.alike.pos hline]; rfl) hrest
    · exact .ok rfl h

theorem mirrors_text (h : Amid f m after n ts ts') :
    Mirrors f m after n (fun text text' => text' = relocateText f text) (text ts) (text ts') :=
  mirrors_textIn (linePatience_le h.lockstep) h

/-- Tags are words of a line. -/
theorem mirrors_tags (h : Amid f m after n ts ts') : Mirrors f m after n Eq (.ok (tags ts)) (.ok (tags ts')) := by
  have hwords : ∀ {ts ts' : List Token}, Amid f m after n ts ts' →
      ((ts'.takeWhile isTagPart).filter fun t => t.kind == .identifier || t.kind == .text).map Token.value =
        ((ts.takeWhile isTagPart).filter fun t => t.kind == .identifier || t.kind == .text).map Token.value ∧
      Amid f m after n (ts.dropWhile isTagPart) (ts'.dropWhile isTagPart) := by
    intro ts ts' h
    obtain ⟨hlists, hinside, hroom⟩ := h
    induction hlists with
    | ends heof _ => exact absurd heof hinside
    | @cons t t' ts ts' halike hne hnext hlists ih =>
      have hpart : isTagPart t' = isTagPart t := by simp [isTagPart, halike.kind]
      by_cases hp : isTagPart t = true
      · have hline : t.kind.isLayout = false := by
          simp only [isTagPart, Bool.or_eq_true, beq_iff_eq] at hp
          rcases hp with ((hk | hk) | hk) | hk <;> rw [hk] <;> rfl
        obtain ⟨hsame, hrest⟩ := ih (hnext hline) (Nat.le_of_succ_le hroom)
        simp only [List.takeWhile_cons, List.dropWhile_cons, hpart, hp, if_true, List.filter_cons, halike.kind]
        refine ⟨?_, hrest⟩
        split
        · simp [halike.value, hsame]
        · exact hsame
      · simp only [List.takeWhile_cons, List.dropWhile_cons, hpart, hp]
        exact ⟨rfl, .cons halike hne hnext hlists, hinside, hroom⟩
  unfold tags
  rw [h.sees]
  split
  · obtain ⟨hsame, hrest⟩ := hwords h
    exact .ok hsame.symm hrest
  · exact .ok rfl h

end Reading
end Parley
