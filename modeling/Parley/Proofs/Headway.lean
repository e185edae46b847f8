import Parley.Proofs.LineReadings

/-! # Readings get somewhere

Every reading of an expression or a text takes tokens off its line until it is done or the grammar is violated, so it
needs no more calls than it is given: ten for each token that is left on the line, and ten more. `Gets` says this of one
outcome; `Ample` of all the readings that call each other, by induction on the number of calls, with a bound for each
that the calls it makes stay below. Number tokens are taken to hold numerals (`Numbered`). -/

namespace Parley

/-- Some token is not what the grammar asks for. -/
def ParseError.IsUnexpected (e : ParseError) : Prop :=
  ∃ line column expected found, e = .unexpected line column expected found

theorem Numbered.of_suffix {ts rest : List Token} (h : Numbered ts) (hsuffix : rest <:+ ts) : Numbered rest :=
  fun t ht => h t (hsuffix.mem ht)

namespace Reading

/-- At least so many tokens of the line are taken, or one of them is not what the grammar asks for. -/
structure Gets {α : Type} (least : Nat) (ts : List Token) (x : Except ParseError (α × List Token)) : Prop where
  taken : ∀ a rest, x = .ok (a, rest) → ∃ used, ts = used ++ rest ∧ least ≤ used.length ∧
    ∀ t ∈ used, t.kind.isLayout = false
  failed : ∀ e, x = .error e → e.IsUnexpected

section
variable {α β : Type} {least : Nat} {ts : List Token} {x y : Except ParseError (α × List Token)}

theorem lineSize_append {used : List Token} (h : ∀ t ∈ used, t.kind.isLayout = false) (rest : List Token) :
    lineSize (used ++ rest) = used.length + lineSize rest := by
  have hline : ∀ t ∈ used, (t.kind != .newline && !t.isEof) = true := by
    intro t ht
    have hkind := h t ht
    cases hk : t.kind <;> simp [hk, Token.isEof, TokenKind.isLayout] at hkind ⊢
  rw [lineSize, List.takeWhile_append_of_pos hline, List.length_append]
  rfl

namespace Gets

theorem ok {a : α} : Gets 0 ts (.ok (a, ts)) :=
  ⟨fun _ _ h => ⟨[], (by cases h; rfl), Nat.zero_le _, by simp⟩, fun _ h => (by cases h)⟩

theorem error {e : ParseError} (he : e.IsUnexpected) : Gets least ts (.error e : Except ParseError (α × List Token)) :=
  ⟨fun _ _ h => (by cases h), fun _ h => (by cases h; exact he)⟩

theorem unexpected {expected : String} :
    Gets least ts (.error (Reading.unexpected ts expected) : Except ParseError (α × List Token)) :=
  error ⟨_, _, _, _, rfl⟩

theorem any (h : Gets least ts x) : Gets 0 ts x := by
  refine ⟨fun a rest hx => ?_, h.failed⟩
  obtain ⟨used, hused, -, hline⟩ := h.taken a rest hx
  exact ⟨used, hused, Nat.zero_le _, hline⟩

/-- The token in front is taken. -/
theorem skip (hline : (peek ts).kind.isLayout = false)
    (h : skip ts <:+ ts → lineSize (skip ts) + 1 ≤ lineSize ts → Gets 0 (skip ts) x) : Gets 1 ts x := by
  have hcons : ts = [peek ts] ++ Reading.skip ts := eq_cons_of_not_layout hline
  have hfirst : ∀ t ∈ [peek ts], t.kind.isLayout = false := by simpa using hline
  have hsize := lineSize_append hfirst (Reading.skip ts)
  rw [← hcons, List.length_singleton, Nat.add_comm] at hsize
  have hrest := h ⟨_, hcons.symm⟩ (Nat.le_of_eq hsize.symm)
  refine ⟨fun a rest hx => ?_, hrest.failed⟩
  obtain ⟨used, hused, -, hplain⟩ := hrest.taken a rest hx
  refine ⟨peek ts :: used, by rw [List.cons_append, ← hused]; exact hcons, Nat.succ_le_succ (Nat.zero_le _), ?_⟩
  simpa [or_imp, forall_and] using ⟨hline, hplain⟩

theorem bind {k : α × List Token → Except ParseError (β × List Token)} (hx : Gets least ts x)
    (hk : ∀ a rest, rest <:+ ts → lineSize rest + least ≤ lineSize ts → Gets 0 rest (k (a, rest))) :
    Gets least ts (x >>= k) := by
  cases x with
  | error e => exact error (hx.failed e rfl)
  | ok made =>
    obtain ⟨a, rest⟩ := made
    obtain ⟨used, rfl, hlength, hplain⟩ := hx.taken a rest rfl
    have hrest := hk a rest (List.suffix_append ..) (by rw [lineSize_append hplain]; omega)
    refine ⟨fun b after hb => ?_, hrest.failed⟩
    obtain ⟨more, rfl, -, hmore⟩ := hrest.taken b after hb
    refine ⟨used ++ more, by rw [List.append_assoc], by rw [List.length_append]; omega, ?_⟩
    simpa [or_imp, forall_and] using ⟨hplain, hmore⟩

theorem ite {c : Prop} [Decidable c] (hx : c → Gets least ts x) (hy : ¬ c → Gets least ts y) :
    Gets least ts (if c then x else y) := by
  split
  · exact hx ‹_›
  · exact hy ‹_›

theorem consume {kind : TokenKind} {expected : String} (hkind : kind.isLayout = false) :
    Gets 1 ts (consume kind expected ts) := by
  unfold Reading.consume
  refine .ite (fun hsees => ?_) fun _ => .unexpected
  have hpeek : (peek ts).kind = kind := by simpa [sees] using hsees
  exact .skip (hpeek ▸ hkind) fun _ _ => .ok

end Gets

theorem isUnexpected_stringLiteral {t : Token} {e : ParseError} (h : stringLiteral t = .error e) : e.IsUnexpected := by
  unfold stringLiteral at h
  dsimp only at h
  repeat' split at h
  all_goals cases h
  all_goals exact ⟨_, _, _, _, rfl⟩

/-- So many calls are enough for the readings of expressions. -/
structure Ample (fuel : Nat) : Prop where
  tiers {tiers : List (List TokenKind)} {ts : List Token} : Numbered ts → tiers.length ≤ 5 →
    (∀ tier ∈ tiers, ∀ kind ∈ tier, kind.isLayout = false) → 10 * lineSize ts + tiers.length + 3 ≤ fuel →
    Gets 1 ts (tiersIn fuel tiers ts)
  operators {tier : List TokenKind} {tighter : List (List TokenKind)} {left : Expr} {ts : List Token} : Numbered ts →
    tighter.length < 5 → (∀ tier' ∈ tier :: tighter, ∀ kind ∈ tier', kind.isLayout = false) →
    10 * lineSize ts + 1 ≤ fuel → Gets 0 ts (operatorsIn fuel tier tighter left ts)
  unary {ts : List Token} : Numbered ts → 10 * lineSize ts + 2 ≤ fuel → Gets 1 ts (unaryIn fuel ts)
  primary {ts : List Token} : Numbered ts → 10 * lineSize ts + 1 ≤ fuel → Gets 1 ts (primaryIn fuel ts)
  arguments {ts : List Token} : Numbered ts → 10 * lineSize ts + 10 ≤ fuel → Gets 1 ts (argumentsIn fuel ts)
  list {ts : List Token} : Numbered ts → 10 * lineSize ts + 9 ≤ fuel → Gets 1 ts (argumentListIn fuel ts)

namespace Ample
variable {fuel : Nat} (h : Ample fuel) (hnum : Numbered ts)
include h hnum

theorem loosest (hfuel : 10 * lineSize ts + 8 ≤ fuel) : Gets 1 ts (tiersIn fuel Reading.tiers ts) :=
  h.tiers hnum (Nat.le_refl 5) Inline.isLayout_tiers hfuel

theorem tiers_succ {tiers : List (List TokenKind)} (hlength : tiers.length ≤ 5)
    (hops : ∀ tier ∈ tiers, ∀ kind ∈ tier, kind.isLayout = false)
    (hfuel : 10 * lineSize ts + tiers.length + 3 ≤ fuel + 1) :
    Gets 1 ts (tiersIn (fuel + 1) tiers ts) := by
  cases tiers with
  | nil =>
    rw [List.length_nil] at hfuel
    exact h.unary hnum (by omega)
  | cons tier tighter =>
    rw [List.length_cons] at hlength hfuel
    have hfirst := h.tiers hnum (by omega) (fun t ht => hops t (List.mem_cons_of_mem tier ht)) (by omega)
    exact hfirst.bind fun left rest hsuffix hless =>
      h.operators (hnum.of_suffix hsuffix) (by omega) hops (by omega)

theorem operators_succ {tier : List TokenKind} {tighter : List (List TokenKind)} {left : Expr}
    (hlength : tighter.length < 5) (hops : ∀ tier' ∈ tier :: tighter, ∀ kind ∈ tier', kind.isLayout = false)
    (hfuel : 10 * lineSize ts + 1 ≤ fuel + 1) :
    Gets 0 ts (operatorsIn (fuel + 1) tier tighter left ts) := by
  unfold operatorsIn
  refine .ite (fun hop => ?_) fun _ => .ok
  have hline : (peek ts).kind.isLayout = false := hops tier (by simp) _ (by simpa using hop)
  refine (Gets.skip hline fun hsuffix hless => ?_).any
  have hright := h.tiers (hnum.of_suffix hsuffix) (Nat.le_of_lt hlength)
    (fun t ht => hops t (List.mem_cons_of_mem tier ht)) (by omega)
  exact hright.any.bind fun right rest hsuffix' hless' =>
    h.operators (hnum.of_suffix (hsuffix'.trans hsuffix)) hlength hops (by omega)

theorem unary_succ (hfuel : 10 * lineSize ts + 2 ≤ fuel + 1) : Gets 1 ts (unaryIn (fuel + 1) ts) := by
  have hsigns : ∀ kind ∈ unaryKinds, kind.isLayout = false := by decide
  unfold unaryIn
  refine .ite (fun hop => ?_) fun _ => h.primary hnum (by omega)
  refine .skip (hsigns _ (by simpa using hop)) fun hsuffix hless => ?_
  exact (h.unary (hnum.of_suffix hsuffix) (by omega)).any.bind fun _ _ _ _ => .ok

theorem primary_succ (hfuel : 10 * lineSize ts + 1 ≤ fuel + 1) : Gets 1 ts (primaryIn (fuel + 1) ts) := by
  unfold primaryIn
  dsimp only
  split
  · next hkind =>
    -- the numeral of a number token can be read
    have hcons : ts = peek ts :: Reading.skip ts := eq_cons_of_kind hkind (by decide)
    obtain ⟨d, hd⟩ := hnum (peek ts) (by rw [hcons]; exact List.mem_cons_self) hkind
    rw [Numeral.read?_of_spells hd]
    exact .skip (by rw [hkind]; rfl) fun _ _ => .ok
  · next hkind =>
    refine .skip (by rw [hkind]; rfl) fun _ _ => ?_
    cases hmade : stringLiteral (peek ts) with
    | error e => exact .error (isUnexpected_stringLiteral hmade)
    | ok e => exact .ok
  · next hkind => exact .skip (by rw [hkind]; rfl) fun _ _ => .ok
  · next hkind => exact .skip (by rw [hkind]; rfl) fun _ _ => .ok
  · next hkind => exact .skip (by rw [hkind]; rfl) fun _ _ => .ok
  · next hkind =>
    refine .skip (by rw [hkind]; rfl) fun hsuffix hless => .ite (fun hsees => ?_) fun _ => .ok
    have hopening : (peek (Reading.skip ts)).kind = .leftParen := by simpa [sees] using hsees
    refine (Gets.skip (by rw [hopening]; rfl) fun hsuffix' hless' => ?_).any
    exact (h.arguments (hnum.of_suffix (hsuffix'.trans hsuffix)) (by omega)).any.bind fun _ _ _ _ => .ok
  · next hkind =>
    refine .skip (by rw [hkind]; rfl) fun hsuffix hless => ?_
    refine (h.loosest (hnum.of_suffix hsuffix) (by omega)).any.bind fun e rest _ _ => ?_
    exact (@Gets.consume rest _ _ rfl).any.bind fun _ _ _ _ => .ok
  · exact .unexpected

theorem arguments_succ (hfuel : 10 * lineSize ts + 10 ≤ fuel + 1) : Gets 1 ts (argumentsIn (fuel + 1) ts) := by
  unfold argumentsIn
  refine .ite (fun hsees => ?_) fun _ => h.list hnum (by omega)
  have hclosing : (peek ts).kind = .rightParen := by simpa [sees] using hsees
  exact .skip (by rw [hclosing]; rfl) fun _ _ => .ok

theorem list_succ (hfuel : 10 * lineSize ts + 9 ≤ fuel + 1) : Gets 1 ts (argumentListIn (fuel + 1) ts) := by
  unfold argumentListIn
  refine (h.loosest hnum (by omega)).bind fun arg rest hsuffix hless => .ite (fun hsees => ?_) fun _ => ?_
  · have hcomma : (peek rest).kind = .comma := by simpa [sees] using hsees
    refine (Gets.skip (by rw [hcomma]; rfl) fun hsuffix' hless' => ?_).any
    exact (h.list (hnum.of_suffix (hsuffix'.trans hsuffix)) (by omega)).any.bind fun _ _ _ _ => .ok
  · exact (@Gets.consume rest _ _ rfl).any.bind fun _ _ _ _ => .ok

end Ample

theorem ample (fuel : Nat) : Ample fuel := by
  induction fuel with
  | zero => exact ⟨by omega, by omega, by omega, by omega, by omega, by omega⟩
  | succ fuel ih =>
    exact ⟨fun hnum => ih.tiers_succ hnum, fun hnum => ih.operators_succ hnum, ih.unary_succ, ih.primary_succ,
      ih.arguments_succ, ih.list_succ⟩

theorem gets_expression (hnum : Numbered ts) : Gets 1 ts (expression ts) :=
  (ample _).loosest hnum (by show _ ≤ 10 * (lineSize ts + 1); omega)

theorem gets_arguments (hnum : Numbered ts) : Gets 1 ts (arguments ts) :=
  (ample _).arguments hnum (by show _ ≤ 10 * (lineSize ts + 1); omega)

theorem gets_textIn {fuel : Nat} (hnum : Numbered ts) (hfuel : lineSize ts + 1 ≤ fuel) :
    Gets 0 ts (textIn fuel ts) := by
  induction fuel generalizing ts with
  | zero => omega
  | succ fuel ih =>
    unfold textIn
    dsimp only
    split
    · next hkind =>
      refine (Gets.skip (by rw [hkind]; rfl) fun hsuffix hless => ?_).any
      exact (ih (hnum.of_suffix hsuffix) (by omega)).bind fun _ _ _ _ => .ok
    · next hkind =>
      refine (Gets.skip (by rw [hkind]; rfl) fun hsuffix hless => ?_).any
      refine (gets_expression (hnum.of_suffix hsuffix)).any.bind fun e rest hsuffix' hless' => ?_
      refine (@Gets.consume rest _ _ rfl).any.bind fun _ after hsuffix'' hless'' => ?_
      have hmore := ih (hnum.of_suffix ((hsuffix''.trans hsuffix').trans hsuffix)) (by omega)
      exact hmore.bind fun _ _ _ _ => .ok
    · exact .ok

theorem gets_text (hnum : Numbered ts) : Gets 0 ts (text ts) :=
  gets_textIn hnum (by show _ ≤ 10 * (lineSize ts + 1); omega)

theorem gets_tags : Gets 0 ts (.ok (tags ts)) := by
  refine ⟨fun a rest h => ?_, fun _ h => (by cases h)⟩
  obtain ⟨used, hused, hplain⟩ := onLine_tags.taken a rest h
  exact ⟨used, hused, Nat.zero_le _, hplain⟩

end
end Reading
end Parley
