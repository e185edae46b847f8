import Parley.Proofs.Accesses
import Parley.Proofs.HostOrder
import Parley.Proofs.PlainGuards
import Parley.Proofs.Written

/-! # The types of expressions

An expression that calls nothing has a type, or none, by the types of the variables alone (`Expr.type?`). Evaluation
keeps to it (`Conforms`): an expression with a type comes to a value of the type, one without a type fails for it, and
either may come upon a zero divisor instead if it divides. The induction is on how the expression was parsed, since what
the parser does not make need not conform. -/

namespace Parley

inductive ValueType where
  | number
  | string
  | boolean
  | null
deriving DecidableEq, Repr

def Value.type : Value → ValueType
  | .number _ => .number
  | .string _ => .string
  | .boolean _ => .boolean
  | .null => .null

/-- The types of the variables that are defined. -/
def Variables.types (vs : Variables) (name : String) : Option ValueType := (vs.script.get? name).map Value.type

/-- What the operator makes of an operand of this type. -/
def UnaryOp.type? : UnaryOp → ValueType → Option ValueType
  | .not, .boolean => some .boolean
  | .neg, .number | .pos, .number => some .number
  | _, _ => none

/-- What the operator makes of operands of these types. -/
def BinaryOp.type? (op : BinaryOp) (left right : ValueType) : Option ValueType :=
  match op with
  | .and | .or => if left = .boolean ∧ right = .boolean then some .boolean else none
  | .eq | .ne => some .boolean
  | .add =>
    if left = .string ∨ right = .string then some .string
    else if left = .number ∧ right = .number then some .number else none
  | .sub | .mul | .div | .mod => if left = .number ∧ right = .number then some .number else none
  | .gt | .lt | .ge | .le => if left = .number ∧ right = .number then some .boolean else none
  | .other _ => none

mutual

/-- The type of an expression, if it has one where the variables have these types. -/
def Expr.type? (types : String → Option ValueType) : Expr → Option ValueType
  | .number .. => some .number
  | .string .. => some .string
  | .boolean .. => some .boolean
  | .reference name _ => types name
  | .unary op e _ => e.type? types >>= op.type?
  | .binary op l r _ => l.type? types >>= fun left => r.type? types >>= fun right => op.type? left right
  | .interpolated segments _ => textType? types segments
  | .call .. | .braces .. | .foreign _ => none

/-- A text is a string as long as its holes have types, whichever these are. -/
def textType? (types : String → Option ValueType) : List Segment → Option ValueType
  | [] => some .string
  | .literal .. :: rest => textType? types rest
  | .hole e _ :: rest => e.type? types >>= fun _ => textType? types rest
  | .stray _ :: _ => none

end

def BinaryOp.divides : BinaryOp → Bool
  | .div | .mod => true
  | _ => false

/-- There is a division in the expression, or a remainder. -/
def Expr.divides (e : Expr) : Bool :=
  e.nodes.any fun
    | .binary op .. => op.divides
    | _ => false

theorem Expr.divides_unary (op : UnaryOp) (e : Expr) (pos : Pos) : (Expr.unary op e pos).divides = e.divides := by
  simp [divides, nodes]

theorem Expr.divides_binary (op : BinaryOp) (l r : Expr) (pos : Pos) :
    (Expr.binary op l r pos).divides = (l.divides || (r.divides || op.divides)) := by
  simp [divides, nodes]

/-- A fault of operands of the wrong types, or of a variable that is not there. -/
def Fault.Mistyped (f : Fault) : Prop := (∃ t, f = .type t) ∨ ∃ name, f = .undefinedVariable name

variable {σ μ : Type}

/-- With these variables, which stay as they are, the answer has the type that is given; where none is given, there is
no answer. A zero divisor is met only if `divides` holds. -/
def Conforms (vars : Variables) (divides : Prop) {α τ : Type} (type : α → τ) (expected : Option τ) (x : Play σ μ α) :
    Prop :=
  ∀ w : World σ μ, w.vars = vars → wp x (fun a v => v.vars = vars ∧ expected = some (type a))
    (fun f _ => expected = none ∧ f.Mistyped ∨ divides ∧ ∃ z, f = .zeroDivisor z) w

namespace Conforms
variable {vars : Variables} {divides divides' : Prop} {α β τ υ : Type} {type : α → τ} {expected : Option τ} {x : Play σ μ α}

theorem pure {a : α} (h : expected = some (type a)) : Conforms vars divides type expected (pure a : Play σ μ α) :=
  fun _ hw => ⟨hw, h⟩

theorem typeFail (t : TypeFault) : Conforms vars divides type none (Play.typeFail t : Play σ μ α) :=
  fun _ _ => .inl ⟨rfl, .inl ⟨t, rfl⟩⟩

theorem zeroDivisor (h : divides) (channel : LogChannel) (z : ZeroDivisor) :
    Conforms vars divides type expected (Play.failOn channel (.zeroDivisor z) : Play σ μ α) :=
  fun _ _ => .inr ⟨h, z, rfl⟩

theorem weaken (hx : Conforms vars divides type expected x) (h : divides → divides') :
    Conforms vars divides' type expected x :=
  fun w hw => wp_mono (hx w hw) (fun _ _ h => h) fun _ _ hfault => hfault.imp_right (And.imp_left h)

theorem bind {type' : β → υ} {g : τ → Option υ} {f : α → Play σ μ β} (hx : Conforms vars divides type expected x)
    (hf : ∀ a, Conforms vars divides type' (g (type a)) (f a)) :
    Conforms vars divides type' (expected >>= g) (x >>= f) := by
  intro w hw
  rw [wp_bind]
  refine wp_mono (hx w hw) (fun a u ⟨hu, hexpected⟩ => ?_) fun f u hfault => ?_
  · rw [hexpected]
    exact hf a u hu
  · exact hfault.imp_left fun ⟨hnone, hf⟩ => ⟨by rw [hnone]; rfl, hf⟩

/-- What is made of the answer has the same type. -/
theorem map {type' : β → τ} {f : α → β} (hx : Conforms vars divides type expected x) (hf : ∀ a, type' (f a) = type a) :
    Conforms vars divides type' expected (x >>= fun a => Pure.pure (f a)) := by
  rw [← Option.bind_fun_some expected]
  exact hx.bind fun a => pure (congrArg some (hf a).symm)

end Conforms

namespace Play
variable {host : Host σ μ} {vars : Variables} {divides : Prop}

/-! ### Operators -/

theorem conforms_applyUnary {op : UnaryOp} (hop : ∀ symbol, op ≠ .other symbol) (operand : Value) (line : Int) :
    Conforms vars divides Value.type (op.type? operand.type) (applyUnary op operand line : Play σ μ Value) := by
  cases op with
  | other symbol => exact absurd rfl (hop symbol)
  | not | neg | pos => cases operand <;> first | exact .pure rfl | exact .typeFail _

theorem conforms_applyBinary {op : BinaryOp} (hdivides : op.divides → divides) (left right : Value) (line : Int) :
    Conforms vars divides Value.type (op.type? left.type right.type)
      (applyBinary op left right line : Play σ μ Value) := by
  cases op with
  | eq | ne => exact .pure rfl
  | and | or | add | sub | mul | gt | lt | ge | le | other =>
    cases left <;> cases right <;> first | exact .pure rfl | exact .typeFail _
  | div | mod =>
    cases left with
    | number x =>
      cases right with
      | number y =>
        change Conforms vars divides Value.type _ (if y.isZero then _ else _)
        split
        · exact .zeroDivisor (hdivides rfl) _ _
        · exact .pure rfl
      | string | boolean | null => exact .typeFail _
    | string | boolean | null => cases right <;> exact .typeFail _

/-! ### Expressions -/

theorem conforms_getVariable {name : String} (hfree : vars.host.get? name = none) :
    Conforms vars divides Value.type (vars.types name) (getVariable host name) := by
  intro w hw
  subst hw
  have hnote : (note (.read name) : Play σ μ Unit) w = .ok () (w.noting (.read name)) := rfl
  have hvars : (w.noting (.read name)).vars = w.vars := rfl
  unfold wp getVariable Variables.types
  rw [run_bind_ok hnote, run_bind_ok (run_get _)]
  simp only [hvars, hfree]
  cases w.vars.script.get? name with
  | some v => exact ⟨rfl, rfl⟩
  | none => exact .inl ⟨rfl, .inr ⟨name, rfl⟩⟩

/-- A stretch of literal text leaves the rest as it is. -/
theorem conforms_literalText {rest : List Segment} (pos : Pos) (text : List Char)
    (h : Conforms vars divides (fun _ : String => ValueType.string) (textType? vars.types rest)
      (strictText host rest)) :
    Conforms vars divides (fun _ : String => ValueType.string) (textType? vars.types (literalText pos text ++ rest))
      (strictText host (literalText pos text ++ rest)) := by
  unfold literalText
  split
  · exact h
  · exact h.map fun _ => rfl

theorem segmentsPlain_literalText (pos : Pos) (text : List Char) (rest : List Segment) :
    segmentsPlain vars (literalText pos text ++ rest) = segmentsPlain vars rest := by
  unfold literalText
  split <;> rfl

theorem conforms_strictText {pos : Pos} {text : List Char} {segments : List Segment} (h : Pieces pos text segments)
    (hplain : segmentsPlain vars segments) :
    Conforms vars divides (fun _ : String => ValueType.string) (textType? vars.types segments)
      (strictText host segments) := by
  induction h with
  | @last text _ =>
    rw [← List.append_nil (literalText pos text)]
    exact conforms_literalText pos text (.pure rfl)
  | @hole text _ name _ _ _ _ _ _ ih =>
    rw [segmentsPlain_literalText] at hplain
    obtain ⟨hfree, hmore⟩ := Bool.and_eq_true_iff.1 hplain
    refine conforms_literalText pos text ?_
    exact (conforms_getVariable (by simpa [Expr.isPlain] using hfree)).bind fun v => (ih hmore).map fun _ => rfl

/-- A sign stands for itself. -/
theorem ne_other_of_sign {op : Token} (hop : op.kind ∈ [TokenKind.not, .minus, .plus]) (hgenuine : op.Genuine)
    (symbol : String) : UnaryOp.ofSymbol op.value ≠ .other symbol := by
  simp only [List.mem_cons, List.not_mem_nil, or_false] at hop
  have hspelled (s : String) (hs : op.kind.symbol? = some s) : op.value = s := hgenuine.operator s hs
  rcases hop with hkind | hkind | hkind <;> rw [hkind] at hspelled <;> simp [hspelled _ rfl, UnaryOp.ofSymbol]

theorem conforms_evaluate {p : Phrase} {ts : List Token} {e : Expr} (h : Derives p ts e)
    (hgenuine : ∀ t ∈ ts, t.Genuine) (hplain : e.isPlain vars) :
    Conforms vars e.divides Value.type (e.type? vars.types) (evaluate host e) := by
  match h with
  | .operand _ h => exact conforms_evaluate h hgenuine hplain
  | .binary hleft _ hright =>
    obtain ⟨hl, hr⟩ := Bool.and_eq_true_iff.1 hplain
    have hleft := conforms_evaluate hleft (fun t ht => hgenuine t (List.mem_append_left _ ht)) hl
    have hright := conforms_evaluate hright
      (fun t ht => hgenuine t (List.mem_append_right _ (List.mem_cons_of_mem _ ht))) hr
    refine (hleft.weaken fun h => ?_).bind fun x => (hright.weaken fun h => ?_).bind fun y =>
      conforms_applyBinary (fun h => ?_) x y _
    all_goals rw [Expr.divides_binary, h]; simp
  | .unary hop h =>
    have h := conforms_evaluate h (fun t ht => hgenuine t (List.mem_cons_of_mem _ ht)) hplain
    have hop := ne_other_of_sign hop (hgenuine _ List.mem_cons_self)
    rw [Expr.divides_unary]
    exact h.bind fun x => conforms_applyUnary hop x _
  | .number .. | .string .. | .trueWord _ | .falseWord _ => exact .pure rfl
  | .interpolated _ _ hpieces => exact (conforms_strictText hpieces hplain).map fun _ => rfl
  | .reference _ => exact conforms_getVariable (by simpa [Expr.isPlain] using hplain)
  | .name _ | .call .. | .callWith .. => cases hplain
  | .parens _ h _ =>
    exact conforms_evaluate h (fun t ht => hgenuine t (List.mem_cons_of_mem _ (List.mem_append_left _ ht))) hplain

end Play

/-- Whatever the values of its variables are, an expression of a script that has a type comes to a value of that type,
unless it divides by zero; and one that has none comes to nothing, for a fault of types, a variable that is not there,
or a division by zero. So whether it comes to a value and of which type depends on the types of the variables alone, up
to divisions by zero. -/
theorem evaluate_typed (host : Host σ μ) {source : String} {script : Script} {e : Expr} {w : World σ μ}
    (hscript : (parseScript source).result = .ok script) (he : e ∈ script.exprs) (hplain : e.isPlain w.vars) :
    (∀ T, e.type? w.vars.types = some T →
      (∃ v u, Play.evaluate host e w = .ok v u ∧ v.type = T) ∨
        e.divides ∧ ∃ z u, Play.evaluate host e w = .error (.zeroDivisor z) u) ∧
    (e.type? w.vars.types = none →
      ∃ f u, Play.evaluate host e w = .error f u ∧ (f.Mistyped ∨ e.divides ∧ ∃ z, f = .zeroDivisor z)) ∧
    ∀ (w' : World σ μ), e.isPlain w'.vars → w'.vars.types = w.vars.types →
      ∀ v u, Play.evaluate host e w = .ok v u →
        (∃ v' u', Play.evaluate host e w' = .ok v' u' ∧ v'.type = v.type) ∨
        e.divides ∧ ∃ z u', Play.evaluate host e w' = .error (.zeroDivisor z) u' := by
  obtain ⟨ts, hder, hgenuine⟩ := Script.written hscript e he
  have hall (w : World σ μ) (hplain : e.isPlain w.vars) : wp (Play.evaluate host e)
      (fun v u => u.vars = w.vars ∧ e.type? w.vars.types = some v.type)
      (fun f _ => e.type? w.vars.types = none ∧ f.Mistyped ∨ e.divides ∧ ∃ z, f = .zeroDivisor z) w :=
    Play.conforms_evaluate hder hgenuine hplain w rfl
  have hsound {w : World σ μ} (hplain : e.isPlain w.vars) {T : ValueType} (hT : e.type? w.vars.types = some T) :
      (∃ v u, Play.evaluate host e w = .ok v u ∧ v.type = T) ∨
        e.divides ∧ ∃ z u, Play.evaluate host e w = .error (.zeroDivisor z) u := by
    have h := hall w hplain
    unfold wp at h
    rw [hT] at h
    split at h
    · next v u hrun => exact .inl ⟨v, u, hrun, (Option.some.inj h.2).symm⟩
    · next f u hrun =>
      obtain ⟨hnone, -⟩ | ⟨hdivides, z, rfl⟩ := h
      · cases hnone
      · exact .inr ⟨hdivides, z, u, hrun⟩
  refine ⟨fun T hT => hsound hplain hT, fun hnone => ?_, fun w' hplain' htypes v u hrun => ?_⟩
  · have h := hall w hplain
    unfold wp at h
    rw [hnone] at h
    split at h
    · cases h.2
    · next f u hrun => exact ⟨f, u, hrun, h.imp_left And.right⟩
  · have h := hall w hplain
    rw [wp_ok hrun] at h
    exact hsound hplain' (htypes ▸ h.2)

/-- A Boolean if `$guilty` is one, whatever `$name` is. -/
def verdict : Expr :=
  .binary .and (.unary .not (.reference "guilty" ⟨2, 12⟩) ⟨2, 11⟩)
    (.binary .eq (.reference "name" ⟨2, 23⟩) (.string "Ann" ⟨2, 32⟩) ⟨2, 29⟩) ⟨2, 20⟩

/-- A context in which it is said who is guilty. -/
def hearing (guilty : Value) : World Unit Unit :=
  { vars := { script := .ofList [("guilty", guilty), ("name", .null)] }, host := () }

theorem evaluate_typed_verdict :
    ∃ host : Host Unit Unit, verdict.type? (hearing (.boolean false)).vars.types = some .boolean ∧
      verdict.type? (hearing (.string "no")).vars.types = none ∧
      (∃ v u, Play.evaluate host verdict (hearing (.boolean false)) = .ok v u ∧ v.type = .boolean) ∧
      ∃ f u, Play.evaluate host verdict (hearing (.string "no")) = .error f u ∧ f.Mistyped := by
  have hscript : (parseScript ":: a\nvar $free !$guilty && $name == \"Ann\"\n").result =
      .ok ⟨[⟨"a", [.command (.assign "free" .set verdict) ⟨2, 1⟩], ⟨1, 1⟩⟩]⟩ := rfl
  have htyped : verdict.type? (hearing (.boolean false)).vars.types = some .boolean := by decide +kernel
  have huntyped : verdict.type? (hearing (.string "no")).vars.types = none := by decide +kernel
  have hwhole : ¬ verdict.divides := by decide +kernel
  refine ⟨.ofBehaviour Behaviour.silent 0 1, htyped, huntyped, ?_, ?_⟩
  · exact ((evaluate_typed _ hscript (.head _) (by decide +kernel)).1 _ htyped).resolve_right fun h => hwhole h.1
  · obtain ⟨f, u, hrun, hf⟩ := (evaluate_typed _ hscript (.head _) (by decide +kernel)).2.1 huntyped
    exact ⟨f, u, hrun, hf.resolve_right fun h => hwhole h.1⟩

end Parley
