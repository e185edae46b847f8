import Parley.Proofs.HostOrder
import Parley.Proofs.PlainGuards
import Parley.Proofs.Snapshots

/-! # Commands that update a variable

`add $x e` comes to what `set $x ($x + e)` comes to, and so do the other four. The two look up the variable and the
value in opposite orders, and each has checks of its own; but with expressions that keep to the script neither
look-up changes what the other one finds (`exists_evaluated`), and once both values are there the checks agree
(`update_apart`). They part where `+` joins texts, which a command that updates does not (`update_joins`). -/

namespace Parley
variable {σ μ : Type}

/-- The operator by which a command updates its variable. -/
def VarOp.operator? : VarOp → Option BinaryOp
  | .set => none
  | .add => some .add
  | .sub => some .sub
  | .mul => some .mul
  | .div => some .div
  | .mod => some .mod

/-- The operator joins the texts of these operands. -/
def BinaryOp.Joins (o : BinaryOp) (x y : Value) : Prop := o = .add ∧ (x.isString ∨ y.isString)

/-- Two faults of types, or two of zero divisors. -/
def Fault.SameKind (f g : Fault) : Prop :=
  (∃ t t', f = .type t ∧ g = .type t') ∨ ∃ z z', f = .zeroDivisor z ∧ g = .zeroDivisor z'

namespace Play
variable {host : Host σ μ} {op : VarOp} {o : BinaryOp} {name : String} {e : Expr} {vars : Variables}

/-- What a command that updates does when both values are there. -/
def update (host : Host σ μ) (op : VarOp) (name : String) (current value : Value) (line : Int) : Play σ μ Unit :=
  match current, value with
  | .number x, .number y => do setVariable host name (.number (← updated op name x y line))
  | c, v => typeFail (.update op.label name c.typeName v.typeName line)

theorem execute_update (hop : op.operator? = some o) (line : Int) :
    execute host (.assign name op e) line = (do
      let value ← evaluate host e
      let current ← getVariable host name
      update host op name current value line
      return none) := by
  have hset : op ≠ .set := by rintro rfl; cases hop
  simp only [execute, assign, hset, if_false, bind_assoc]
  rfl

theorem execute_set (p q : Pos) (line : Int) :
    execute host (.assign name .set (.binary o (.reference name p) e q)) line = (do
      let current ← getVariable host name
      let value ← evaluate host e
      let result ← applyBinary o current value q.line
      setVariable host name result
      return none) := by
  simp only [execute, assign, evaluate, if_true, bind_assoc]

theorem failOn_bind {α β : Type} (f : Fault) (k : α → Play σ μ β) (w : World σ μ) :
    (failOn .interpreter f >>= k) w = .error f (w.noting (.logged ⟨.error, .interpreter, f.message⟩)) := rfl

/-! ### Both values are there -/

section
variable (host name)

theorem update_joins (hop : op.operator? = some o) {x y : Value} (hjoins : o.Joins x y) (line line' : Int) :
    update host op name x y line = typeFail (.update op.label name x.typeName y.typeName line) ∧
      (applyBinary o x y line' : Play σ μ Value) = pure (.string (x.text ++ y.text)) := by
  obtain ⟨rfl, hstring⟩ := hjoins
  cases x <;> cases y <;> first | exact ⟨rfl, rfl⟩ | simp [Value.isString] at hstring

/-- The operands are checked alike. -/
theorem update_mistyped (hop : op.operator? = some o) {x y : Value} (hapart : ¬ o.Joins x y)
    (hnumbers : ∀ a b, x = .number a → y ≠ .number b) (line line' : Int) :
    ∃ t t', update host op name x y line = typeFail t ∧ (applyBinary o x y line' : Play σ μ Value) = typeFail t' := by
  cases x <;> cases y <;> first | exact absurd rfl (hnumbers _ _ rfl) | skip
  all_goals
    cases op <;> cases hop <;> first
      | exact ⟨_, _, rfl, rfl⟩
      | exact absurd ⟨rfl, by simp [Value.isString]⟩ hapart

/-- So is a divisor. -/
theorem update_numbers (hop : op.operator? = some o) (x y : Binary64) (line line' : Int) :
    (∃ z, update host op name (.number x) (.number y) line = setVariable host name z ∧
      (applyBinary o (.number x) (.number y) line' : Play σ μ Value) = pure z) ∨
    ∃ z z', update host op name (.number x) (.number y) line = failOn .interpreter (.zeroDivisor z) ∧
      (applyBinary o (.number x) (.number y) line' : Play σ μ Value) = failOn .interpreter (.zeroDivisor z') := by
  cases op <;> cases hop
  case add | sub | mul => exact .inl ⟨_, rfl, rfl⟩
  all_goals
    cases hzero : y.isZero with
    | false =>
      exact .inl ⟨_, by simp [update, updated, hzero]; rfl, by simp [applyBinary, applyNumeric, hzero]⟩
    | true =>
      exact .inr ⟨.update _ name line, _, by simp [update, updated, hzero]; rfl,
        by simp [applyBinary, applyNumeric, hzero]; rfl⟩

theorem update_apart (hop : op.operator? = some o) {x y : Value} (hapart : ¬ o.Joins x y) (line line' : Int) :
    (∃ z, update host op name x y line = setVariable host name z ∧
      (applyBinary o x y line' : Play σ μ Value) = pure z) ∨
    ∃ f g, f.SameKind g ∧ update host op name x y line = failOn .interpreter f ∧
      (applyBinary o x y line' : Play σ μ Value) = failOn .interpreter g := by
  by_cases hnumbers : ∃ a b, x = .number a ∧ y = .number b
  · obtain ⟨a, b, rfl, rfl⟩ := hnumbers
    obtain hdone | ⟨z, z', hfail⟩ := update_numbers host name hop a b line line'
    · exact .inl hdone
    · exact .inr ⟨_, _, .inr ⟨z, z', rfl, rfl⟩, hfail⟩
  · obtain ⟨t, t', hfail⟩ := update_mistyped host name hop hapart
      (fun a b hx hy => hnumbers ⟨a, b, hx, hy⟩) line line'
    exact .inr ⟨_, _, .inl ⟨t, t', rfl, rfl⟩, hfail⟩

end

/-! ### Both are looked up -/

section
variable {w u : World σ μ} {left right : Expr} {x y : Value}

/-- An expression that keeps to the script comes to the same and leaves the variables, whatever was noted before. -/
theorem exists_evaluated (host : Host σ μ) (hplain : e.isPlain vars) :
    ∃ r : Except Fault Value, ∀ u : World σ μ, u.vars = vars →
      ∃ v, evaluate host e u = Except.inWorld r v ∧ v.vars = vars := by
  obtain ⟨r, hr⟩ : Answering (fun u : World σ μ => u.vars = vars) (evaluate host e) :=
    answering_evaluate (knowing_vars vars) e hplain
  exact ⟨r, fun u hu => (hr u hu).imp fun v h => ⟨h.1, h.2.1⟩⟩

theorem exists_value (hplain : e.isPlain w.vars) (h : answer? (evaluate host e w) = some x) (hu : u.vars = w.vars) :
    ∃ v, evaluate host e u = .ok x v ∧ v.vars = w.vars := by
  obtain ⟨r, hr⟩ := exists_evaluated host hplain
  obtain ⟨v, hv, -⟩ := hr w rfl
  rw [hv] at h
  cases r <;> cases h
  exact hr u hu

theorem exists_fault (hplain : e.isPlain w.vars) (h : answer? (evaluate host e w) = none) (hu : u.vars = w.vars) :
    ∃ f v, evaluate host e u = .error f v ∧ v.vars = w.vars := by
  obtain ⟨r, hr⟩ := exists_evaluated host hplain
  obtain ⟨v, hv, -⟩ := hr w rfl
  rw [hv] at h
  cases r with
  | ok => cases h
  | error f => exact ⟨f, hr u hu⟩

/-- In this world the operands have these values. -/
def Operands (host : Host σ μ) (w : World σ μ) (left right : Expr) (x y : Value) : Prop :=
  answer? (evaluate host left w) = some x ∧ answer? (evaluate host right w) = some y

variable (hfree : w.vars.host.get? name = none) (hplain : e.isPlain w.vars) (hop : op.operator? = some o) (p q : Pos)
  (line : Int)
include hfree hplain

theorem run_set_operands (h : Operands host w (.reference name p) e x y) :
    ∃ v : World σ μ, v.vars = w.vars ∧
      execute host (.assign name .set (.binary o (.reference name p) e q)) line w =
        (do setVariable host name (← applyBinary o x y q.line); return none) v ∧
      evaluate host (.binary o (.reference name p) e q) w = applyBinary o x y q.line v := by
  obtain ⟨u, hu, hvars⟩ := exists_value (by simpa [Expr.isPlain] using hfree) h.1 rfl
  obtain ⟨v, hv, hvars'⟩ := exists_value hplain h.2 hvars
  rw [evaluate] at hu
  refine ⟨v, hvars', ?_, ?_⟩
  · rw [execute_set, run_bind_ok hu, run_bind_ok hv]
  · rw [evaluate, evaluate, run_bind_ok hu, run_bind_ok hv]

include hop

theorem run_update_operands (h : Operands host w (.reference name p) e x y) :
    ∃ v : World σ μ, v.vars = w.vars ∧ execute host (.assign name op e) line w =
      (do update host op name x y line; return none) v := by
  obtain ⟨u, hu, hvars⟩ := exists_value hplain h.2 rfl
  obtain ⟨v, hv, hvars'⟩ := exists_value (by simpa [Expr.isPlain] using hfree) h.1 hvars
  rw [evaluate] at hv
  exact ⟨v, hvars', by rw [execute_update hop, run_bind_ok hu, run_bind_ok hv]⟩

/-- Where texts are joined, the command that updates fails for the types. -/
theorem run_joins (h : Operands host w (.reference name p) e x y) (hjoins : o.Joins x y) (line' : Int) :
    (∃ t u, execute host (.assign name op e) line w = .error (.type t) u ∧ u.vars = w.vars) ∧
      ∃ v, execute host (.assign name .set (.binary o (.reference name p) e q)) line' w = .ok none v ∧
        v.vars = { w.vars with script := w.vars.script.put name (.string (x.text ++ y.text)) } := by
  obtain ⟨u, hu, hupdate⟩ := run_update_operands hfree hplain hop p line h
  obtain ⟨v, hv, hset, -⟩ := run_set_operands (o := o) hfree hplain p q line' h
  obtain ⟨hf, hc⟩ := update_joins host name hop hjoins line q.line
  rw [hupdate, hf, typeFail, failOn_bind, hset, hc, pure_bind,
    run_bind_ok (run_setVariable_free (by rwa [hv]) (.string (x.text ++ y.text)))]
  exact ⟨⟨_, _, rfl, hu⟩, _, rfl, by simp only [World.withScript, World.withVars, hv]⟩

/-- Anywhere else the two commands with both values do the same. -/
theorem run_apart (h : Operands host w (.reference name p) e x y) (hapart : ¬ o.Joins x y) (line' : Int) :
    (∃ c u v, execute host (.assign name op e) line w = .ok none u ∧
      execute host (.assign name .set (.binary o (.reference name p) e q)) line' w = .ok none v ∧ u.vars = v.vars ∧
      answer? (evaluate host (.binary o (.reference name p) e q) w) = some c ∧
      v.vars = { w.vars with script := w.vars.script.put name c }) ∨
    ∃ f g u v, f.SameKind g ∧ execute host (.assign name op e) line w = .error f u ∧
      execute host (.assign name .set (.binary o (.reference name p) e q)) line' w = .error g v ∧
      u.vars = w.vars ∧ v.vars = w.vars := by
  obtain ⟨u, hu, hupdate⟩ := run_update_operands hfree hplain hop p line h
  obtain ⟨v, hv, hset, hsum⟩ := run_set_operands (o := o) hfree hplain p q line' h
  rw [hupdate, hset, hsum]
  obtain ⟨c, hdone, hc⟩ | ⟨f, g, hsame, hf, hg⟩ := update_apart host name hop hapart line q.line
  · have hput {v : World σ μ} (hv : v.vars = w.vars) :
        setVariable host name c v = .ok () (v.withScript (v.vars.script.put name c)) :=
      run_setVariable_free (by rwa [hv]) c
    rw [hdone, hc, pure_bind, run_bind_ok (hput hu), run_bind_ok (hput hv)]
    refine .inl ⟨c, _, _, rfl, rfl, ?_, rfl, ?_⟩
    · simp only [World.withScript, World.withVars, hu, hv]
    · simp only [World.withScript, World.withVars, hv]
  · rw [hf, hg, failOn_bind, failOn_bind]
    exact .inr ⟨f, g, _, _, hsame, rfl, rfl, hu, hv⟩

/-- Without both values neither command gets to its operator. -/
theorem run_without_operands (h : ∀ x y, ¬ Operands host w (.reference name p) e x y) (line' : Int) :
    ∃ f g u v, execute host (.assign name op e) line w = .error f u ∧
      execute host (.assign name .set (.binary o (.reference name p) e q)) line' w = .error g v ∧
      u.vars = w.vars ∧ v.vars = w.vars := by
  have hplain' : (Expr.reference name p).isPlain w.vars := by simpa [Expr.isPlain] using hfree
  rw [execute_update hop, execute_set]
  have href (u : World σ μ) : evaluate host (.reference name p) u = getVariable host name u := by rw [evaluate]
  cases hx : answer? (evaluate host (.reference name p) w) with
  | none =>
    obtain ⟨g, v, hv, hvars⟩ := exists_fault hplain' hx rfl
    rw [href] at hv
    rw [run_bind_error hv]
    cases hy : answer? (evaluate host e w) with
    | none =>
      obtain ⟨f, u, hu, hvars'⟩ := exists_fault hplain hy rfl
      exact ⟨f, g, u, v, run_bind_error hu, rfl, hvars', hvars⟩
    | some y =>
      obtain ⟨u, hu, hvars'⟩ := exists_value hplain hy rfl
      obtain ⟨f, u', hu', hvars''⟩ := exists_fault hplain' hx hvars'
      rw [href] at hu'
      exact ⟨f, g, u', v, by rw [run_bind_ok hu, run_bind_error hu'], rfl, hvars'', hvars⟩
  | some x =>
    cases hy : answer? (evaluate host e w) with
    | none =>
      obtain ⟨f, u, hu, hvars⟩ := exists_fault hplain hy rfl
      obtain ⟨v, hv, hvars'⟩ := exists_value hplain' hx rfl
      obtain ⟨g, v', hv', hvars''⟩ := exists_fault hplain hy hvars'
      rw [href] at hv
      exact ⟨f, g, u, v', run_bind_error hu, by rw [run_bind_ok hv, run_bind_error hv'], hvars, hvars''⟩
    | some y => exact absurd ⟨hx, hy⟩ (h x y)

end
end Play

/-- Whatever the variables of the script are, a command that updates one of them by an expression does what setting it
to the operator's result does: they leave the same variables, or both fail and leave all variables alone, with faults of
one kind if both operands have values. Only where `+` joins texts the one fails for the types, and the other sets the
variable to the text. -/
theorem execute_update_agrees (host : Host σ μ) {w : World σ μ} {op : VarOp} {o : BinaryOp}
    (hop : op.operator? = some o) {name : String} (hfree : w.vars.host.get? name = none) {e : Expr}
    (hplain : e.isPlain w.vars) (p q : Pos) (line line' : Int) :
    let x := Expr.reference name p
    let update := Play.execute host (.assign name op e) line w
    let set := Play.execute host (.assign name .set (.binary o x e q)) line' w
    ((∀ a b, Play.Operands host w x e a b → ¬ o.Joins a b) →
      (∃ c u v, update = .ok none u ∧ set = .ok none v ∧ u.vars = v.vars ∧
        answer? (Play.evaluate host (.binary o x e q) w) = some c ∧
        v.vars = { w.vars with script := w.vars.script.put name c }) ∨
      ∃ f g u v, update = .error f u ∧ set = .error g v ∧ u.vars = w.vars ∧ v.vars = w.vars) ∧
    (∀ a b, Play.Operands host w x e a b → o.Joins a b →
      (∃ t u, update = .error (.type t) u ∧ u.vars = w.vars) ∧
      ∃ v, set = .ok none v ∧ v.vars = { w.vars with script := w.vars.script.put name (.string (a.text ++ b.text)) }) ∧
    ∀ a b, Play.Operands host w x e a b → ∀ f g u v, update = .error f u → set = .error g v → f.SameKind g := by
  refine ⟨fun hapart => ?_, fun a b h hjoins => Play.run_joins hfree hplain hop p q line h hjoins line',
    fun a b h f g u v hu hv => ?_⟩
  · by_cases h : ∃ a b, Play.Operands host w (.reference name p) e a b
    · obtain ⟨a, b, h⟩ := h
      exact (Play.run_apart hfree hplain hop p q line h (hapart a b h) line').imp_right
        fun ⟨f, g, u, v, hfail⟩ => ⟨f, g, u, v, hfail.2⟩
    · exact .inr (Play.run_without_operands hfree hplain hop p q line (fun a b hab => h ⟨a, b, hab⟩) line')
  · by_cases hjoins : o.Joins a b
    · obtain ⟨-, v', hset, -⟩ := Play.run_joins hfree hplain hop p q line h hjoins line'
      cases hset.symm.trans hv
    · obtain ⟨c, u', v', hupdate, -⟩ | ⟨f', g', u', v', hsame, hupdate, hset, -⟩ :=
        Play.run_apart hfree hplain hop p q line h hjoins line'
      · cases hupdate.symm.trans hu
      · cases hupdate.symm.trans hu
        cases hset.symm.trans hv
        exact hsame

/-- A context without gold. -/
def purse : World Unit Unit := { vars := { script := .ofList [("gold", .number .zero)] }, host := () }

theorem execute_update_agrees_purse :
    ∃ host : Host Unit Unit,
      -- `add $gold "!"` beside `set $gold ($gold + "!")`
      ((∃ t u, Play.execute host (.assign "gold" .add (.string "!" ⟨2, 11⟩)) 2 purse = .error (.type t) u ∧
          u.vars = purse.vars) ∧
        ∃ v, Play.execute host (.assign "gold" .set (.binary .add (.reference "gold" ⟨3, 12⟩) (.string "!" ⟨3, 20⟩)
            ⟨3, 18⟩)) 3 purse = .ok none v ∧
          v.vars = { purse.vars with script := purse.vars.script.put "gold" (.string "0!") }) ∧
      -- `mod $gold -$gold` beside `set $gold ($gold % -$gold)`
      (∃ f g u v, Play.execute host (.assign "gold" .mod (.unary .neg (.reference "gold" ⟨4, 12⟩) ⟨4, 11⟩)) 4 purse =
          .error f u ∧
        Play.execute host (.assign "gold" .set (.binary .mod (.reference "gold" ⟨5, 12⟩)
          (.unary .neg (.reference "gold" ⟨5, 21⟩) ⟨5, 20⟩) ⟨5, 18⟩)) 5 purse = .error g v ∧
        u.vars = purse.vars ∧ v.vars = purse.vars ∧ f.SameKind g) := by
  let host : Host Unit Unit := .ofBehaviour Behaviour.silent 0 1
  have hgold (p : Pos) : answer? (Play.evaluate host (.reference "gold" p) purse) = some (.number .zero) := rfl
  have hmark (p : Pos) : answer? (Play.evaluate host (.string "!" p) purse) = some (.string "!") := rfl
  have hdebt (p q : Pos) : answer? (Play.evaluate host (.unary .neg (.reference "gold" p) q) purse) =
      some (.number (.neg .zero)) := rfl
  have htext : "0!" = (Value.number .zero).text ++ (Value.string "!").text := by decide +kernel
  refine ⟨host, ?_, ?_⟩
  · rw [htext]
    exact (execute_update_agrees host (o := .add) rfl rfl rfl _ _ _ _).2.1 _ _ ⟨hgold _, hmark _⟩ ⟨rfl, .inr rfl⟩
  · have hmod : VarOp.mod.operator? = some .mod := rfl
    have hfree : purse.vars.host.get? "gold" = none := rfl
    have hplain : (Expr.unary .neg (.reference "gold" ⟨4, 12⟩) ⟨4, 11⟩).isPlain purse.vars := rfl
    obtain ⟨hapart, -, hsame⟩ := execute_update_agrees host hmod hfree hplain ⟨5, 12⟩ ⟨5, 18⟩ 4 5
    obtain ⟨c, -, -, -, -, -, hc, -⟩ | ⟨f, g, u, v, hu, hv, hvars, hvars'⟩ :=
      hapart fun _ _ _ hjoins => nomatch hjoins.1
    · cases hc
    · exact ⟨f, g, u, v, hu, hv, hvars, hvars', hsame _ _ ⟨hgold _, hdebt _ _⟩ f g u v hu hv⟩

end Parley
