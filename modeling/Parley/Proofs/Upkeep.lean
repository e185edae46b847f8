import Parley.Host.Operation
import Parley.Proofs.Agreement
import Parley.Proofs.Outcome

/-! # What every call upholds

`Upholds I E x`: from worlds with `I`, `x` leads to worlds with `I` again, and where it fails the fault has `E`.
Evaluation upholds what bears quiet notes in the journal, other variables, and the host's functions and variables
(`Bearing`); calls that only write to the context ask for little more (`Housekeeping`), and publishing for any bus and
for what handlers do (`Delivering`). An `Upkeep` lists all of it together. -/

namespace Parley
variable {σ μ : Type}

/-- The engine has come to where it cannot be: to a frame that is not there, or one that no node is around. -/
def Fault.isInternal : Fault → Bool
  | .emptyStack => true
  | .lacks _ part => part == "name"
  | _ => false

theorem Fault.isInternal_ofConversion (e : ConversionFault) : (Fault.ofConversion e).isInternal = false := by
  cases e <;> rfl

theorem Fault.isInternal_ofSetting (f : SettingFault) : (Fault.ofSetting f).isInternal = false := by
  cases f <;> rfl

theorem Expr.isInternal_source? {e : Expr} {f : Fault} (h : e.source? = .error f) : f.isInternal = false := by
  unfold Expr.source? at h
  split at h <;> cases h
  · rfl
  · simp [Fault.isInternal]

def Upholds {α : Type} (I : World σ μ → Prop) (E : Fault → Prop) (x : Play σ μ α) : Prop :=
  ∀ ⦃w⦄, I w → wp x (fun _ => I) (fun f w' => I w' ∧ E f) w

namespace Upholds
variable {α β : Type} {I : World σ μ → Prop} {E F : Fault → Prop} {x : Play σ μ α}

theorem pure (a : α) : Upholds I E (pure a : Play σ μ α) := fun _ h => h

theorem throw {f : Fault} (hf : E f) : Upholds I E (throw f : Play σ μ α) := fun _ h => ⟨h, hf⟩

theorem bind {f : α → Play σ μ β} (hx : Upholds I E x) (hf : ∀ a, Upholds I E (f a)) :
    Upholds I E (x >>= f) := by
  intro w hw
  rw [wp_bind]
  exact wp_mono (hx hw) (fun a _ hw => hf a hw) fun _ _ h => h

theorem ite {c : Prop} [Decidable c] {y : Play σ μ α} (hx : Upholds I E x) (hy : Upholds I E y) :
    Upholds I E (if c then x else y) := by
  split <;> assumption

theorem tryCatch {handle : Fault → Play σ μ α} (hx : Upholds I F x) (hh : ∀ f, F f → Upholds I E (handle f)) :
    Upholds I E (tryCatch x handle) := by
  intro w hw
  have h := hx hw
  unfold wp at h
  change wp (EStateM.tryCatch x handle) _ _ w
  unfold wp EStateM.tryCatch
  cases hr : x w <;> rw [hr] at h
  · exact h
  · exact hh _ h.2 h.1

theorem modify {f : World σ μ → World σ μ} (hf : ∀ w, I w → I (f w)) :
    Upholds I E (modify f : Play σ μ PUnit) :=
  fun w hw => hf w hw

theorem get {f : World σ μ → Play σ μ α} (hf : ∀ w, Upholds I E (f w)) : Upholds I E (get >>= f) :=
  fun w hw => hf w hw

theorem runner {f : Runner → Play σ μ α} (hf : ∀ r, Upholds I E (f r)) : Upholds I E (Play.runner >>= f) :=
  fun w hw => hf w.runner hw

theorem ofExcept {r : Except Fault α} (hr : ∀ f, r = .error f → E f) :
    Upholds I E (Play.ofExcept r : Play σ μ α) := by
  unfold Play.ofExcept
  split
  · exact .pure _
  · exact .throw (hr _ rfl)

end Upholds

/-- The engine's own record of a look-up, a call or a log line. -/
def Entry.isRoutine : Entry μ → Bool
  | .published .. | .handled .. | .marked _ => false
  | _ => true

/-- What `I` has to bear of the engine's own writing, in the journal and to variables. -/
structure Recording (I : World σ μ → Prop) (E : Fault → Prop) : Prop where
  own : ∀ f : Fault, f.isInternal = false → E f
  noting : ∀ {w}, I w → ∀ e : Entry μ, e.isRoutine → I (w.noting e)
  withVars : ∀ {w}, I w → ∀ vs, I (w.withVars vs)

/-- And of the evaluation of expressions. -/
structure Bearing (host : Host σ μ) (I : World σ μ → Prop) (E : Fault → Prop) : Prop extends Recording I E where
  read : ∀ h, Upholds I E (host.read h)
  write : ∀ h v, Upholds I E (host.write h v)
  call : ∀ h args, Upholds I E (host.call h args)
  callRaw : ∀ h args, Upholds I E (host.callRaw h args)

/-- And of calls that write to the context, and bring in nodes with `N`. -/
structure Housekeeping (host : Host σ μ) (N : Node → Prop) (I : World σ μ → Prop) (E : Fault → Prop) : Prop
    extends Bearing host I E where
  withFunctions : ∀ {w}, I w → ∀ functions, I { w with functions }
  configured : ∀ {w}, I w → ∀ c, I (w.setRunnerConfig c)
  putNode : ∀ {w}, I w → ∀ n : Node, N n → I { w with nodes := w.nodes.put n.name n }
  noNodes : ∀ {w}, I w → I { w with nodes := {} }

/-- What `I` has to bear of publishing. Faults of handlers go no further, so they may be any. -/
structure Delivering (host : Host σ μ) (I : World σ μ → Prop) (E : Fault → Prop) : Prop where
  exhausted : E .exhausted
  noting : ∀ {w}, I w → ∀ e : Entry μ, e.isRoutine → I (w.noting e)
  handled : ∀ {w}, I w → ∀ h kind, I (w.noting (.handled w.seat h kind))
  withBus : ∀ {w}, I w → ∀ b, I (w.withBus b)
  handle : ∀ seat h n, Upholds I (fun _ => True) (host.handle seat h n)

/-- What `I` has to bear of all of these. -/
structure Upkeep (host : Host σ μ) (N : Node → Prop) (I : World σ μ → Prop) (E : Fault → Prop) : Prop where
  own : ∀ f : Fault, f.isInternal = false → E f
  noting : ∀ {w}, I w → ∀ e : Entry μ, e.isQuiet → I (w.noting e)
  custom : ∀ {w}, I w → ∀ kind data, I (w.noting (.published w.seat (.custom kind data)))
  withVars : ∀ {w}, I w → ∀ vs, I (w.withVars vs)
  withFunctions : ∀ {w}, I w → ∀ functions, I { w with functions }
  withBus : ∀ {w}, I w → ∀ b, I (w.withBus b)
  configured : ∀ {w}, I w → ∀ c, I (w.setRunnerConfig c)
  putNode : ∀ {w}, I w → ∀ n : Node, N n → I { w with nodes := w.nodes.put n.name n }
  noNodes : ∀ {w}, I w → I { w with nodes := {} }
  read : ∀ h, Upholds I E (host.read h)
  write : ∀ h v, Upholds I E (host.write h v)
  call : ∀ h args, Upholds I E (host.call h args)
  callRaw : ∀ h args, Upholds I E (host.callRaw h args)
  handle : ∀ seat h n, Upholds I (fun _ => True) (host.handle seat h n)

section
variable {host : Host σ μ} {N : Node → Prop} {I : World σ μ → Prop} {E : Fault → Prop}

theorem Entry.isQuiet_of_isRoutine {e : Entry μ} (h : e.isRoutine) : e.isQuiet := by
  cases e <;> first | rfl | cases h

theorem Upkeep.housekeeping (hk : Upkeep host N I E) : Housekeeping host N I E :=
  { hk with noting := fun hw e he => hk.noting hw e (Entry.isQuiet_of_isRoutine he) }

theorem Upkeep.delivering (hk : Upkeep host N I E) : Delivering host I E :=
  { hk with
    exhausted := hk.own _ rfl
    noting := fun hw e he => hk.noting hw e (Entry.isQuiet_of_isRoutine he)
    handled := fun hw _ _ => hk.noting hw _ rfl }

instance : CoeOut (Bearing host I E) (Recording I E) := ⟨Bearing.toRecording⟩

instance : CoeOut (Housekeeping host N I E) (Bearing host I E) := ⟨Housekeeping.toBearing⟩

instance : CoeOut (Upkeep host N I E) (Housekeeping host N I E) := ⟨Upkeep.housekeeping⟩

instance : CoeOut (Upkeep host N I E) (Delivering host I E) := ⟨Upkeep.delivering⟩

end

namespace Play
variable {host : Host σ μ} {I : World σ μ → Prop} {E : Fault → Prop}

section
variable (hk : Recording I E)
include hk

theorem upholds_note {e : Entry μ} (he : e.isRoutine) : Upholds I E (note e) :=
  .modify fun _ hw => hk.noting hw e he

theorem upholds_log (level : LogLevel) (channel : LogChannel) (message : String) :
    Upholds I E (log level channel message : Play σ μ Unit) :=
  upholds_note hk rfl

theorem upholds_failOn {α : Type} (channel : LogChannel) {f : Fault} (hf : f.isInternal = false) :
    Upholds I E (failOn channel f : Play σ μ α) :=
  (upholds_log hk ..).bind fun _ => .throw (hk.own f hf)

theorem upholds_typeFail {α : Type} (t : TypeFault) : Upholds I E (typeFail t : Play σ μ α) :=
  upholds_failOn hk _ rfl

theorem upholds_convert (v : Native) : Upholds I E (convert v : Play σ μ Value) := by
  unfold convert
  split
  · exact .pure _
  · exact .throw (hk.own _ (Fault.isInternal_ofConversion _))

theorem upholds_modifyVariables (f : Variables → Variables) : Upholds I E (modifyVariables f : Play σ μ Unit) :=
  .modify fun w hw => hk.withVars hw (f w.vars)

end

section
variable (hk : Bearing host I E)
include hk

/-! ### Variables and functions -/

theorem upholds_getVariable (name : String) : Upholds I E (getVariable host name) := by
  refine (upholds_note hk rfl).bind fun _ => .get fun w => ?_
  dsimp only
  split
  · exact (hk.read _).bind fun v => upholds_convert hk v
  · split
    · exact .pure _
    · exact upholds_failOn hk _ rfl

theorem upholds_setVariable (name : String) (value : Value) : Upholds I E (setVariable host name value) := by
  refine .get fun w => ?_
  split
  · exact upholds_modifyVariables hk _
  · split
    · exact upholds_failOn hk _ rfl
    · exact (upholds_note hk rfl).bind fun _ => hk.write ..

theorem upholds_refuseCall {α : Type} (name reason : String) : Upholds I E (refuseCall name reason : Play σ μ α) :=
  (upholds_log hk ..).bind fun _ => .throw (hk.own _ rfl)

theorem upholds_callBuiltin (b : Builtin) (args : List Value) :
    Upholds I E (callBuiltin b args : Play σ μ Value) := by
  cases b with
  | log => exact (upholds_log hk ..).bind fun _ => .pure _
  | concat => exact .pure _

theorem upholds_callChecked (name : String) (s : Signature) (code : Handle) (args : List Native) :
    Upholds I E (callChecked host name s code args) := by
  unfold callChecked
  split
  · exact upholds_refuseCall hk ..
  · split
    · exact upholds_failOn hk _ rfl
    · exact (upholds_note hk rfl).bind fun _ => (hk.call ..).bind fun v => upholds_convert hk v

theorem upholds_callUnchecked (name : String) (code : Handle) (args : List Native) :
    Upholds I E (callUnchecked host name code args) := by
  refine (upholds_note hk rfl).bind fun _ => .bind (.tryCatch (hk.call ..) fun f hf => ?_)
    fun v => upholds_convert hk v
  exact .ite (upholds_refuseCall hk ..) (.throw hf)

theorem upholds_callFunction (name : String) (args : List Value) : Upholds I E (callFunction host name args) := by
  refine (upholds_note hk rfl).bind fun _ => .get fun w => ?_
  split
  · exact upholds_failOn hk _ rfl
  · split
    · exact upholds_callChecked hk ..
    · exact upholds_callUnchecked hk ..
    · exact (upholds_note hk rfl).bind fun _ => (hk.callRaw ..).bind fun v => upholds_convert hk v
    · exact upholds_callBuiltin hk ..

/-! ### Expressions -/

theorem upholds_applyUnary (op : UnaryOp) (operand : Value) (line : Int) :
    Upholds I E (applyUnary op operand line : Play σ μ Value) := by
  unfold applyUnary
  split <;> first | exact .pure _ | exact upholds_typeFail hk _

theorem upholds_applyNumeric (op : BinaryOp) (x y : Binary64) (line : Int) :
    Upholds I E (applyNumeric op x y line : Play σ μ Value) := by
  unfold applyNumeric
  split
  case h_8 | h_9 => exact .ite (upholds_failOn hk _ rfl) (.pure _)
  all_goals first | exact .pure _ | exact upholds_typeFail hk _

theorem upholds_applyBinary (op : BinaryOp) (left right : Value) (line : Int) :
    Upholds I E (applyBinary op left right line : Play σ μ Value) := by
  have hlogical (op : BinaryOp) : Upholds I E (applyLogical op left right line : Play σ μ Value) := by
    unfold applyLogical
    split
    · exact .pure _
    · exact upholds_typeFail hk _
  unfold applyBinary
  split
  · exact hlogical _
  · exact hlogical _
  · exact .pure _
  · exact .pure _
  · refine .ite (.pure _) ?_
    split
    · exact upholds_applyNumeric hk ..
    · exact upholds_typeFail hk _

omit hk in
mutual

theorem upholds_evaluate (hk : Bearing host I E) : (e : Expr) → Upholds I E (evaluate host e)
  | .number .. | .string .. | .boolean .. => .pure _
  | .reference name _ => upholds_getVariable hk name
  | .unary _ e _ => (upholds_evaluate hk e).bind fun _ => upholds_applyUnary hk ..
  | .binary _ l r _ =>
    (upholds_evaluate hk l).bind fun _ => (upholds_evaluate hk r).bind fun _ => upholds_applyBinary hk ..
  | .call _ args _ _ => (upholds_evaluateAll hk args).bind fun _ => upholds_callFunction hk ..
  | .interpolated segments _ => (upholds_strictText hk segments).bind fun _ => .pure _
  | .braces .. | .foreign _ => upholds_typeFail hk _

theorem upholds_evaluateAll (hk : Bearing host I E) : (es : List Expr) → Upholds I E (evaluateAll host es)
  | [] => .pure _
  | e :: rest => (upholds_evaluate hk e).bind fun _ => (upholds_evaluateAll hk rest).bind fun _ => .pure _

theorem upholds_strictText (hk : Bearing host I E) :
    (segments : List Segment) → Upholds I E (strictText host segments)
  | [] => .pure _
  | .literal .. :: rest => (upholds_strictText hk rest).bind fun _ => .pure _
  | .hole e _ :: rest => (upholds_evaluate hk e).bind fun _ => (upholds_strictText hk rest).bind fun _ => .pure _
  | .stray _ :: _ => .throw (hk.own _ (by simp [Fault.isInternal]))

end

theorem upholds_test (what : String) (e : Expr) : Upholds I E (test host what e) := by
  refine (upholds_evaluate hk e).bind fun v => ?_
  split
  · exact .pure _
  · exact (Upholds.ofExcept fun f hf => hk.own f (Expr.isInternal_source? hf)).bind fun _ => upholds_typeFail hk _

omit hk in
/-- Rendering upholds what the evaluation of the holes does, and a warning in the log. -/
theorem upholds_render_of {text : List Segment} (hown : ∀ f : Fault, f.isInternal = false → E f)
    (hlog : ∀ message, Upholds I E (log .warning .interpreter message : Play σ μ Unit))
    (h : ∀ e ∈ textExprs text, Upholds I E (evaluate host e)) : Upholds I E (render host text) := by
  have hsource (e : Expr) : Upholds I E (ofExcept (e.source?.map inBraces) : Play σ μ String) := by
    refine .ofExcept fun f hf => hown f ?_
    cases hs : e.source? <;> rw [hs] at hf <;> cases hf
    exact Expr.isInternal_source? hs
  have hstray (kind : String) : Upholds I E (throw (.lacks kind "expression") : Play σ μ String) :=
    .throw (hown _ (by simp [Fault.isInternal]))
  have hlenient : Upholds I E (lenientText host text) := by
    induction text with
    | nil => exact .pure _
    | cons segment rest ih =>
      cases segment with
      | literal => exact (ih h).bind fun _ => .pure _
      | stray => exact hstray _
      | hole e =>
        obtain ⟨he, hrest⟩ := List.forall_mem_cons.1 h
        have htext : Upholds I E (textOrSource e (evaluate host e)) := by
          refine .bind (.tryCatch (he.bind fun _ => .pure _) fun f hf => .ite ?_ ((Upholds.throw hf).bind fun _ => .pure _))
            fun r => ?_
          · exact (hsource e).bind fun _ => (hlog _).bind fun _ => .pure _
          · cases r <;> exact .pure _
        exact htext.bind fun _ => (ih hrest).bind fun _ => .pure _
  have hstrict : Upholds I E (strictText host text) := by
    clear hlenient
    induction text with
    | nil => exact .pure _
    | cons segment rest ih =>
      cases segment with
      | literal => exact (ih h).bind fun _ => .pure _
      | stray => exact hstray _
      | hole e =>
        obtain ⟨he, hrest⟩ := List.forall_mem_cons.1 h
        exact he.bind fun _ => (ih hrest).bind fun _ => .pure _
  exact .get fun _ => .ite hstrict hlenient

theorem upholds_render (text : List Segment) : Upholds I E (render host text) :=
  upholds_render_of hk.own (fun _ => upholds_log hk ..) fun e _ => upholds_evaluate hk e

/-! ### Commands -/

theorem upholds_updated (op : VarOp) (name : String) (x y : Binary64) (line : Int) :
    Upholds I E (updated op name x y line : Play σ μ Binary64) := by
  unfold updated
  extract_lets divisor
  have hdivisor (result : Binary64) : Upholds I E (divisor result) := .ite (upholds_failOn hk _ rfl) (.pure _)
  cases op <;> first | exact .pure _ | exact hdivisor _

theorem upholds_assign (name : String) (op : VarOp) (e : Expr) (line : Int) :
    Upholds I E (assign host name op e line) := by
  refine (upholds_evaluate hk e).bind fun value => .ite (upholds_setVariable hk ..) ?_
  refine (upholds_getVariable hk name).bind fun current => ?_
  split
  · exact (upholds_updated hk ..).bind fun _ => upholds_setVariable hk ..
  · exact upholds_typeFail hk _

theorem upholds_waitDuration (e : Expr) (line : Int) : Upholds I E (waitDuration host e line) := by
  refine (upholds_evaluate hk e).bind fun v => ?_
  split
  · exact .pure _
  · exact upholds_typeFail hk _

theorem upholds_execute (c : Command) (line : Int) : Upholds I E (execute host c line) := by
  cases c with
  | assign => exact (upholds_assign hk ..).bind fun _ => .pure _
  | call => exact (upholds_evaluateAll hk _).bind fun _ => (upholds_callFunction hk ..).bind fun _ => .pure _
  | wait => exact (upholds_waitDuration hk ..).bind fun _ => .pure _
  | jump => exact .pure _

/-! ### Guards and menus -/

theorem upholds_selectElif (i : Nat) (elifs : List Branch) : Upholds I E (selectElif host i elifs) := by
  induction elifs generalizing i with
  | nil => exact .pure _
  | cons branch rest ih => exact (upholds_test hk ..).bind fun _ => .ite (.pure _) (ih _)

theorem upholds_selectBranch (c : Condition) : Upholds I E (selectBranch host c) := by
  refine (upholds_test hk ..).bind fun _ => .ite (.pure _) ((upholds_selectElif hk ..).bind fun i => ?_)
  split <;> exact .pure _

theorem upholds_frameItemsIn (memo : Memo) (f : Frame) : Upholds I E (frameItemsIn host memo f) := by
  unfold frameItemsIn
  split
  · exact .pure _
  · exact .pure _
  · split
    · exact .pure _
    · exact (upholds_selectBranch hk _).bind fun _ => .pure _

theorem upholds_collectChoices (items : List Content) : Upholds I E (collectChoices host items) := by
  induction items with
  | nil => exact .pure _
  | cons item rest ih =>
    cases item with
    | choice c =>
      unfold collectChoices
      split
      · exact (Upholds.pure true).bind fun _ => ih.bind fun _ => .pure _
      · exact (upholds_test hk ..).bind fun _ => ih.bind fun _ => .pure _
    | line | condition | command => exact .pure _

/-- Looking ahead writes nothing, and upholds what its guards do; the fault of its limit names where the runner is. -/
theorem upholds_scanFrom (hlimit : ∀ limit, Upholds I E (failLimit limit : Play σ μ Lookahead)) (fuel steps : Nat)
    (stack : List Frame) (memo : Memo) : Upholds I E (scanFrom host fuel steps stack memo) := by
  induction fuel generalizing steps stack memo with
  | zero => exact .throw (hk.own _ rfl)
  | succ fuel ih =>
    cases stack with
    | nil => exact .pure _
    | cons f below =>
      refine .get fun w => .ite (hlimit _) ((upholds_frameItemsIn hk memo f).bind fun found => ?_)
      obtain ⟨items, memo⟩ := found
      dsimp only
      split
      · exact .ite (.pure _) (ih ..)
      · exact ih ..
      · exact (upholds_collectChoices hk _).bind fun _ => .ite (ih ..) (.pure _)
      · exact .pure _
      · exact .pure _

/-- Host code in a guard may end the session here. -/
theorem upholds_nextContent (hlimit : ∀ limit, Upholds I E (failLimit limit : Play σ μ Lookahead)) :
    Upholds I E (nextContent host) := by
  have hscan : Upholds I E (scan host) := .get fun w => .runner fun r => upholds_scanFrom hk hlimit _ _ _ _
  exact .runner fun r => .ite (.pure _) (hscan.bind fun _ => .pure _)

theorem upholds_renderAll (choices : List Choice) : Upholds I E (renderAll host choices) := by
  induction choices with
  | nil => exact .pure _
  | cons c rest ih => exact (upholds_render hk _).bind fun _ => ih.bind fun _ => .pure _

end

/-! ### Publishing -/

theorem upholds_modifyBus (hb : ∀ {w}, I w → ∀ b, I (w.withBus b)) (f : Bus → Bus) :
    Upholds I E (modifyBus f : Play σ μ Unit) :=
  .modify fun w hw => hb hw (f w.runner.bus)

theorem upholds_modifyDispatch (hb : ∀ {w}, I w → ∀ b, I (w.withBus b)) (f : Dispatch → Dispatch) :
    Upholds I E (modifyDispatch f : Play σ μ Unit) :=
  upholds_modifyBus hb _

section
variable (hk : Delivering host I E)
include hk

theorem upholds_callHandler (handler : Handle) (n : Notice) : Upholds I E (callHandler host handler n) := by
  intro w hw
  have hcall : Upholds I E (tryCatch (host.handle w.seat handler n) fun _ =>
      log .error .events s!"Error in event handler for DialogueEvent.{n.kind.label}") :=
    .tryCatch (hk.handle ..) fun _ _ => .modify fun _ hw => hk.noting hw _ rfl
  exact hcall (hk.handled (hk.withBus hw _) handler n.kind)

theorem upholds_visit (n : Notice) (fuel i : Nat) (gone : List Nat) : Upholds I E (visit host n fuel i gone) := by
  induction fuel generalizing i gone with
  | zero => exact .throw hk.exhausted
  | succ fuel ih =>
    refine .get fun w => ?_
    dsimp only
    split
    · exact .pure _
    · split
      · exact (upholds_callHandler hk ..).bind fun _ => .get fun _ => .ite (.pure _) (ih ..)
      · exact (upholds_modifyDispatch hk.withBus _).bind fun _ => ih ..

theorem upholds_dispatch (n : Notice) : Upholds I E (dispatch host n) := by
  refine .get fun w => (upholds_modifyBus hk.withBus _).bind fun _ v hv => ?_
  have hvisit := upholds_visit hk n (host.patience + (w.runner.bus.entries n.kind).length + 1) 0 [] hv
  unfold wp at hvisit ⊢
  dsimp only
  cases hr : visit host n (host.patience + (w.runner.bus.entries n.kind).length + 1) 0 [] v <;> rw [hr] at hvisit
  · exact hk.withBus hvisit _
  · exact ⟨hk.withBus hvisit.1 _, hvisit.2⟩

theorem upholds_drain (fuel : Nat) : Upholds I E (drain host fuel) := by
  induction fuel with
  | zero => exact .throw hk.exhausted
  | succ fuel ih =>
    refine .get fun w => ?_
    split
    · exact .pure _
    · exact (upholds_modifyBus hk.withBus _).bind fun _ => (upholds_dispatch hk _).bind fun _ => ih

theorem upholds_deliver (n : Notice) : Upholds I E (deliver host n) := by
  refine .get fun w => .ite ?_ ?_
  · exact (upholds_modifyBus hk.withBus _).bind fun _ => .pure _
  · refine (upholds_dispatch hk _).bind fun _ => (upholds_drain hk _).bind fun _ => ?_
    exact (upholds_modifyBus hk.withBus _).bind fun _ => .pure _

/-- A notice that may be noted may be published. -/
theorem upholds_publish {n : Notice} (hn : ∀ {w}, I w → I (w.noting (.published w.seat n))) :
    Upholds I E (publish host n) :=
  fun _ hw => upholds_deliver hk n (hn hw)

end
end Play
end Parley
