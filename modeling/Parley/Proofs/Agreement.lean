import Parley.Engine.Step

/-! # Runs side by side

`Keeps R x`: from worlds that the relation `R` holds of, `x` comes to the same result and to worlds that
`R` holds of again. With `R` the relation that two worlds are equal and satisfy a predicate this is an
invariant; with `R` equality up to some part of the world it says that `x` does not look there.
`Congruent host R` collects what the evaluation of expressions and the publishing of notices need of `R`;
all of both then keeps `R`, whatever it is. -/

namespace Parley

/-- Two outcomes are the same but for the world that they leave behind; of these `R` holds. -/
inductive Same {σ μ α : Type} (R : World σ μ → World σ μ → Prop) :
    EStateM.Result Fault (World σ μ) α → EStateM.Result Fault (World σ μ) α → Prop
  | ok {w w' : World σ μ} (a : α) (h : R w w') : Same R (.ok a w) (.ok a w')
  | error {w w' : World σ μ} (f : Fault) (h : R w w') : Same R (.error f w) (.error f w')

def Keeps {σ μ α : Type} (R : World σ μ → World σ μ → Prop) (x : Play σ μ α) : Prop :=
  ∀ ⦃w w'⦄, R w w' → Same R (x w) (x w')

namespace Same
variable {σ μ α β : Type} {R S : World σ μ → World σ μ → Prop} {x y : Play σ μ α}

theorem mono {r r' : EStateM.Result Fault (World σ μ) α} (h : Same R r r') (hRS : ∀ w w', R w w' → S w w') :
    Same S r r' := by
  cases h with
  | ok a h => exact .ok a (hRS _ _ h)
  | error f h => exact .error f (hRS _ _ h)

theorem ok_of_eq {w w' : World σ μ} {a b : α} (hab : a = b) (h : R w w') : Same R (.ok a w) (.ok b w') :=
  hab ▸ .ok a h

theorem ok_right {r : EStateM.Result Fault (World σ μ) α} {a : α} {w' : World σ μ}
    (h : Same R r (.ok a w')) :
    ∃ w, r = .ok a w ∧ R w w' := by
  cases h with
  | ok _ h => exact ⟨_, rfl, h⟩

theorem ok_left {r : EStateM.Result Fault (World σ μ) α} {a : α} {w : World σ μ} (h : Same R (.ok a w) r) :
    ∃ w', r = .ok a w' ∧ R w w' := by
  cases h with
  | ok _ h => exact ⟨_, rfl, h⟩

theorem error_right {r : EStateM.Result Fault (World σ μ) α} {f : Fault} {w' : World σ μ}
    (h : Same R r (.error f w')) :
    ∃ w, r = .error f w ∧ R w w' := by
  cases h with
  | error _ h => exact ⟨_, rfl, h⟩

/-- Two programs that have come to the same go on. -/
theorem bind {w w' : World σ μ} {f g : α → Play σ μ β} (h : Same R (x w) (y w'))
    (hfg : ∀ a v v', R v v' → Same S (f a v) (g a v')) (hRS : ∀ v v', R v v' → S v v') :
    Same S ((x >>= f) w) ((y >>= g) w') := by
  change Same S (EStateM.bind x f w) (EStateM.bind y g w')
  unfold EStateM.bind
  generalize x w = r at h
  generalize y w' = r' at h
  cases h with
  | ok a h => exact hfg a _ _ h
  | error f h => exact .error f (hRS _ _ h)

theorem ensuring {w w' : World σ μ} {f : World σ μ → World σ μ} (h : Same R (x w) (y w'))
    (hf : ∀ v v', R v v' → S (f v) (f v')) : Same S (x.ensuring f w) (y.ensuring f w') := by
  unfold Play.ensuring
  generalize x w = r at h
  generalize y w' = r' at h
  cases h with
  | ok a h => exact .ok a (hf _ _ h)
  | error e h => exact .error e (hf _ _ h)

end Same

namespace Keeps
variable {σ μ α β : Type} {R : World σ μ → World σ μ → Prop} {x : Play σ μ α}

theorem pure (a : α) : Keeps R (pure a : Play σ μ α) := fun _ _ h => .ok a h

theorem throw (f : Fault) : Keeps R (throw f : Play σ μ α) := fun _ _ h => .error f h

theorem bind {f : α → Play σ μ β} (hx : Keeps R x) (hf : ∀ a, Keeps R (f a)) : Keeps R (x >>= f) :=
  fun _ _ h => (hx h).bind (fun a _ _ h => hf a h) fun _ _ h => h

/-- The first part of a run that goes well, beside the same part of another run. -/
theorem split {f : α → Play σ μ β} {w w' z : World σ μ} {b : β} (hx : Keeps R x) (h : R w w')
    (hrun : (x >>= f) w' = .ok b z) : ∃ a v v', x w = .ok a v ∧ R v v' ∧ f a v' = .ok b z := by
  change EStateM.bind x f w' = _ at hrun
  unfold EStateM.bind at hrun
  split at hrun
  · next a v' hv' =>
    obtain ⟨v, hv, hR⟩ := (hv' ▸ hx h : Same R (x w) (.ok a v')).ok_right
    exact ⟨a, v, v', hv, hR, hrun⟩
  · cases hrun

theorem ite {c : Prop} [Decidable c] {y : Play σ μ α} (hx : Keeps R x) (hy : Keeps R y) :
    Keeps R (if c then x else y) := by
  split <;> assumption

theorem tryCatch {handle : Fault → Play σ μ α} (hx : Keeps R x) (hh : ∀ f, Keeps R (handle f)) :
    Keeps R (tryCatch x handle) := by
  intro w w' h
  change Same R (EStateM.tryCatch x handle w) (EStateM.tryCatch x handle w')
  unfold EStateM.tryCatch
  have hr := hx h
  generalize x w = r at hr
  generalize x w' = r' at hr
  cases hr with
  | ok a h => exact .ok a h
  | error f h => exact hh f h

theorem modify {f : World σ μ → World σ μ} (hf : ∀ w w', R w w' → R (f w) (f w')) :
    Keeps R (modify f : Play σ μ PUnit) :=
  fun _ _ h => .ok _ (hf _ _ h)

/-- Goes by a part of the world on which `R` insists. -/
theorem get {f : World σ μ → Play σ μ α} (hf : ∀ w w', R w w' → f w = f w') (hk : ∀ w, Keeps R (f w)) :
    Keeps R (get >>= f) := by
  intro w w' h
  change Same R (f w w) (f w' w')
  rw [← hf w w' h]
  exact hk w h

end Keeps

/-- Neither a notice nor a mark. -/
def Entry.isQuiet {μ : Type} : Entry μ → Bool
  | .published .. | .marked _ => false
  | _ => true

namespace Entry
variable {μ : Type}

theorem ne_marked {e : Entry μ} (he : e.isQuiet) (m : μ) : e ≠ .marked m := by
  rintro rfl
  cases he

theorem published_ne_marked (seat : Nat) (n : Notice) (m : μ) : published seat n ≠ marked m := by
  intro h
  cases h

end Entry

namespace World
variable {σ μ : Type}

def noting (w : World σ μ) (e : Entry μ) : World σ μ := { w with journal := e :: w.journal }

def withVars (w : World σ μ) (vs : Variables) : World σ μ := { w with vars := vs }

def withBus (w : World σ μ) (b : Bus) : World σ μ := { w with runner := { w.runner with bus := b } }

end World

/-- `R` holds only of worlds that look alike to the evaluation of expressions and the publishing of notices,
and lets both be written to. -/
structure Blind {σ μ : Type} (host : Host σ μ) (R : World σ μ → World σ μ → Prop) : Prop where
  vars : ∀ {w w'}, R w w' → w.vars = w'.vars
  functions : ∀ {w w'}, R w w' → w.functions = w'.functions
  seat : ∀ {w w'}, R w w' → w.seat = w'.seat
  bus : ∀ {w w'}, R w w' → w.runner.bus = w'.runner.bus
  strictText : ∀ {w w'}, R w w' → w.runnerConfig.strictText = w'.runnerConfig.strictText
  isLive : ∀ {w w'}, R w w' → ∀ s, w.isLive host s = w'.isLive host s
  noting : ∀ {w w'}, R w w' → ∀ e : Entry μ, e.isQuiet → R (w.noting e) (w'.noting e)
  withVars : ∀ {w w'}, R w w' → ∀ vs, R (w.withVars vs) (w'.withVars vs)
  withBus : ∀ {w w'}, R w w' → ∀ b, R (w.withBus b) (w'.withBus b)

/-- Neither evaluation and publishing nor host code can tell worlds apart that `R` holds of, and `R` holds again
after what they do. -/
structure Congruent {σ μ : Type} (host : Host σ μ) (R : World σ μ → World σ μ → Prop) :
    Prop extends Blind host R where
  read : ∀ h, Keeps R (host.read h)
  write : ∀ h v, Keeps R (host.write h v)
  call : ∀ h args, Keeps R (host.call h args)
  callRaw : ∀ h args, Keeps R (host.callRaw h args)
  handle : ∀ seat h n, Keeps R (host.handle seat h n)

namespace Play
variable {σ μ : Type} {host : Host σ μ} {R : World σ μ → World σ μ → Prop}

/-- What publishing a notice does once it has been noted. -/
def deliver (host : Host σ μ) (n : Notice) : Play σ μ Bool := do
  if (← get).runner.bus.current.isSome then
    modifyBus fun b => { b with queue := b.queue ++ [n] }
    return false
  else
    let consumed ← dispatch host n
    drain host (host.patience + 1)
    modifyBus Bus.endRound
    return consumed

theorem publish_eq (host : Host σ μ) (n : Notice) (w : World σ μ) :
    publish host n w = deliver host n (w.noting (.published w.seat n)) := rfl

theorem keeps_convert (v : Native) : Keeps R (convert v : Play σ μ Value) := by
  unfold convert
  split
  · exact .pure _
  · exact .throw _

theorem keeps_ofExcept {α : Type} (x : Except Fault α) : Keeps R (ofExcept x : Play σ μ α) := by
  unfold ofExcept
  split
  · exact .pure _
  · exact .throw _

section
variable (hR : Congruent host R)
include hR

theorem keeps_note (e : Entry μ) (he : e.isQuiet) : Keeps R (note e) :=
  .modify fun _ _ h => hR.noting h e he

theorem keeps_log (level : LogLevel) (channel : LogChannel) (message : String) :
    Keeps R (log level channel message : Play σ μ Unit) :=
  keeps_note hR _ rfl

theorem keeps_failOn {α : Type} (channel : LogChannel) (f : Fault) :
    Keeps R (failOn channel f : Play σ μ α) :=
  (keeps_log hR ..).bind fun _ => .throw f

/-! ### Variables and functions -/

theorem keeps_getVariable (name : String) : Keeps R (getVariable host name) := by
  refine (keeps_note hR _ rfl).bind fun _ => .get (fun w w' h => by simp only [hR.vars h]) fun w => ?_
  dsimp only
  split
  · exact (hR.read _).bind fun v => keeps_convert v
  · split
    · exact .pure _
    · exact keeps_failOn hR ..

theorem keeps_modifyVariables (f : Variables → Variables) : Keeps R (modifyVariables f : Play σ μ Unit) :=
  .modify fun w w' h => by
    show R (w.withVars (f w.vars)) (w'.withVars (f w'.vars))
    rw [← hR.vars h]; exact hR.withVars h _

theorem keeps_setVariable (name : String) (value : Value) : Keeps R (setVariable host name value) := by
  refine .get (fun w w' h => by simp only [hR.vars h]) fun w => ?_
  split
  · exact keeps_modifyVariables hR _
  · split
    · exact keeps_failOn hR ..
    · exact (keeps_note hR _ rfl).bind fun _ => hR.write ..

theorem keeps_refuseCall {α : Type} (name reason : String) :
    Keeps R (refuseCall name reason : Play σ μ α) :=
  (keeps_log hR ..).bind fun _ => .throw _

theorem keeps_callBuiltin (b : Builtin) (args : List Value) :
    Keeps R (callBuiltin b args : Play σ μ Value) := by
  cases b with
  | log => exact (keeps_log hR ..).bind fun _ => .pure _
  | concat => exact .pure _

theorem keeps_callChecked (name : String) (s : Signature) (code : Handle) (args : List Native) :
    Keeps R (callChecked host name s code args) := by
  unfold callChecked
  split
  · exact keeps_refuseCall hR ..
  · split
    · exact keeps_failOn hR ..
    · exact (keeps_note hR _ rfl).bind fun _ => (hR.call ..).bind fun v => keeps_convert v

theorem keeps_callUnchecked (name : String) (code : Handle) (args : List Native) :
    Keeps R (callUnchecked host name code args) := by
  refine (keeps_note hR _ rfl).bind fun _ => .bind (.tryCatch (hR.call ..) fun f => ?_) fun v => keeps_convert v
  exact .ite (keeps_refuseCall hR ..) (.throw f)

theorem keeps_callFunction (name : String) (args : List Value) :
    Keeps R (callFunction host name args) := by
  refine (keeps_note hR _ rfl).bind fun _ => .get (fun w w' h => by simp only [hR.functions h]) fun w => ?_
  split
  · exact keeps_failOn hR ..
  · split
    · exact keeps_callChecked hR ..
    · exact keeps_callUnchecked hR ..
    · exact (keeps_note hR _ rfl).bind fun _ => (hR.callRaw ..).bind fun v => keeps_convert v
    · exact keeps_callBuiltin hR ..

/-! ### Expressions -/

theorem keeps_typeFail {α : Type} (t : TypeFault) :
    Keeps R (typeFail t : Play σ μ α) := keeps_failOn hR ..

end

/-- An answer or a logged fault, without a look at the world. -/
def Settled {α : Type} (x : Play σ μ α) : Prop := (∃ a, x = pure a) ∨ ∃ channel f, x = failOn channel f

theorem Settled.keeps (hR : Congruent host R) {α : Type} {x : Play σ μ α} (hx : Settled x) :
    Keeps R x := by
  rcases hx with ⟨a, rfl⟩ | ⟨channel, f, rfl⟩
  · exact .pure a
  · exact keeps_failOn hR channel f

theorem settled_pure {α : Type} (a : α) : Settled (pure a : Play σ μ α) := .inl ⟨a, rfl⟩

theorem settled_failOn {α : Type} (channel : LogChannel) (f : Fault) :
    Settled (failOn channel f : Play σ μ α) :=
  .inr ⟨channel, f, rfl⟩

theorem settled_applyUnary (op : UnaryOp) (operand : Value) (line : Int) :
    Settled (applyUnary op operand line : Play σ μ Value) := by
  unfold applyUnary
  split <;> first | exact settled_pure _ | exact settled_failOn ..

theorem settled_applyNumeric (op : BinaryOp) (x y : Binary64) (line : Int) :
    Settled (applyNumeric op x y line : Play σ μ Value) := by
  unfold applyNumeric
  split
  case h_8 | h_9 =>
    split
    · exact settled_failOn ..
    · exact settled_pure _
  all_goals first | exact settled_pure _ | exact settled_failOn ..

theorem settled_applyLogical (op : BinaryOp) (left right : Value) (line : Int) :
    Settled (applyLogical op left right line : Play σ μ Value) := by
  unfold applyLogical
  split
  · exact settled_pure _
  · exact settled_failOn ..

theorem settled_applyBinary (op : BinaryOp) (left right : Value) (line : Int) :
    Settled (applyBinary op left right line : Play σ μ Value) := by
  unfold applyBinary
  split
  · exact settled_applyLogical ..
  · exact settled_applyLogical ..
  · exact settled_pure _
  · exact settled_pure _
  · split
    · exact settled_pure _
    · split
      · exact settled_applyNumeric ..
      · exact settled_failOn ..

mutual

theorem keeps_evaluate (hR : Congruent host R) : (e : Expr) → Keeps R (evaluate host e)
  | .number .. | .string .. | .boolean .. => .pure _
  | .reference name _ => keeps_getVariable hR name
  | .unary _ e _ => (keeps_evaluate hR e).bind fun _ => (settled_applyUnary ..).keeps hR
  | .binary _ l r _ =>
    (keeps_evaluate hR l).bind fun _ => (keeps_evaluate hR r).bind fun _ => (settled_applyBinary ..).keeps hR
  | .call _ args _ _ => (keeps_evaluateAll hR args).bind fun _ => keeps_callFunction hR ..
  | .interpolated segments _ => (keeps_strictText hR segments).bind fun _ => .pure _
  | .braces .. | .foreign _ => keeps_typeFail hR _

theorem keeps_evaluateAll (hR : Congruent host R) : (es : List Expr) → Keeps R (evaluateAll host es)
  | [] => .pure _
  | e :: rest => (keeps_evaluate hR e).bind fun _ => (keeps_evaluateAll hR rest).bind fun _ => .pure _

theorem keeps_strictText (hR : Congruent host R) :
    (segments : List Segment) → Keeps R (strictText host segments)
  | [] => .pure _
  | .literal .. :: rest => (keeps_strictText hR rest).bind fun _ => .pure _
  | .hole e _ :: rest => (keeps_evaluate hR e).bind fun _ => (keeps_strictText hR rest).bind fun _ => .pure _
  | .stray _ :: _ => .throw _

end

section
variable (hR : Congruent host R)
include hR

theorem keeps_textOrSource (e : Expr) {x : Play σ μ Value} (hx : Keeps R x) :
    Keeps R (textOrSource e x) := by
  refine .bind (.tryCatch (hx.bind fun _ => .pure _) fun f => .ite ?_ ((Keeps.throw f).bind fun _ => .pure _))
    fun r => ?_
  · exact (keeps_ofExcept _).bind fun _ => (keeps_log hR ..).bind fun _ => .pure _
  · cases r <;> exact .pure _

theorem keeps_lenientText (segments : List Segment) : Keeps R (lenientText host segments) := by
  induction segments with
  | nil => exact .pure _
  | cons segment rest ih =>
    cases segment with
    | literal => exact ih.bind fun _ => .pure _
    | hole e => exact (keeps_textOrSource hR e (keeps_evaluate hR e)).bind fun _ => ih.bind fun _ => .pure _
    | stray => exact .throw _

theorem keeps_buildText (strict : Bool) (segments : List Segment) :
    Keeps R (buildText host strict segments) :=
  .ite (keeps_strictText hR _) (keeps_lenientText hR _)

theorem keeps_test (what : String) (e : Expr) : Keeps R (test host what e) := by
  refine (keeps_evaluate hR e).bind fun v => ?_
  split
  · exact .pure _
  · exact (keeps_ofExcept _).bind fun _ => keeps_typeFail hR _

theorem keeps_render (text : List Segment) : Keeps R (render host text) := by
  show Keeps R (get >>= fun w => buildText host w.runnerConfig.strictText text)
  exact .get (fun w w' h => by rw [hR.strictText h]) fun w => keeps_buildText hR ..

/-! ### Commands -/

theorem keeps_updated (op : VarOp) (name : String) (x y : Binary64) (line : Int) :
    Keeps R (updated op name x y line : Play σ μ Binary64) := by
  unfold updated
  extract_lets divisor
  have hdivisor (result : Binary64) : Keeps R (divisor result) := .ite (keeps_failOn hR ..) (.pure _)
  cases op <;> first | exact .pure _ | exact hdivisor _

theorem keeps_assign (name : String) (op : VarOp) (e : Expr) (line : Int) :
    Keeps R (assign host name op e line) := by
  refine (keeps_evaluate hR e).bind fun value => .ite (keeps_setVariable hR ..) ?_
  refine (keeps_getVariable hR name).bind fun current => ?_
  split
  · exact (keeps_updated hR ..).bind fun _ => keeps_setVariable hR ..
  · exact keeps_typeFail hR _

theorem keeps_waitDuration (e : Expr) (line : Int) : Keeps R (waitDuration host e line) := by
  refine (keeps_evaluate hR e).bind fun v => ?_
  split
  · exact .pure _
  · exact keeps_typeFail hR _

theorem keeps_execute (c : Command) (line : Int) : Keeps R (execute host c line) := by
  cases c with
  | assign => exact (keeps_assign hR ..).bind fun _ => .pure _
  | call => exact (keeps_evaluateAll hR _).bind fun _ => (keeps_callFunction hR ..).bind fun _ => .pure _
  | wait => exact (keeps_waitDuration hR ..).bind fun _ => .pure _
  | jump => exact .pure _

/-! ### Guards -/

theorem keeps_selectElif (i : Nat) (elifs : List Branch) : Keeps R (selectElif host i elifs) := by
  induction elifs generalizing i with
  | nil => exact .pure _
  | cons branch rest ih => exact (keeps_test hR ..).bind fun _ => .ite (.pure _) (ih _)

theorem keeps_selectBranch (c : Condition) : Keeps R (selectBranch host c) := by
  refine (keeps_test hR ..).bind fun _ => .ite (.pure _) ((keeps_selectElif hR ..).bind fun i => ?_)
  split <;> exact .pure _

theorem keeps_collectChoices (items : List Content) : Keeps R (collectChoices host items) := by
  induction items with
  | nil => exact .pure _
  | cons item rest ih =>
    cases item with
    | choice c =>
      unfold collectChoices
      split
      · exact (Keeps.pure true).bind fun _ => ih.bind fun _ => .pure _
      · exact (keeps_test hR ..).bind fun _ => ih.bind fun _ => .pure _
    | line | condition | command => exact .pure _

theorem keeps_renderAll (choices : List Choice) : Keeps R (renderAll host choices) := by
  induction choices with
  | nil => exact .pure _
  | cons c rest ih => exact (keeps_render hR _).bind fun _ => ih.bind fun _ => .pure _

/-! ### Publishing -/

theorem keeps_modifyBus (f : Bus → Bus) : Keeps R (modifyBus f : Play σ μ Unit) :=
  .modify fun w w' h => by
    show R (w.withBus (f w.runner.bus)) (w'.withBus (f w'.runner.bus))
    rw [← hR.bus h]; exact hR.withBus h _

theorem keeps_modifyDispatch (f : Dispatch → Dispatch) : Keeps R (modifyDispatch f : Play σ μ Unit) :=
  keeps_modifyBus hR _

theorem keeps_isConsumed : Keeps R (isConsumed : Play σ μ Bool) :=
  .get (fun w w' h => by rw [hR.bus h]) fun _ => .pure _

theorem keeps_callHandler (handler : Handle) (n : Notice) : Keeps R (callHandler host handler n) := by
  refine .get (fun w w' h => by rw [hR.seat h]) fun w => (keeps_modifyDispatch hR _).bind fun _ => ?_
  exact (keeps_note hR _ rfl).bind fun _ => .tryCatch (hR.handle ..) fun _ => keeps_log hR ..

theorem keeps_visit (n : Notice) (fuel i : Nat) (gone : List Nat) :
    Keeps R (visit host n fuel i gone) := by
  induction fuel generalizing i gone with
  | zero => exact .throw _
  | succ fuel ih =>
    refine .get (fun w w' h => by simp only [hR.bus h, hR.isLive h]) fun w => ?_
    split
    · exact .pure _
    · split
      · exact (keeps_callHandler hR ..).bind fun _ => (keeps_isConsumed hR).bind fun _ => .ite (.pure _) (ih ..)
      · exact (keeps_modifyDispatch hR _).bind fun _ => ih ..

theorem keeps_dispatch (n : Notice) : Keeps R (dispatch host n) := by
  refine .get (fun w w' h => by rw [hR.bus h]) fun w => (keeps_modifyBus hR _).bind fun _ v v' h => ?_
  have hclose (gone : List Nat) {u u' : World σ μ} (h : R u u') :
      R (u.withBus (u.runner.bus.finish n.kind gone)) (u'.withBus (u'.runner.bus.finish n.kind gone)) := by
    rw [← hR.bus h]; exact hR.withBus h _
  have hvisit := keeps_visit hR n (host.patience + (w.runner.bus.entries n.kind).length + 1) 0 [] h
  dsimp only
  generalize visit host n _ 0 [] v = r at hvisit
  generalize visit host n _ 0 [] v' = r' at hvisit
  cases hvisit with
  | ok gone h => exact .ok_of_eq (by rw [hR.bus h]) (hclose gone h)
  | error f h => exact .error f (hclose [] h)

theorem keeps_drain (fuel : Nat) : Keeps R (drain host fuel) := by
  induction fuel with
  | zero => exact .throw _
  | succ fuel ih =>
    refine .get (fun w w' h => by rw [hR.bus h]) fun w => ?_
    split
    · exact .pure _
    · exact (keeps_modifyBus hR _).bind fun _ => (keeps_dispatch hR _).bind fun _ => ih

theorem keeps_deliver (n : Notice) : Keeps R (deliver host n) := by
  refine .get (fun w w' h => by rw [hR.bus h]) fun w => .ite ?_ ?_
  · exact (keeps_modifyBus hR _).bind fun _ => .pure _
  · exact (keeps_dispatch hR _).bind fun _ => (keeps_drain hR _).bind fun _ => (keeps_modifyBus hR _).bind fun _ =>
      .pure _

theorem keeps_publish (n : Notice)
    (hn : ∀ {w w'}, R w w' → R (w.noting (.published w.seat n)) (w'.noting (.published w'.seat n))) :
    Keeps R (publish host n) := by
  intro w w' h
  rw [publish_eq, publish_eq]
  exact keeps_deliver hR n (hn h)

end
end Play
end Parley
