import Parley.Proofs.Relaxing

/-! # Evaluation, publishing and texts in both runs

Where host code does the same in both worlds, so do the evaluation of expressions, whose interpolated strings are strict
in both, and the publishing of notices. Rendering a text, which may be strict in the first world only, then does so as
well until the first run stops at an unresolved name (`tally_softened`). -/

namespace Parley
variable {σ : Type}

/-- Host code that does the same in both worlds. -/
structure Host.Evenly (host : Host σ Fault) : Prop where
  read : ∀ h, Parley.Evenly (fun _ => False) (host.read h)
  write : ∀ h v, Parley.Evenly (fun _ => False) (host.write h v)
  call : ∀ h args, Parley.Evenly (fun _ => False) (host.call h args)
  callRaw : ∀ h args, Parley.Evenly (fun _ => False) (host.callRaw h args)
  handle : ∀ seat h n, Parley.Evenly (fun _ => False) (host.handle seat h n)

namespace World.Relaxed
variable {w w' : World σ Fault} (h : w.Relaxed w')
include h

theorem config : w.config.Relaxed w'.config := by
  obtain ⟨hshared, -, -⟩ := h
  exact hshared

theorem vars : w'.vars = w.vars := by obtain ⟨⟩ := h; rfl

theorem functions : w'.functions = w.functions := by obtain ⟨⟩ := h; rfl

theorem seat : w'.seat = w.seat := by obtain ⟨⟩ := h; rfl

theorem nodes : w'.nodes = w.nodes := by obtain ⟨⟩ := h; rfl

theorem sessions : w'.sessions = w.sessions := by obtain ⟨⟩ := h; rfl

theorem bus : w'.runner.bus = w.runner.bus := by
  obtain ⟨-, hfront, -⟩ := h
  exact hfront.bus

end World.Relaxed

namespace Evenly
variable {host : Host σ Fault} {E : Fault → Prop}

theorem convert (v : Native) : Evenly E (Play.convert v : Play σ Fault Value) := by
  unfold Play.convert
  split
  · exact .pure _
  · exact .throw _

theorem modifyVariables (f : Variables → Variables) : Evenly E (Play.modifyVariables f : Play σ Fault Unit) :=
  .modify (fun _ h => h) fun _ _ ⟨hshared, hfront, hothers⟩ => ⟨hshared, hfront, hothers⟩

theorem settled {α : Type} {x : Play σ Fault α} (hx : Play.Settled x) : Evenly E x := by
  rcases hx with ⟨a, rfl⟩ | ⟨channel, f, rfl⟩
  · exact .pure a
  · exact .failOn channel f

theorem refuseCall {α : Type} (name reason : String) : Evenly E (Play.refuseCall name reason : Play σ Fault α) :=
  (log ..).bind fun _ => .throw _

section
variable (hh : host.Evenly)
include hh

/-! ### Variables and functions -/

theorem getVariable (name : String) : Evenly E (Play.getVariable host name) := by
  refine (note _).bind fun _ => .get (fun w w' h => by rw [h.vars]) fun w => ?_
  dsimp only
  split
  · exact (hh.read _).mono.bind fun v => convert v
  · split
    · exact .pure _
    · exact failOn ..

theorem setVariable (name : String) (value : Value) : Evenly E (Play.setVariable host name value) := by
  refine .get (fun w w' h => by rw [h.vars]) fun w => ?_
  split
  · exact modifyVariables _
  · split
    · exact failOn ..
    · exact (note _).bind fun _ => (hh.write ..).mono

omit hh in
theorem callBuiltin (b : Builtin) (args : List Value) : Evenly E (Play.callBuiltin b args : Play σ Fault Value) := by
  cases b with
  | log => exact (log ..).bind fun _ => .pure _
  | concat => exact .pure _

theorem callChecked (name : String) (s : Signature) (code : Handle) (args : List Native) :
    Evenly E (Play.callChecked host name s code args) := by
  unfold Play.callChecked
  split
  · exact refuseCall ..
  · split
    · exact failOn ..
    · exact (note _).bind fun _ => (hh.call ..).mono.bind fun v => convert v

theorem callUnchecked (name : String) (code : Handle) (args : List Native) :
    Evenly E (Play.callUnchecked host name code args) := by
  refine (note _).bind fun _ => .bind (.tryCatch (hh.call ..) fun f => ?_) fun v => convert v
  exact .ite (refuseCall ..) (.throw f)

theorem callFunction (name : String) (args : List Value) : Evenly E (Play.callFunction host name args) := by
  refine (note _).bind fun _ => .get (fun w w' h => by rw [h.functions]) fun w => ?_
  split
  · exact failOn ..
  · split
    · exact callChecked hh ..
    · exact callUnchecked hh ..
    · exact (note _).bind fun _ => (hh.callRaw ..).mono.bind fun v => convert v
    · exact callBuiltin ..

end

/-! ### Expressions -/

mutual

theorem evaluate (hh : host.Evenly) : (e : Expr) → Evenly E (Play.evaluate host e)
  | .number .. | .string .. | .boolean .. => .pure _
  | .reference name _ => getVariable hh name
  | .unary _ e _ => (evaluate hh e).bind fun _ => settled (Play.settled_applyUnary ..)
  | .binary _ l r _ =>
    (evaluate hh l).bind fun _ => (evaluate hh r).bind fun _ => settled (Play.settled_applyBinary ..)
  | .call _ args _ _ => (evaluateAll hh args).bind fun _ => callFunction hh ..
  | .interpolated segments _ => (strictText hh segments).bind fun _ => .pure _
  | .braces .. | .foreign _ => failOn ..

theorem evaluateAll (hh : host.Evenly) : (es : List Expr) → Evenly E (Play.evaluateAll host es)
  | [] => .pure _
  | e :: rest => (evaluate hh e).bind fun _ => (evaluateAll hh rest).bind fun _ => .pure _

theorem strictText (hh : host.Evenly) : (segments : List Segment) → Evenly E (Play.strictText host segments)
  | [] => .pure _
  | .literal .. :: rest => (strictText hh rest).bind fun _ => .pure _
  | .hole e _ :: rest => (evaluate hh e).bind fun _ => (strictText hh rest).bind fun _ => .pure _
  | .stray _ :: _ => .throw _

end

section
variable (hh : host.Evenly)
include hh

theorem test (what : String) (e : Expr) : Evenly E (Play.test host what e) := by
  refine (evaluate hh e).bind fun v => ?_
  split
  · exact .pure _
  · exact (ofExcept _).bind fun _ => failOn ..

/-! ### Commands -/

omit hh in
theorem updated (op : VarOp) (name : String) (x y : Binary64) (line : Int) :
    Evenly E (Play.updated op name x y line : Play σ Fault Binary64) := by
  unfold Play.updated
  extract_lets divisor
  have hdivisor (result : Binary64) : Evenly E (divisor result) := .ite (failOn ..) (.pure _)
  cases op <;> first | exact .pure _ | exact hdivisor _

theorem assign (name : String) (op : VarOp) (e : Expr) (line : Int) :
    Evenly E (Play.assign host name op e line) := by
  refine (evaluate hh e).bind fun value => .ite (setVariable hh ..) ?_
  refine (getVariable hh name).bind fun current => ?_
  split
  · exact (updated ..).bind fun _ => setVariable hh ..
  · exact failOn ..

theorem waitDuration (e : Expr) (line : Int) : Evenly E (Play.waitDuration host e line) := by
  refine (evaluate hh e).bind fun v => ?_
  split
  · exact .pure _
  · exact failOn ..

theorem execute (c : Command) (line : Int) : Evenly E (Play.execute host c line) := by
  cases c with
  | assign => exact (assign hh ..).bind fun _ => .pure _
  | call => exact (evaluateAll hh _).bind fun _ => (callFunction hh ..).bind fun _ => .pure _
  | wait => exact (waitDuration hh ..).bind fun _ => .pure _
  | jump => exact .pure _

/-! ### Guards -/

theorem selectElif (i : Nat) (elifs : List Branch) : Evenly E (Play.selectElif host i elifs) := by
  induction elifs generalizing i with
  | nil => exact .pure _
  | cons branch rest ih => exact (test hh ..).bind fun _ => .ite (.pure _) (ih _)

theorem selectBranch (c : Condition) : Evenly E (Play.selectBranch host c) := by
  refine (test hh ..).bind fun _ => .ite (.pure _) ((selectElif hh ..).bind fun i => ?_)
  split <;> exact .pure _

theorem collectChoices (items : List Content) : Evenly E (Play.collectChoices host items) := by
  induction items with
  | nil => exact .pure _
  | cons item rest ih =>
    cases item with
    | choice c =>
      unfold Play.collectChoices
      split
      · exact (Evenly.pure true).bind fun _ => ih.bind fun _ => .pure _
      · exact (test hh ..).bind fun _ => ih.bind fun _ => .pure _
    | line | condition | command => exact .pure _

/-! ### Publishing -/

theorem callHandler (handler : Handle) (n : Notice) : Evenly E (Play.callHandler host handler n) := by
  refine .get (fun w w' h => by rw [h.seat]) fun w => (modifyBus _).bind fun _ => ?_
  exact (note _).bind fun _ => .tryCatch (hh.handle ..) fun _ => log ..

theorem visit (n : Notice) (fuel i : Nat) (gone : List Nat) : Evenly E (Play.visit host n fuel i gone) := by
  induction fuel generalizing i gone with
  | zero => exact .throw _
  | succ fuel ih =>
    refine .get (fun w w' h => by simp only [h.bus, h.isLive]) fun w => ?_
    split
    · exact .pure _
    · have hconsumed : Evenly E (Play.isConsumed : Play σ Fault Bool) :=
        .get (fun w w' h => by rw [h.bus]) fun _ => .pure _
      split
      · exact (callHandler hh ..).bind fun _ => hconsumed.bind fun _ => .ite (.pure _) (ih ..)
      · exact (modifyDispatch _).bind fun _ => ih ..

theorem dispatch (n : Notice) : Evenly E (Play.dispatch host n) := by
  refine .get (fun w w' h => by rw [h.bus]) fun w => (modifyBus _).bind fun _ => ?_
  have hvisit := visit (E := E) hh n (host.patience + (w.runner.bus.entries n.kind).length + 1) 0 []
  refine ⟨fun v hv => ?_, fun v v' h => ?_⟩
  · have hupheld := hvisit.alarmed hv
    unfold wp at hupheld ⊢
    dsimp only
    cases hr : Play.visit host n _ 0 [] v <;> rw [hr] at hupheld <;> exact hupheld
  · have hclose (gone : List Nat) {u u' : World σ Fault} (h : u.Relaxed u') :
        (u.withBus (u.runner.bus.finish n.kind gone)).Relaxed (u'.withBus (u'.runner.bus.finish n.kind gone)) :=
      h.moved (f := fun r => { r with bus := r.bus.finish n.kind gone }) fun _ _ => rfl
    have htally := hvisit.tally h
    dsimp only
    generalize Play.visit host n _ 0 [] v = r at htally
    generalize Play.visit host n _ 0 [] v' = r' at htally
    cases htally with
    | alarmed h => exact .alarmed h
    | stopped h => exact .stopped h
    | same h =>
      cases h with
      | ok gone h => exact .same (.ok_of_eq (by rw [h.bus]) (hclose gone h))
      | error f h => exact .same (.error f (hclose [] h))

theorem drain (fuel : Nat) : Evenly E (Play.drain host fuel) := by
  induction fuel with
  | zero => exact .throw _
  | succ fuel ih =>
    refine .get (fun w w' h => by rw [h.bus]) fun w => ?_
    split
    · exact .pure _
    · exact (modifyBus _).bind fun _ => (dispatch hh _).bind fun _ => ih

theorem publish (n : Notice) : Evenly E (Play.publish host n) := by
  refine .get (fun w w' h => by rw [h.seat, h.bus]) fun w => (note _).bind fun _ => .ite ?_ ?_
  · exact (modifyBus _).bind fun _ => .pure _
  · exact (dispatch hh _).bind fun _ => (drain hh _).bind fun _ => (modifyBus _).bind fun _ => .pure _

/-! ### Texts -/

omit hh in
theorem textOrSource (e : Expr) {x : Play σ Fault Value} (hx : Evenly (fun _ => False) x) :
    Evenly E (Play.textOrSource e x) := by
  refine .bind (.tryCatch (hx.bind fun _ => .pure _) fun f => .ite ?_ ((Evenly.throw f).bind fun _ => .pure _))
    fun r => ?_
  · exact (ofExcept _).bind fun _ => (log ..).bind fun _ => .pure _
  · cases r <;> exact .pure _

theorem lenientText (segments : List Segment) : Evenly E (Play.lenientText host segments) := by
  induction segments with
  | nil => exact .pure _
  | cons segment rest ih =>
    cases segment with
    | literal => exact ih.bind fun _ => .pure _
    | hole e => exact (textOrSource e (evaluate hh e)).bind fun _ => ih.bind fun _ => .pure _
    | stray => exact .throw _

end
end Evenly

namespace Play
variable {μ : Type} {e : Expr} {x : Play σ μ Value} {w v : World σ μ}

/-- What lenient text logs of an expression that it leaves as it is written. -/
def leftAsWritten (source : String) (f : Fault) : LogRecord :=
  ⟨.warning, .interpreter, s!"Rendering {source} as written: {f.message}"⟩

/-- What becomes of an expression in lenient text. -/
theorem textOrSource_eq (e : Expr) (x : Play σ μ Value) (w : World σ μ) :
    textOrSource e x w = match x w with
      | .ok v u => .ok v.text u
      | .error f u =>
        if f.isUnresolvedName then
          match e.source? with
          | .ok source => .ok (inBraces source) (u.noting (.logged (leftAsWritten (inBraces source) f)))
          | .error g => .error g u
        else .error f u := by
  unfold textOrSource
  simp only [bind, tryCatch, tryCatchThe, MonadExceptOf.tryCatch, EStateM.bind, EStateM.tryCatch]
  cases x w with
  | ok v u => rfl
  | error f u =>
    dsimp only
    cases hf : f.isUnresolvedName with
    | false => rfl
    | true => cases e.source? <;> rfl

end Play

/-- A fault over a name that nothing defines. -/
abbrev Fault.Unresolved (f : Fault) : Prop := f.isUnresolvedName = true

section
variable {host : Host σ Fault} (hh : host.Evenly)
include hh

/-- Text that is strict in the first world only. -/
theorem tally_softened (segments : List Segment) {w w' : World σ Fault} (h : w.Relaxed w') :
    Tally Fault.Unresolved (Play.strictText host segments w) (Play.lenientText host segments w') := by
  induction segments generalizing w w' with
  | nil => exact .same (.ok _ h)
  | cons segment rest ih =>
    have hrest (text : String) {v v' : World σ Fault} (h : v.Relaxed v') :
        Tally Fault.Unresolved ((do return text ++ (← Play.strictText host rest) : Play σ Fault String) v)
          ((do return text ++ (← Play.lenientText host rest) : Play σ Fault String) v') :=
      (ih h).bind (fun _ => .pure _) fun _ _ _ h => .same (.ok _ h)
    cases segment with
    | literal text => exact hrest text h
    | stray => exact .same (.error _ h)
    | hole e =>
      have htally := (Evenly.evaluate (E := fun _ => False) hh e).tally h
      generalize hr : Play.evaluate host e w = r at htally
      generalize hr' : Play.evaluate host e w' = r' at htally
      have htext := Play.textOrSource_eq e (Play.evaluate host e) w'
      rw [hr'] at htext
      unfold Play.strictText Play.lenientText
      cases htally with
      | alarmed h =>
        rw [run_bind_ok hr]
        exact .of_alarmed (((Evenly.strictText (E := Fault.Unresolved) hh rest).bind fun _ => .pure _).alarmed) h _
      | stopped h =>
        rw [run_bind_error hr]
        exact .stopped (h.imp id False.elim)
      | same h =>
        cases h with
        | ok v h =>
          rw [run_bind_ok hr, run_bind_ok htext]
          exact hrest v.text h
        | error f h =>
          rw [run_bind_error hr]
          by_cases hf : f.isUnresolvedName
          · exact .stopped (.inr hf)
          · dsimp only at htext
            rw [if_neg hf] at htext
            rw [run_bind_error htext]
            exact .same (.error f h)

theorem Evenly.render (text : List Segment) : Evenly Fault.Unresolved (Play.render host text) := by
  have hbuild (strict : Bool) : Evenly Fault.Unresolved (Play.buildText host strict text) :=
    .ite (strictText hh text) (lenientText hh text)
  refine ⟨.get fun w => (hbuild w.runnerConfig.strictText).alarmed, fun w w' h => ?_⟩
  show Tally _ (Play.buildText host w.runnerConfig.strictText text w)
    (Play.buildText host w'.runnerConfig.strictText text w')
  cases hstrict : w'.runnerConfig.strictText with
  | true =>
    rw [h.runnerConfig.strict hstrict]
    exact (hbuild true).tally h
  | false =>
    cases w.runnerConfig.strictText with
    | true => exact tally_softened hh text h
    | false => exact (hbuild false).tally h

theorem Evenly.renderAll (choices : List Choice) : Evenly Fault.Unresolved (Play.renderAll host choices) := by
  induction choices with
  | nil => exact .pure _
  | cons c rest ih => exact (render hh _).bind fun _ => ih.bind fun _ => .pure _

end
end Parley
