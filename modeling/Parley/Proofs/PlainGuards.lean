import Parley.Proofs.Guards

/-! # Guards that keep to the script

An expression that calls nothing and reads no variable of the host depends on the variables of the script only
and changes nothing, so a node whose guards are such is steady as long as the variables are the same. -/

namespace Parley

mutual

/-- Calls nothing, and reads no variable of the host. -/
def Expr.isPlain (vars : Variables) : Expr → Bool
  | .number .. | .string .. | .boolean .. | .braces .. | .foreign _ => true
  | .reference name _ => (vars.host.get? name).isNone
  | .unary _ e _ => e.isPlain vars
  | .binary _ l r _ => l.isPlain vars && r.isPlain vars
  | .call .. => false
  | .interpolated segments _ => segmentsPlain vars segments

def segmentsPlain (vars : Variables) : List Segment → Bool
  | [] => true
  | .literal .. :: rest => segmentsPlain vars rest
  | .hole e _ :: rest => e.isPlain vars && segmentsPlain vars rest
  | .stray _ :: _ => true

end

variable {σ μ : Type}

/-- In the worlds of `S` scripts find these variables, whatever is noted that is quiet. -/
structure Knowing (vars : Variables) (S : World σ μ → Prop) : Prop where
  vars : ∀ {w}, S w → w.vars = vars
  noting : ∀ {w} {e : Entry μ}, S w → e.isQuiet → S (w.noting e)

theorem knowing_vars (vars : Variables) :
    Knowing vars fun w : World σ μ => w.vars = vars := ⟨id, fun h _ => h⟩

theorem World.Alike.noting (w : World σ μ) {e : Entry μ} (he : e.isQuiet) : w.Alike (w.noting e) := by
  refine ⟨rfl, rfl, rfl, ?_⟩
  cases e <;> first | rfl | cases he

namespace Answering
variable {α : Type} {S : World σ μ → Prop} {vars : Variables}

theorem throw (f : Fault) :
    Answering S (throw f : Play σ μ α) := ⟨.error f, fun w hw => ⟨w, rfl, hw, .refl w⟩⟩

theorem note (hS : Knowing vars S) {e : Entry μ} (he : e.isQuiet) : Answering S (Play.note e) :=
  ⟨.ok (), fun w hw => ⟨w.noting e, rfl, hS.noting hw he, .noting w he⟩⟩

theorem failOn (hS : Knowing vars S) (channel : LogChannel) (f : Fault) :
    Answering S (Play.failOn channel f : Play σ μ α) :=
  .bind (.note hS (e := .logged ⟨.error, channel, f.message⟩) rfl) fun _ => .throw f

theorem settled (hS : Knowing vars S) {x : Play σ μ α} (hx : Play.Settled x) : Answering S x := by
  rcases hx with ⟨a, rfl⟩ | ⟨channel, f, rfl⟩
  · exact .pure a
  · exact .failOn hS channel f

end Answering

namespace Play
variable {host : Host σ μ} {vars : Variables} {S : World σ μ → Prop}

theorem answering_getVariable (hS : Knowing vars S) {name : String} (h : vars.host.get? name = none) :
    Answering S (getVariable host name) := by
  refine .bind (.note hS rfl) fun _ => ?_
  -- what is found depends on the variables alone, which are those given
  cases hfound : vars.script.get? name with
  | some v =>
    refine Answering.of_eq (.pure v) fun w hw => ?_
    rewrite [run_bind_ok (show (get : Play σ μ _) w = .ok w w from rfl), hS.vars hw]
    simp only [h, hfound]
  | none =>
    refine Answering.of_eq (.failOn hS .vars (.undefinedVariable name)) fun w hw => ?_
    rewrite [run_bind_ok (show (get : Play σ μ _) w = .ok w w from rfl), hS.vars hw]
    simp only [h, hfound]

mutual

theorem answering_evaluate (hS : Knowing vars S) :
    (e : Expr) → e.isPlain vars → Answering S (evaluate host e)
  | .number .., _ | .string .., _ | .boolean .., _ => .pure _
  | .reference name _, h => answering_getVariable hS (by simpa [Expr.isPlain] using h)
  | .unary _ e _, h => .bind (answering_evaluate hS e h) fun _ => .settled hS (settled_applyUnary ..)
  | .binary _ l r _, h => by
    obtain ⟨hl, hr⟩ := Bool.and_eq_true_iff.1 h
    exact .bind (answering_evaluate hS l hl) fun _ => .bind (answering_evaluate hS r hr) fun _ => .settled hS (settled_applyBinary ..)
  | .interpolated segments _, h => .bind (answering_strictText hS segments h) fun _ => .pure _
  | .braces .., _ | .foreign _, _ => .failOn hS ..

theorem answering_strictText (hS : Knowing vars S) :
    (segments : List Segment) → segmentsPlain vars segments →
    Answering S (strictText host segments)
  | [], _ => .pure _
  | .literal .. :: rest, h => .bind (answering_strictText hS rest h) fun _ => .pure _
  | .hole e _ :: rest, h => by
    obtain ⟨he, hrest⟩ := Bool.and_eq_true_iff.1 h
    exact .bind (answering_evaluate hS e he) fun _ => .bind (answering_strictText hS rest hrest) fun _ => .pure _
  | .stray _ :: _, _ => .throw _

end

theorem answering_test (hS : Knowing vars S) {e : Expr} (h : e.isPlain vars) (what : String) :
    Answering S (test host what e) := by
  refine .bind (answering_evaluate hS e h) fun v => ?_
  split
  · exact .pure _
  · refine .bind ?_ fun source => .failOn hS ..
    unfold ofExcept
    split
    · exact .pure _
    · exact .throw _

end Play

/-- Guards that keep to the script are steady. -/
theorem Steady.of_plain (host : Host σ μ) {vars : Variables} {n : Node}
    (h : contentGuarded (fun _ e => e.isPlain vars) n.content) :
    Steady host (fun w => w.vars = vars) n where
  moved hw _ _ := hw
  logged _ hw := hw
  guards := contentGuarded_mono (fun what _ he => Play.answering_test (knowing_vars vars) he what) h

end Parley
