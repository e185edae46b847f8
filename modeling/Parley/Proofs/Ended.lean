import Parley.Proofs.PlainGuards
import Parley.Proofs.TidyCalls
import Parley.Proofs.WellPlaced

/-! # What an ended session leaves

Nothing, as long as no query ends the session of the step that asks it: the runner has no menu, no wait and no node,
whatever host code ends the session and at whatever other moment, and no call meets an internal fault
(`ReachedBy.leaves_nothing`). Host code puts on record what it sees and what its own calls have come to
(`Code.auditing`), so this is said of the calls that host code makes within a step as well. A query that does end the
session is taken for answered: its wait, its menu or its branch is written to the runner that has just been reset
(`leftovers`). -/

namespace Parley
variable {σ μ : Type} {p : Expr → Prop} {P : μ → Prop}

theorem Tidying.onSeat {α : Type} {E : Fault → Prop} {x : Play σ μ α} (hx : Tidying p P x E) (seat : Nat) :
    Tidying p P (Play.onSeat seat x) E := by
  rintro w₀ w ⟨hw, h⟩
  refine wp_onSeat.2 (wp_mono (hx.wp (hw.order.turnTo seat) (h.turnTo seat)) (fun _ _ h => ?_) fun _ _ h => ?_)
  · exact ⟨hw.trans h.1.turnTo_back, h.2.turnTo _⟩
  · exact ⟨⟨hw.trans h.1.1.turnTo_back, h.1.2.turnTo _⟩, h.2⟩

namespace Code
variable {α : Type} {E : Fault → Prop}

/-- In tidy worlds the code makes marks with `P` and registers scripts whose queries have `p`; its own faults have `E`,
as long as its calls have failed with ordinary ones. -/
def Fair (p : Expr → Prop) (P : μ → Prop) (E : Fault → Prop) : Code σ μ α → Prop
  | pure _ => True
  | fail f => E f
  | look next => ∀ w : World σ μ, w.Tidy p P → (next w).Fair p P E
  | keep _ next => next.Fair p P E
  | mark m next => P m ∧ next.Fair p P E
  | ask _ op next => op.Brings (Node.Asks p) ∧ ∀ a, (∀ f, a = .error f → f.IsOrdinary) → (next a).Fair p P E

/-- What the calls of the code uphold, the code does. -/
theorem upholds_run {I : World σ μ → Prop} {perform : Operation → Play σ μ Answer} (htidy : ∀ {w}, I w → w.Tidy p P)
    (hkeep : ∀ {w}, I w → ∀ s, I { w with host := s }) (hmark : ∀ {w}, I w → ∀ m, P m → I (w.noting (.marked m)))
    (hp : ∀ seat op, op.Brings (Node.Asks p) → Upholds I Fault.IsOrdinary (Play.onSeat seat (perform op)))
    {c : Code σ μ α} (hc : c.Fair p P E) : Upholds I E (c.run perform) := by
  induction c with
  | pure a => exact .pure a
  | fail f => exact .throw hc
  | look next ih => exact fun w hw => ih w (hc w (htidy hw)) hw
  | keep s next ih => exact .bind (.modify fun w hw => hkeep hw s) fun _ => ih hc
  | mark m next ih => exact .bind (.modify fun w hw => hmark hw m hc.1) fun _ => ih hc.2
  | ask seat op next ih =>
    intro w hw
    refine wp_run_ask.2 (wp_mono (hp seat op hc.1 hw) (fun a _ h => ?_) fun f _ h => ?_)
    · exact ih _ (hc.2 _ fun f hf => by cases hf) h
    · exact ih _ (hc.2 _ fun f' hf => by cases hf; exact h.2) h.1

theorem tidying_run {perform : Operation → Play σ μ Answer}
    (hp : ∀ op, op.Brings (Node.Asks p) → Tidying p P (perform op)) {c : Code σ μ α} (hc : c.Fair p P E) :
    Tidying p P (c.run perform) E := by
  exact fun w₀ => upholds_run (fun hw => hw.2) (fun hw s => ⟨hw.1.kept s, hw.2.kept s⟩)
    (fun hw m hm => ⟨hw.1.marking m, hw.2.marking hm⟩) (fun seat op hop => (hp op hop).onSeat seat w₀) hc

end Code

/-- All the code of a host is fair; a handler may fail as it likes. -/
structure Behaviour.Fair (p : Expr → Prop) (P : μ → Prop) (b : Behaviour σ μ) : Prop where
  read : ∀ h, (b.read h).Fair p P Fault.IsOrdinary
  write : ∀ h v, (b.write h v).Fair p P Fault.IsOrdinary
  call : ∀ h args, (b.call h args).Fair p P Fault.IsOrdinary
  callRaw : ∀ h args, (b.callRaw h args).Fair p P Fault.IsOrdinary
  handle : ∀ seat h n, (b.handle seat h n).Fair p P fun _ => True

theorem Behaviour.Fair.tidies {b : Behaviour σ μ} (hb : b.Fair p P) {patience : Nat}
    (hcalm : ∀ depth e, p e → Calm (Host.ofBehaviour b patience depth) e) (depth : Nat) :
    (Host.ofBehaviour b patience depth).Tidies p P := by
  have htends (depth : Nat) := b.vouches_true.tends patience depth
  induction depth with
  | zero =>
    have hfail {α : Type} {E : Fault → Prop} (hE : E .exhausted) : Tidying p P (throw .exhausted : Play σ μ α) E :=
      fun _ => .throw hE
    exact ⟨htends 0, fun _ => hfail rfl, fun _ _ => hfail rfl, fun _ _ => hfail rfl, fun _ _ => hfail rfl,
      fun _ _ _ => hfail trivial⟩
  | succ depth ih =>
    have hp (op : Operation) (hop : op.Brings (Node.Asks p)) := Play.tidying_perform ih (hcalm depth) hop
    exact ⟨htends _, fun h => Code.tidying_run hp (hb.read h), fun h v => Code.tidying_run hp (hb.write h v),
      fun h args => Code.tidying_run hp (hb.call h args), fun h args => Code.tidying_run hp (hb.callRaw h args),
      fun seat h n => Code.tidying_run hp (hb.handle seat h n)⟩

/-- Calls with `p` lead here, as in `Reachable`. -/
inductive ReachedBy (p : Operation → Prop) (host : Host σ μ) : World σ μ → Prop
  | opened {w : World σ μ} (h : w.Fresh) : ReachedBy p host w
  | called {w : World σ μ} (op : Operation) (hop : p op) (h : ReachedBy p host w) :
      ReachedBy p host (after (Play.perform host op) w)
  | turned {w : World σ μ} (seat : Nat) (h : ReachedBy p host w) : ReachedBy p host (w.turnTo seat)
  | kept {w : World σ μ} (s : σ) (h : ReachedBy p host w) : ReachedBy p host { w with host := s }

theorem ReachedBy.reachable {p : Operation → Prop} {host : Host σ μ} {w : World σ μ} (h : ReachedBy p host w) :
    Reachable host w := by
  induction h with
  | opened h => exact .opened h
  | called op _ _ ih => exact ih.called op
  | turned seat _ ih => exact ih.turned seat
  | kept s _ ih => exact ih.kept s

theorem ReachedBy.tidy {host : Host σ μ} (hh : host.Tidies p P) (hcalm : ∀ e, p e → Calm host e) {w : World σ μ}
    (h : ReachedBy (Operation.Brings (Node.Asks p)) host w) : w.Tidy p P := by
  induction h with
  | opened h => exact h.tidy
  | @called w op hop h ih =>
    have hw := (Play.tidying_perform hh hcalm hop).wp (h.reachable.inOrder hh.tends) ih
    exact wp_after (wp_mono hw (fun _ _ h => h.2) fun _ _ h => h.1.2)
  | turned seat _ ih => exact ih.turnTo seat
  | kept s _ ih => exact ih.kept s

/-- Calls, one after the other. -/
def World.calls (w : World σ μ) (host : Host σ μ) (ops : List Operation) : World σ μ :=
  ops.foldl (fun w op => after (Play.perform host op) w) w

theorem ReachedBy.calls {p : Operation → Prop} {host : Host σ μ} {w : World σ μ} (h : ReachedBy p host w)
    {ops : List Operation} (hops : ∀ op ∈ ops, p op) : ReachedBy p host (w.calls host ops) := by
  induction ops generalizing w with
  | nil => exact h
  | cons op ops ih =>
    obtain ⟨hop, hops⟩ := List.forall_mem_cons.1 hops
    exact ih (h.called op hop) hops

/-- Nothing to choose from, nothing to wait for, and nowhere to be. -/
structure Runner.Blank (r : Runner) : Prop where
  menu : r.menu = []
  wait : r.wait = none
  node : r.currentNode = .ok none

theorem Runner.Tidy.blank {r : Runner} (h : r.Tidy p) (hs : r.session = none) : r.Blank :=
  ⟨h.menu_nil hs, congrArg Place.wait (h.ended hs), by rw [Runner.currentNode, h.stack_nil hs]; rfl⟩

/-- Wherever no session runs, nothing is left of one. -/
def Seating.Blank (s : Seating) : Prop := ∀ seat r, s seat = some r → r.session = none → r.Blank

theorem World.Tidy.seating_blank {w : World σ μ} (h : w.Tidy p P) : Seating.Blank w.at? :=
  fun seat r hr hs => (h.runners seat r hr).blank hs

/-- What host code puts on record: the runners, and what its last call has come to. -/
structure Sighting where
  runners : Seating
  answer : Option (Except Fault Answer)

structure Sighting.Sound (s : Sighting) : Prop where
  blank : s.runners.Blank
  ordinary : ∀ f, s.answer = some (.error f) → f.isInternal = false

namespace Code
variable {α : Type} {E : Fault → Prop}

def audited (answer : Option (Except Fault Answer)) (c : Code σ Sighting α) : Code σ Sighting α :=
  .look fun w => .mark ⟨w.at?, answer⟩ c

/-- The same code, which puts on record what it sees whenever it has got control, and nothing else. -/
def auditing : Code σ Sighting α → Code σ Sighting α
  | .pure a => .pure a
  | .fail f => .fail f
  | .look next => .look fun w => (next w).auditing
  | .keep s next => .keep s next.auditing
  | .mark _ next => next.auditing
  | .ask seat op next => .ask seat op fun a => (next a).auditing.audited (some a)

theorem Fair.audited {c : Code σ Sighting α} (hc : c.Fair p Sighting.Sound E) {answer : Option (Except Fault Answer)}
    (ha : ∀ f, answer = some (.error f) → f.isInternal = false) : (c.audited answer).Fair p Sighting.Sound E :=
  fun _ hw => ⟨⟨hw.seating_blank, ha⟩, hc⟩

theorem Fair.auditing {c : Code σ Sighting α} (hc : c.Fair p (fun _ => True) E) :
    c.auditing.Fair p Sighting.Sound E := by
  induction c with
  | pure => trivial
  | fail => exact hc
  | look next ih => exact fun w hw => ih w (hc w (hw.mono fun _ _ => trivial))
  | keep s next ih => exact ih hc
  | mark m next ih => exact ih hc.2
  | ask seat op next ih =>
    exact ⟨hc.1, fun a ha => (ih a (hc.2 a ha)).audited fun f hf => ha f (Option.some.inj hf)⟩

end Code

def Behaviour.auditing (b : Behaviour σ Sighting) : Behaviour σ Sighting where
  read h := (b.read h).auditing.audited none
  write h v := (b.write h v).auditing.audited none
  call h args := (b.call h args).auditing.audited none
  callRaw h args := (b.callRaw h args).auditing.audited none
  handle seat h n := (b.handle seat h n).auditing.audited none
  owns := b.owns

theorem Behaviour.Fair.auditing {b : Behaviour σ Sighting} (hb : b.Fair p fun _ => True) :
    b.auditing.Fair p Sighting.Sound := by
  have hnone : ∀ f, (none : Option (Except Fault Answer)) = some (.error f) → f.isInternal = false :=
    fun f hf => by cases hf
  exact ⟨fun h => (hb.read h).auditing.audited hnone, fun h v => (hb.write h v).auditing.audited hnone,
    fun h args => (hb.call h args).auditing.audited hnone, fun h args => (hb.callRaw h args).auditing.audited hnone,
    fun seat h n => (hb.handle seat h n).auditing.audited hnone⟩

theorem Play.select_noMenu (host : Host σ μ) {w : World σ μ} (hidle : w.runner.busy = false)
    (hmenu : w.runner.menu = []) (i : Int) : ∃ v, perform host (.select i) w = .error (.session .noMenu) v := by
  have hselect : select host i w = (refuse .noMenu : Play σ μ Unit) w := by
    rw [select, run_bind_ok (requireIdleStep_eq hidle _), run_bind_ok (show runner w = .ok w.runner w from rfl), hmenu]
    rfl
  exact ⟨w.noting (.logged ⟨.error, .runner, Fault.message (.session .noMenu)⟩), run_bind_error (hselect.trans rfl)⟩

/-- An ended session leaves nothing behind. Whatever the host's code does, and whenever it ends a session, as long as
the queries of the scripts do not end the one that asks them: a runner without a session is blank, now and whenever
host code has looked; no call has failed with an internal fault, and none will; and there is nothing to select. -/
theorem ReachedBy.leaves_nothing {b : Behaviour σ Sighting} {patience depth : Nat} (hb : b.Fair p fun _ => True)
    (hcalm : ∀ depth e, p e → Calm (Host.ofBehaviour b.auditing patience depth) e) {w : World σ Sighting}
    (h : ReachedBy (Operation.Brings (Node.Asks p)) (Host.ofBehaviour b.auditing patience depth) w) :
    Seating.Blank w.at? ∧ (∀ s, .marked s ∈ w.journal → s.Sound) ∧
      (∀ op f v, op.Brings (Node.Asks p) →
        Play.perform (Host.ofBehaviour b.auditing patience depth) op w = .error f v → f.isInternal = false) ∧
      (w.runner.session = none → w.runner.busy = false → ∀ i, ∃ v,
        Play.perform (Host.ofBehaviour b.auditing patience depth) (.select i) w = .error (.session .noMenu) v) := by
  have hh := hb.auditing.tidies hcalm depth
  have htidy := h.tidy hh (hcalm depth)
  refine ⟨htidy.seating_blank, htidy.marks, fun op f v hop hf => ?_, fun hs hidle i => ?_⟩
  · have hw := (Play.tidying_perform hh (hcalm depth) hop).wp (h.reachable.inOrder hh.tends) htidy
    exact ((wp_error hf).1 hw).2
  · exact Play.select_noMenu _ hidle (htidy.front.menu_nil hs) i

/-- What calls nothing and reads no variable does not end anything. -/
theorem calm_of_plain (host : Host σ μ) {e : Expr} (h : ∀ vars, e.isPlain vars) : Calm host e := by
  intro w _ hlive
  obtain ⟨a, ha⟩ := Play.answering_evaluate (knowing_vars w.vars) e (h w.vars)
  obtain ⟨w', hw', -, halike⟩ := ha w rfl
  unfold wp
  rw [hw']
  cases a with
  | ok v =>
    show w'.runner.session.isSome
    rw [halike.runner]
    exact hlive
  | error f => trivial

def Expr.isLiteral : Expr → Bool
  | .number .. | .string .. | .boolean .. => true
  | _ => false

theorem Expr.isPlain_of_isLiteral {e : Expr} (h : e.isLiteral) (vars : Variables) : e.isPlain vars := by
  cases e with
  | number | string | boolean => rfl
  | _ => cases h

/-- The queries of a source are literals, so far as it can be read. -/
def onlyLiteralQueries (source : String) : Bool :=
  match (parseScript source).result with
  | .ok s => s.nodes.all fun n => (contentQueries n.content).all Expr.isLiteral
  | .error _ => true

theorem yields_of_onlyLiteralQueries {source : String} (h : onlyLiteralQueries source) :
    Yields (Node.Asks fun e => ∀ vars, e.isPlain vars) source := by
  intro s hs n hn e he
  rw [onlyLiteralQueries, hs] at h
  exact Expr.isPlain_of_isLiteral (List.all_eq_true.1 (List.all_eq_true.1 h n hn) e he)

/-- A host whose functions end the session before they answer. -/
def Behaviour.hasty : Behaviour σ μ where
  read _ := .fail .exhausted
  write _ _ := .fail .exhausted
  call code _ := .ask 0 (.finish true) fun _ =>
    .pure (if code = 0 then .integer 3 else .boolean (code = 1))
  callRaw _ _ := .fail .exhausted
  handle _ _ _ := .pure ()
  owns _ _ := false

/-- A line whose text ends the session, in a condition. -/
def partingScript : String := ":: start\nif true\n    A: bye \x7bseconds()\x7d\nendif\nA: too late\n"

theorem ReachedBy.leaves_nothing_parting :
    ∃ (host : Host Unit Sighting) (w : World Unit Sighting), host = Host.ofBehaviour Behaviour.hasty.auditing 0 1 ∧
      w.sessions = 1 ∧ w.runner.session = none ∧ Seating.Blank w.at? ∧
      ∃ v, Play.perform host (.select 0) w = .error (.session .noMenu) v := by
  let asked (e : Expr) : Prop := ∀ vars, e.isPlain vars
  let host : Host Unit Sighting := Host.ofBehaviour Behaviour.hasty.auditing 0 1
  let w := after (Play.perform host (.start none 0 false))
    (after (Play.perform host (.addFunction "seconds" (.unchecked 0) "" ""))
      (after (Play.perform host (.register partingScript)) { host := () }))
  have hfair : (Behaviour.hasty : Behaviour Unit Sighting).Fair asked fun _ => True :=
    ⟨fun _ => rfl, fun _ _ => rfl, fun _ _ => ⟨trivial, fun _ _ => trivial⟩, fun _ _ => rfl, fun _ _ _ => trivial⟩
  have hscript : Yields (Node.Asks asked) partingScript := yields_of_onlyLiteralQueries (by decide +kernel)
  have hw : ReachedBy (Operation.Brings (Node.Asks asked)) host w :=
    (((ReachedBy.opened (.alone {} ())).called (.register partingScript) hscript).called _ trivial).called _ trivial
  obtain ⟨hblank, -, -, hselect⟩ := ReachedBy.leaves_nothing hfair (fun _ _ he => calm_of_plain _ he) hw
  have hended : w.sessions = 1 ∧ w.runner.session = none ∧ w.runner.busy = false := by decide +kernel
  exact ⟨host, w, rfl, hended.1, hended.2.1, hblank, hselect hended.2.1 hended.2.2 0⟩

/-- Three nodes, each with a query that calls a function. -/
def askingScript : String :=
  ":: pause\nwait seconds()\n" ++
  ":: menu\n-> a [if allow()]\n    A: hello\n" ++
  ":: branch\nif refuse()\n    A: hello\nendif\nA: bye\n"

def fault? {α : Type} : EStateM.Result Fault (World σ μ) α → Option Fault
  | .ok .. => none
  | .error f _ => some f

/-- Where queries end the session, its wait and its menu are left behind, a choice can be selected, and a branch that is
not taken is left twice. -/
theorem leftovers :
    ∃ (host : Host Unit Unit) (w : World Unit Unit), Reachable host w ∧
      (∃ v, v = after (Play.perform host (.start (some "pause") 0 false)) w ∧ v.runner.session = none ∧
        v.runner.busy = false ∧ v.runner.wait.isSome) ∧
      (∃ v, v = after (Play.perform host (.start (some "menu") 0 false)) w ∧ v.runner.session = none ∧
        v.runner.busy = false ∧ v.runner.menu.length = 1 ∧ fault? (Play.perform host (.select 0) v) = none) ∧
      fault? (Play.perform host (.start (some "branch") 0 false) w) = some .emptyStack := by
  let host : Host Unit Unit := Host.ofBehaviour Behaviour.hasty 0 1
  let w := after (Play.perform host (.addFunction "refuse" (.unchecked 2) "" ""))
    (after (Play.perform host (.addFunction "allow" (.unchecked 1) "" ""))
      (after (Play.perform host (.addFunction "seconds" (.unchecked 0) "" ""))
        (after (Play.perform host (.register askingScript)) { host := () })))
  have hw : Reachable host w := ((((Reachable.opened (.alone {} ())).called _).called _).called _).called _
  exact ⟨host, w, hw, ⟨_, rfl, by decide +kernel⟩, ⟨_, rfl, by decide +kernel⟩, by decide +kernel⟩

end Parley
