import Parley.Proofs.Upkeep

/-! # What evaluation asks, and in which order

Evaluation looks up the variables of an expression and calls its functions (`Access`), one node after the other: every
node behind those inside it, from left to right (`Expr.nodes`), and neither `&&` nor `||` leaves any out. `Asked` is a
row of such accesses, each made in the world that the last one left; where evaluation fails, the row ends at the node
that does (`Halts`). -/

namespace Parley
variable {σ μ : Type}

/-- What an expression asks of the context. -/
inductive Access where
  | read (name : String)
  | call (name : String) (args : List Value)

def Play.access (host : Host σ μ) : Access → Play σ μ Value
  | .read name => getVariable host name
  | .call name args => callFunction host name args

mutual

/-- The nodes of an expression, each behind those inside it. -/
def Expr.nodes : Expr → List Expr
  | .number x pos => [.number x pos]
  | .string s pos => [.string s pos]
  | .boolean b pos => [.boolean b pos]
  | .reference name pos => [.reference name pos]
  | .unary op e pos => e.nodes ++ [.unary op e pos]
  | .binary op l r pos => l.nodes ++ r.nodes ++ [.binary op l r pos]
  | .call name args bare pos => nodesOfAll args ++ [.call name args bare pos]
  | .interpolated segments pos => nodesOfSegments segments ++ [.interpolated segments pos]
  | .braces e pos => e.nodes ++ [.braces e pos]
  | .foreign kind => [.foreign kind]

def nodesOfAll : List Expr → List Expr
  | [] => []
  | e :: rest => e.nodes ++ nodesOfAll rest

def nodesOfSegments : List Segment → List Expr
  | [] => []
  | .literal .. :: rest => nodesOfSegments rest
  | .hole e _ :: rest | .stray e :: rest => e.nodes ++ nodesOfSegments rest

end

/-- A variable or a call. -/
def Expr.asks : Expr → Bool
  | .reference .. | .call .. => true
  | _ => false

def asking (nodes : List Expr) : List Expr := nodes.filter Expr.asks

@[simp] theorem asking_append (nodes nodes' : List Expr) : asking (nodes ++ nodes') = asking nodes ++ asking nodes' :=
  List.filter_append ..

mutual

/-- From `w` to `v` the nodes made the accesses and nothing else, one after the other. -/
inductive Asked (host : Host σ μ) : World σ μ → List Expr → List Access → World σ μ → Prop
  | nil {w} : Asked host w [] [] w
  | snoc {w nodes accesses u n a value v} (hdue : Due host w nodes accesses u n a)
      (hmade : Play.access host a u = .ok value v) : Asked host w (nodes ++ [n]) (accesses ++ [a]) v

/-- Behind these accesses it is the turn of the node `n` to make the access `a`; a call passes what its own arguments
came to, whose nodes were the last to ask. -/
inductive Due (host : Host σ μ) : World σ μ → List Expr → List Access → World σ μ → Expr → Access → Prop
  | read {w nodes accesses u name pos} (hasked : Asked host w nodes accesses u) :
      Due host w nodes accesses u (.reference name pos) (.read name)
  | call {w nodes accesses v own u name args values bare pos} (hasked : Asked host w nodes accesses v)
      (hargs : Asked host v (asking (nodesOfAll args)) own u)
      (hvalues : Play.evaluateAll host args v = .ok values u) :
      Due host w (nodes ++ asking (nodesOfAll args)) (accesses ++ own) u (.call name args bare pos) (.call name values)

end

/-- A node that fails without an access, and the nodes inside it whose turn does not come. -/
inductive Blocked (host : Host σ μ) (u : World σ μ) : List Expr → Expr → Fault → World σ μ → Prop
  | unary {op e pos x f v} (h : Play.applyUnary op x pos.line u = .error f v) : Blocked host u [] (.unary op e pos) f v
  | binary {op l r pos x y f v} (h : Play.applyBinary op x y pos.line u = .error f v) :
      Blocked host u [] (.binary op l r pos) f v
  | braces {e pos f v} (h : Play.evaluate host (.braces e pos) u = .error f v) :
      Blocked host u e.nodes (.braces e pos) f v
  | foreign {kind f v} (h : Play.evaluate host (.foreign kind) u = .error f v) : Blocked host u [] (.foreign kind) f v
  | stray {e inside} (hinside : e.nodes = inside ++ [e]) : Blocked host u inside e (.lacks e.kind "expression") u

/-- Of the nodes those before `n` made their accesses and `n` failed, with its own access or without. -/
inductive Halts (host : Host σ μ) (w : World σ μ) (nodes : List Expr) : List Access → Fault → World σ μ → Prop
  | access {before n later accesses u a f v} (hnodes : nodes = before ++ n :: later)
      (hdue : Due host w (asking before) accesses u n a) (hfault : Play.access host a u = .error f v) :
      Halts host w nodes (accesses ++ [a]) f v
  | blocked {before inside n later accesses u f v} (hnodes : nodes = before ++ inside ++ n :: later)
      (hasked : Asked host w (asking before) accesses u) (hblocked : Blocked host u inside n f v) :
      Halts host w nodes accesses f v

section
variable {host : Host σ μ} {w u v : World σ μ} {nodes nodes' : List Expr} {accesses accesses' : List Access}

mutual

theorem Asked.trans (h : Asked host w nodes accesses u) : ∀ {nodes' accesses' v}, Asked host u nodes' accesses' v →
    Asked host w (nodes ++ nodes') (accesses ++ accesses') v
  | _, _, _, .nil => by simpa using h
  | _, _, _, .snoc hdue hmade => by
    rw [← List.append_assoc, ← List.append_assoc]
    exact .snoc (h.due hdue) hmade

theorem Asked.due (h : Asked host w nodes accesses u) : ∀ {nodes' accesses' v n a}, Due host u nodes' accesses' v n a →
    Due host w (nodes ++ nodes') (accesses ++ accesses') v n a
  | _, _, _, _, _, .read hasked => .read (h.trans hasked)
  | _, _, _, _, _, .call hasked hargs hvalues => by
    rw [← List.append_assoc, ← List.append_assoc]
    exact .call (h.trans hasked) hargs hvalues

end

theorem Halts.append {f : Fault} (h : Halts host w nodes accesses f v) (more : List Expr) :
    Halts host w (nodes ++ more) accesses f v := by
  cases h with
  | @access before n later _ _ _ _ _ hnodes hdue hfault =>
    have hmore : nodes ++ more = before ++ n :: (later ++ more) := by simp [hnodes]
    exact .access hmore hdue hfault
  | @blocked before inside n later _ _ _ _ hnodes hasked hblocked =>
    have hmore : nodes ++ more = before ++ inside ++ n :: (later ++ more) := by simp [hnodes]
    exact .blocked hmore hasked hblocked

theorem Asked.halts {f : Fault} (h : Asked host w (asking nodes) accesses u)
    (hhalts : Halts host u nodes' accesses' f v) : Halts host w (nodes ++ nodes') (accesses ++ accesses') f v := by
  cases hhalts with
  | @access before n later _ _ _ _ _ hnodes hdue hfault =>
    have hmore : nodes ++ nodes' = (nodes ++ before) ++ n :: later := by simp [hnodes]
    rw [← List.append_assoc]
    exact .access hmore (by simpa using h.due hdue) hfault
  | @blocked before inside n later _ _ _ _ hnodes hasked hblocked =>
    have hmore : nodes ++ nodes' = (nodes ++ before) ++ inside ++ n :: later := by simp [hnodes]
    exact .blocked hmore (by simpa using h.trans hasked) hblocked

theorem Blocked.halts {inside later : List Expr} {n : Expr} {f : Fault} (h : Blocked host w inside n f v)
    (hnodes : nodes = inside ++ n :: later) : Halts host w nodes [] f v :=
  .blocked (show nodes = [] ++ inside ++ n :: later from hnodes) .nil h

end

/-! ### The order of the accesses -/

theorem Expr.nodes_last (e : Expr) : ∃ inside, e.nodes = inside ++ [e] := by
  cases e <;> first | exact ⟨[], rfl⟩ | exact ⟨_, rfl⟩

/-- `x` makes the accesses of the nodes, all of them or those up to a node that fails. -/
def Visits (host : Host σ μ) (nodes : List Expr) {α : Type} (x : Play σ μ α) : Prop :=
  ∀ w, wp x (fun _ v => ∃ accesses, Asked host w (asking nodes) accesses v)
    (fun f v => ∃ accesses, Halts host w nodes accesses f v) w

namespace Visits
variable {host : Host σ μ} {nodes nodes' : List Expr} {α β : Type} {x : Play σ μ α}

theorem pure (h : asking nodes = []) (a : α) : Visits host nodes (pure a : Play σ μ α) :=
  fun _ => ⟨[], h ▸ .nil⟩

theorem bind {f : α → Play σ μ β} (hx : Visits host nodes x) (hf : ∀ a, Visits host nodes' (f a)) :
    Visits host (nodes ++ nodes') (x >>= f) := by
  intro w
  rw [wp_bind]
  refine wp_mono (hx w) (fun a u ⟨accesses, hasked⟩ => ?_) fun f v ⟨accesses, hhalts⟩ => ⟨_, hhalts.append _⟩
  refine wp_mono (hf a u) (fun b v ⟨accesses', hasked'⟩ => ⟨accesses ++ accesses', ?_⟩) fun f v ⟨_, hhalts⟩ =>
    ⟨_, hasked.halts hhalts⟩
  rw [asking_append]
  exact hasked.trans hasked'

/-- What follows the nodes, but is of none of them. -/
theorem andThen {f : α → Play σ μ β} (hx : Visits host nodes x) (hf : ∀ a, Visits host [] (f a)) :
    Visits host nodes (x >>= f) := by
  simpa using hx.bind hf

theorem settled {n : Expr} (hn : n.asks = false) (hx : Play.Settled x)
    (hblocked : ∀ u f v, x u = .error f v → Blocked host u [] n f v) : Visits host [n] x := by
  rcases hx with ⟨a, rfl⟩ | ⟨channel, f, rfl⟩
  · exact .pure (by simp [asking, hn]) a
  · exact fun w => ⟨[], (hblocked w f _ rfl).halts rfl⟩

end Visits

namespace Play
variable {host : Host σ μ}

theorem visits_reference (name : String) (pos : Pos) : Visits host [.reference name pos] (getVariable host name) := by
  intro w
  unfold wp
  cases hread : getVariable host name w with
  | ok value v => exact ⟨_, .snoc (.read .nil) hread⟩
  | error f v => exact ⟨_, .access (List.nil_append _).symm (.read .nil) hread⟩

theorem visits_call {args : List Expr} (hargs : Visits host (nodesOfAll args) (evaluateAll host args)) (name : String)
    (bare : Bool) (pos : Pos) :
    Visits host (nodesOfAll args ++ [.call name args bare pos])
      (do callFunction host name (← evaluateAll host args)) := by
  intro w
  have h := hargs w
  rw [wp_bind]
  unfold wp at h ⊢
  cases hvalues : evaluateAll host args w with
  | error f v =>
    rw [hvalues] at h
    obtain ⟨accesses, hhalts⟩ := h
    exact ⟨_, hhalts.append _⟩
  | ok values u =>
    rw [hvalues] at h
    obtain ⟨accesses, hasked⟩ := h
    have hdue : Due host w (asking (nodesOfAll args)) accesses u (.call name args bare pos) (.call name values) :=
      .call .nil hasked hvalues
    dsimp only
    cases hcall : callFunction host name values u with
    | ok value v =>
      rw [asking_append]
      exact ⟨_, .snoc hdue hcall⟩
    | error f v => exact ⟨_, .access rfl hdue hcall⟩

mutual

theorem visits_evaluate : (e : Expr) → Visits host e.nodes (evaluate host e)
  | .number .. | .string .. | .boolean .. => .pure rfl _
  | .reference name pos => visits_reference name pos
  | .unary op e pos =>
    (visits_evaluate e).bind fun _ => .settled rfl (settled_applyUnary ..) fun _ _ _ h => .unary h
  | .binary op l r pos => by
    unfold Expr.nodes evaluate
    rw [List.append_assoc]
    exact (visits_evaluate l).bind fun _ => (visits_evaluate r).bind fun _ =>
      .settled rfl (settled_applyBinary ..) fun _ _ _ h => .binary h
  | .call name args bare pos => visits_call (visits_evaluateAll args) name bare pos
  | .interpolated segments pos => (visits_strictText segments).bind fun _ => .pure rfl _
  | .braces e pos => fun _ => ⟨[], (Blocked.braces rfl).halts rfl⟩
  | .foreign kind => .settled rfl (settled_failOn ..) fun _ _ _ h => .foreign h

theorem visits_evaluateAll : (es : List Expr) → Visits host (nodesOfAll es) (evaluateAll host es)
  | [] => .pure rfl _
  | e :: rest => (visits_evaluate e).bind fun _ => (visits_evaluateAll rest).andThen fun _ => .pure rfl _

theorem visits_strictText : (segments : List Segment) →
    Visits host (nodesOfSegments segments) (strictText host segments)
  | [] => .pure rfl _
  | .literal .. :: rest => (visits_strictText rest).andThen fun _ => .pure rfl _
  | .hole e _ :: rest => (visits_evaluate e).bind fun _ => (visits_strictText rest).andThen fun _ => .pure rfl _
  | .stray e :: rest => fun _ => by
    obtain ⟨inside, hinside⟩ := e.nodes_last
    have hnodes : nodesOfSegments (.stray e :: rest) = inside ++ e :: nodesOfSegments rest := by
      change e.nodes ++ nodesOfSegments rest = _
      simp [hinside]
    exact ⟨[], (Blocked.stray hinside).halts hnodes⟩

end

end Play

/-! ### The accesses in the journal -/

def Entry.access? : Entry μ → Option Access
  | .read name => some (.read name)
  | .applied name args => some (.call name args)
  | _ => none

/-- The accesses of which the journal tells, the earliest first. -/
def World.accesses (w : World σ μ) : List Access := w.journal.reverse.filterMap Entry.access?

@[simp] theorem World.accesses_noting (w : World σ μ) (e : Entry μ) :
    (w.noting e).accesses = w.accesses ++ e.access?.toList := by
  unfold World.accesses noting
  cases h : e.access? <;> simp [h]

/-- Adds no access to the journal. -/
def AsksNothing {α : Type} (x : Play σ μ α) : Prop :=
  ∀ accesses, Upholds (fun w : World σ μ => w.accesses = accesses) (fun _ => True) x

/-- The host's own code looks no variable up and calls no function by name. -/
structure Host.Incurious (host : Host σ μ) : Prop where
  read : ∀ h, AsksNothing (host.read h)
  call : ∀ h args, AsksNothing (host.call h args)
  callRaw : ∀ h args, AsksNothing (host.callRaw h args)

namespace AsksNothing
variable {α β : Type} {x : Play σ μ α}

theorem pure (a : α) : AsksNothing (pure a : Play σ μ α) := fun _ => .pure a

theorem throw (f : Fault) : AsksNothing (throw f : Play σ μ α) := fun _ => .throw trivial

theorem bind {f : α → Play σ μ β} (hx : AsksNothing x) (hf : ∀ a, AsksNothing (f a)) : AsksNothing (x >>= f) :=
  fun accesses => (hx accesses).bind fun a => hf a accesses

theorem note {e : Entry μ} (he : e.access? = none) : AsksNothing (Play.note e : Play σ μ Unit) := by
  intro accesses w hw
  change (w.noting e).accesses = accesses
  simpa [he] using hw

theorem failOn (channel : LogChannel) (f : Fault) : AsksNothing (Play.failOn channel f : Play σ μ α) :=
  (note rfl).bind fun _ => throw f

theorem refuseCall (name reason : String) : AsksNothing (Play.refuseCall name reason : Play σ μ α) :=
  (note rfl).bind fun _ => throw _

theorem settled (hx : Play.Settled x) : AsksNothing x := by
  rcases hx with ⟨a, rfl⟩ | ⟨channel, f, rfl⟩
  · exact pure a
  · exact failOn channel f

theorem convert (v : Native) : AsksNothing (Play.convert v : Play σ μ Value) := by
  unfold Play.convert
  split
  · exact pure _
  · exact throw _

theorem after_note {e : Entry μ} {a : Access} (he : e.access? = some a) (hx : AsksNothing x) (w : World σ μ) :
    (after (do Play.note e; x) w).accesses = w.accesses ++ [a] := by
  have hnoted : (w.noting e).accesses = w.accesses ++ [a] := by simp [he]
  have hrest := hx _ hnoted
  exact wp_after (P := fun v => v.accesses = w.accesses ++ [a]) (wp_mono hrest (fun _ _ h => h) fun _ _ h => h.1)

end AsksNothing

namespace Play
variable {host : Host σ μ}

theorem asksNothing_callChecked (hh : host.Incurious) (name : String) (s : Signature) (code : Handle)
    (args : List Native) : AsksNothing (callChecked host name s code args) := by
  unfold callChecked
  split
  · exact .refuseCall _ _
  · split
    · exact .failOn _ _
    · exact (AsksNothing.note rfl).bind fun _ => (hh.call _ _).bind .convert

theorem asksNothing_callUnchecked (hh : host.Incurious) (name : String) (code : Handle) (args : List Native) :
    AsksNothing (callUnchecked host name code args) := by
  have htried : AsksNothing (try host.call code args
      catch f => if f.isTypeFault then refuseCall name f.message else throw f) :=
    fun accesses => (hh.call code args accesses).tryCatch fun f _ =>
      .ite (AsksNothing.refuseCall name f.message accesses) (.throw trivial)
  exact (AsksNothing.note rfl).bind fun _ => htried.bind .convert

theorem asksNothing_callBuiltin (b : Builtin) (args : List Value) :
    AsksNothing (callBuiltin b args : Play σ μ Value) := by
  cases b with
  | log => exact (AsksNothing.note rfl).bind fun _ => .pure _
  | concat => exact .pure _

/-- An access is on record, whatever comes of it, and nothing else is. -/
theorem accesses_access (hh : host.Incurious) (a : Access) (w : World σ μ) :
    (after (access host a) w).accesses = w.accesses ++ [a] := by
  cases a with
  | read name =>
    refine AsksNothing.after_note rfl (fun _ => .get fun v => ?_) w
    dsimp only
    split
    · exact (hh.read _).bind .convert _
    · split
      · exact .pure _
      · exact AsksNothing.failOn _ _ _
  | call name args =>
    refine AsksNothing.after_note rfl (fun _ => .get fun v => ?_) w
    split
    · exact AsksNothing.failOn _ _ _
    · split
      · exact asksNothing_callChecked hh _ _ _ _ _
      · exact asksNothing_callUnchecked hh _ _ _ _
      · exact (AsksNothing.note rfl).bind (fun _ => (hh.callRaw _ _).bind .convert) _
      · exact asksNothing_callBuiltin _ _ _

theorem accesses_access_ok (hh : host.Incurious) {a : Access} {value : Value} {u v : World σ μ}
    (h : access host a u = .ok value v) : v.accesses = u.accesses ++ [a] := by
  have hrecorded := accesses_access hh a u
  rwa [after, h] at hrecorded

theorem accesses_access_error (hh : host.Incurious) {a : Access} {f : Fault} {u v : World σ μ}
    (h : access host a u = .error f v) : v.accesses = u.accesses ++ [a] := by
  have hrecorded := accesses_access hh a u
  rwa [after, h] at hrecorded

end Play

section
variable {host : Host σ μ}

mutual

theorem Asked.accesses (hh : host.Incurious) : ∀ {w nodes accesses v}, Asked host w nodes accesses v →
    v.accesses = w.accesses ++ accesses
  | _, _, _, _, .nil => by simp
  | _, _, _, _, .snoc hdue hmade => by
    rw [Play.accesses_access_ok hh hmade, hdue.accesses hh, List.append_assoc]

theorem Due.accesses (hh : host.Incurious) : ∀ {w nodes accesses u n a}, Due host w nodes accesses u n a →
    u.accesses = w.accesses ++ accesses
  | _, _, _, _, _, _, .read hasked => hasked.accesses hh
  | _, _, _, _, _, _, .call hasked hargs _ => by rw [hargs.accesses hh, hasked.accesses hh, List.append_assoc]

end

theorem Blocked.accesses {u v : World σ μ} {inside : List Expr} {n : Expr} {f : Fault}
    (h : Blocked host u inside n f v) : v.accesses = u.accesses := by
  have hsettled {x : Play σ μ Value} (hx : Play.Settled x) (hfault : x u = .error f v) : v.accesses = u.accesses := by
    have hkept := AsksNothing.settled hx u.accesses (w := u) rfl
    rw [wp_error hfault] at hkept
    exact hkept.1
  cases h with
  | unary h => exact hsettled (Play.settled_applyUnary ..) h
  | binary h => exact hsettled (Play.settled_applyBinary ..) h
  | braces h | foreign h => exact hsettled (Play.settled_failOn ..) h
  | stray => rfl

theorem Halts.accesses (hh : host.Incurious) {w v : World σ μ} {nodes : List Expr} {accesses : List Access} {f : Fault}
    (h : Halts host w nodes accesses f v) : v.accesses = w.accesses ++ accesses := by
  cases h with
  | access _ hdue hfault =>
    rw [Play.accesses_access_error hh hfault, hdue.accesses hh, List.append_assoc]
  | blocked _ hasked hblocked => rw [hblocked.accesses, hasked.accesses hh]

end

/-- An expression that has a value makes the accesses of its variables and calls, each once and in the order of its
nodes, and does nothing else; one that fails makes those up to the node that fails. As long as host code looks nothing
up itself, the journal tells of just these. A command that calls is the call with its answer dropped. -/
theorem Play.evaluate_accesses (host : Host σ μ) :
    (∀ (e : Expr) (w : World σ μ),
      (∃ value accesses v, evaluate host e w = .ok value v ∧ Asked host w (asking e.nodes) accesses v ∧
        (host.Incurious → v.accesses = w.accesses ++ accesses)) ∨
      ∃ f accesses v, evaluate host e w = .error f v ∧ Halts host w e.nodes accesses f v ∧
        (host.Incurious → v.accesses = w.accesses ++ accesses)) ∧
    ∀ (name : String) (args : List Expr) (bare : Bool) (pos : Pos) (line : Int),
      execute host (.call name args) line = (do let _ ← evaluate host (.call name args bare pos); return none) := by
  refine ⟨fun e w => ?_, fun name args bare pos line => ?_⟩
  · have hvisits : Visits host e.nodes (evaluate host e) := visits_evaluate e
    have h := hvisits w
    unfold wp at h
    cases hrun : evaluate host e w with
    | ok value v =>
      rw [hrun] at h
      obtain ⟨accesses, hasked⟩ := h
      exact .inl ⟨value, accesses, v, rfl, hasked, fun hh => hasked.accesses hh⟩
    | error f v =>
      rw [hrun] at h
      obtain ⟨accesses, hhalts⟩ := h
      exact .inr ⟨f, accesses, v, rfl, hhalts, fun hh => hhalts.accesses hh⟩
  · unfold evaluate
    exact (bind_assoc ..).symm

/-- `f($a) || $b`: the argument, the call with it, and the right side, whatever the left one comes to. -/
example : asking (Expr.nodes (.binary .or (.call "f" [.reference "a" {}] false {}) (.reference "b" {}) {})) =
    [.reference "a" {}, .call "f" [.reference "a" {}] false {}, .reference "b" {}] := rfl

end Parley
