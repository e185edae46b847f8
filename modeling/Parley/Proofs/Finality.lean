import Parley.Proofs.ClosingCalls
import Parley.Proofs.Ended

/-! # A completed session stays completed

Between the completion of a session and the next start a runner tells nothing, or, right behind the completion, the
one thing that it had in hand when the session ended under it (`ReachedBy.completed_last`): a line or a menu with a
text that does not let its session last, or the name of the node that a session was ended in while it was announced to
start. Both do happen (`afterword`), since neither publishing a line or a menu nor entering the first node looks at
the session once more. -/

namespace Parley
variable {σ μ : Type} {p : Expr → Prop} {P : μ → Prop} {q : Expr → Prop}

namespace World
variable {w : World σ μ}

theorem Closing.turnTo (h : w.Closing q) (seat : Nat) : (w.turnTo seat).Closing q :=
  h.congr (w.phase_turnTo seat) fun s => w.told_turnTo s seat

theorem Hushed.of_turnTo {w' : World σ μ} {seat : Nat} (h : (w.turnTo seat).Hushed w') : w.Hushed w' := by
  intro s session hs
  have hsame := h s session (by rwa [phase_turnTo])
  rwa [told_turnTo] at hsame

theorem Fresh.closing (h : w.Fresh) : w.Closing q := by
  have htold (s : Nat) : w.told s = [] := by rw [told, h.journal]; rfl
  refine ⟨fun s => ?_, fun s _ _ _ => ?_⟩ <;> rw [htold] <;> trivial

end World

theorem Settling.onSeat {α : Type} {E : Fault → Prop} {x : Play σ μ α} (hx : Settling p P q x E) (seat : Nat) :
    Settling p P q (Play.onSeat seat x) E := by
  rintro w₀ w ⟨⟨hw, htidy⟩, hsettles⟩
  have hback {w' : World σ μ} (h : ((w.turnTo seat).Tends (fun _ => True) w' ∧ w'.Tidy p P) ∧ (w.turnTo seat).Settles q w') :
      (w₀.Tends (fun _ => True) (w'.turnTo w.seat) ∧ (w'.turnTo w.seat).Tidy p P) ∧ w₀.Settles q (w'.turnTo w.seat) := by
    obtain ⟨⟨htends, htidy'⟩, hsettles'⟩ := h
    have hfrom : w.Settles q w' := ⟨hsettles'.closing, hsettles'.hushed.of_turnTo⟩
    exact ⟨⟨hw.trans htends.turnTo_back, htidy'.turnTo _⟩,
      (hsettles.trans hfrom).congr (w'.phase_turnTo _) fun s => w'.told_turnTo s _⟩
  have hx := hx.wp (hw.order.turnTo seat) (htidy.turnTo seat) (hsettles.closing.turnTo seat)
  exact wp_onSeat.2 (wp_mono hx (fun _ _ h => hback h) fun _ _ h => ⟨hback h.1, h.2⟩)

theorem Code.settling_run {α : Type} {E : Fault → Prop} {perform : Operation → Play σ μ Answer}
    (hp : ∀ op, op.Brings (Node.Asks p) → Settling p P q (perform op)) {c : Code σ μ α} (hc : c.Fair p P E) :
    Settling p P q (c.run perform) E := by
  refine fun w₀ => upholds_run (fun hw => hw.1.2) (fun {w} hw s => ?_) (fun {w} hw m hm => ?_)
    (fun seat op hop => (hp op hop).onSeat seat w₀) hc
  · exact ⟨⟨hw.1.1.kept s, hw.1.2.kept s⟩, hw.2.congr (fun _ => rfl) fun _ => rfl⟩
  · exact ⟨⟨hw.1.1.marking m, hw.1.2.marking hm⟩, hw.2.congr (fun _ => rfl) fun s => w.told_marked s m⟩

theorem Behaviour.Fair.settles {b : Behaviour σ μ} (hb : b.Fair p P) {patience : Nat}
    (hcalm : ∀ depth e, p e → Calm (Host.ofBehaviour b patience depth) e)
    (hlast : ∀ depth e, q e → Lasting (Host.ofBehaviour b patience depth) e) (depth : Nat) :
    (Host.ofBehaviour b patience depth).Settles p P q := by
  have htidies := hb.tidies hcalm
  induction depth with
  | zero =>
    have hfail {α : Type} {E : Fault → Prop} (hE : E .exhausted) : Settling p P q (throw .exhausted : Play σ μ α) E :=
      fun _ => .throw hE
    exact ⟨htidies 0, fun _ => hfail rfl, fun _ _ => hfail rfl, fun _ _ => hfail rfl, fun _ _ => hfail rfl,
      fun _ _ _ => hfail trivial⟩
  | succ depth ih =>
    have hp (op : Operation) (hop : op.Brings (Node.Asks p)) := Play.settling_perform ih (hcalm depth) (hlast depth) hop
    exact ⟨htidies _, fun h => Code.settling_run hp (hb.read h), fun h v => Code.settling_run hp (hb.write h v),
      fun h args => Code.settling_run hp (hb.call h args), fun h args => Code.settling_run hp (hb.callRaw h args),
      fun seat h n => Code.settling_run hp (hb.handle seat h n)⟩

theorem ReachedBy.closing {host : Host σ μ} (hh : host.Settles p P q) (hcalm : ∀ e, p e → Calm host e)
    (hlast : ∀ e, q e → Lasting host e) {w : World σ μ}
    (h : ReachedBy (Operation.Brings (Node.Asks p)) host w) : w.Closing q := by
  induction h with
  | opened h => exact h.closing
  | @called w op hop h ih =>
    have hw := (Play.settling_perform hh hcalm hlast hop).wp (h.reachable.inOrder hh.tidies.tends)
      (h.tidy hh.tidies hcalm) ih
    exact wp_after (wp_mono hw (fun _ _ h => h.2.closing) fun _ _ h => h.1.2.closing)
  | turned seat _ ih => exact ih.turnTo seat
  | kept s _ ih => exact ih.congr (fun _ => rfl) fun _ => rfl

/-- What a runner has told since a session was completed, and before the next one is started, is one notice at most:
it follows the completion at once, and it was in hand when the session ended under it. -/
theorem ReachedBy.completed_last {b : Behaviour σ μ} {patience depth : Nat} (hb : b.Fair p fun _ => True)
    (hcalm : ∀ depth e, p e → Calm (Host.ofBehaviour b patience depth) e) {w : World σ μ}
    (h : ReachedBy (Operation.Brings (Node.Asks p)) (Host.ofBehaviour b patience depth) w) {seat : Nat}
    {newer between older : List Notice} {n : Notice} {id : Option SessionId}
    (htold : w.told seat = newer ++ n :: (between ++ .completed id :: older)) (hn : n.isStarted = false)
    (hbetween : ∀ m ∈ between, m.isStarted = false) :
    between = [] ∧ (n.IsLate (fun e => ∀ depth, Lasting (Host.ofBehaviour b patience depth) e) ∨
      ∃ session node before, id = some session ∧ n = .entered node ∧ older = .started session node :: before) := by
  have hlast (depth : Nat) (e : Expr) (he : ∀ depth, Lasting (Host.ofBehaviour b patience depth) e) := he depth
  have hclosing := h.closing (hb.settles hcalm hlast depth) (hcalm depth) (hlast depth)
  refine Final.late (fun id hlate => ?_) (htold ▸ hclosing.final seat) hn hbetween
  obtain ⟨_, htext, -⟩ := hlate
  exact absurd htext List.not_mem_nil

/-- A menu whose text ends the session. -/
def partingMenu : String := ":: start\n-> bye \x7bseconds()\x7d\n    A: too late\n"

/-- A host whose functions and handlers end the session. -/
def Behaviour.abrupt : Behaviour σ μ :=
  { Behaviour.hasty with handle := fun seat _ _ => .ask seat (.finish true) fun _ => .pure () }

theorem Behaviour.abrupt_fair : (Behaviour.abrupt : Behaviour σ μ).Fair p P :=
  ⟨fun _ => rfl, fun _ _ => rfl, fun _ _ => ⟨trivial, fun _ _ => trivial⟩, fun _ _ => rfl,
    fun _ _ _ => ⟨trivial, fun _ _ => trivial⟩⟩

/-- Starts a script that calls `seconds`; the handler, if there is one, hears of the start. -/
def abruptCalls (source : String) (isHeard : Bool) : List Operation :=
  [.register source, .addFunction "seconds" (.unchecked 0) "" ""] ++
    (if isHeard then [.subscribe .dialogueStarted ⟨0, 0, false, false⟩] else []) ++ [.start none 0 false]

/-- A line that has ended the session with its own text still comes. -/
theorem ReachedBy.completed_last_parting :
    ∃ (host : Host Unit Unit) (w : World Unit Unit) (n : Notice) (id : Option SessionId) (older : List Notice),
      host = Host.ofBehaviour Behaviour.abrupt 1 1 ∧ w.told 0 = n :: .completed id :: older ∧
        n.kind = .contentDisplayed ∧
        n.IsLate fun e => ∀ depth, Lasting (Host.ofBehaviour (Behaviour.abrupt : Behaviour Unit Unit) 1 depth) e := by
  let asked (e : Expr) : Prop := ∀ vars, e.isPlain vars
  let host : Host Unit Unit := Host.ofBehaviour Behaviour.abrupt 1 1
  let w : World Unit Unit := World.calls { host := () } host (abruptCalls partingScript false)
  have hscript : Yields (Node.Asks asked) partingScript := yields_of_onlyLiteralQueries (by decide +kernel)
  have hw : ReachedBy (Operation.Brings (Node.Asks asked)) host w := by
    refine (ReachedBy.opened (.alone {} ())).calls ?_
    exact List.forall_mem_cons.2 ⟨hscript, List.forall_mem_cons.2 ⟨trivial, List.forall_mem_singleton.2 trivial⟩⟩
  have hkinds : (w.told 0).map Notice.kind = [.contentDisplayed, .dialogueCompleted, .nodeEntered, .dialogueStarted] := by
    decide +kernel
  obtain ⟨n, rest, htold, hn, hrest⟩ := List.map_eq_cons_iff.1 hkinds
  obtain ⟨m, older, rfl, hm, -⟩ := List.map_eq_cons_iff.1 hrest
  have hmem : m ∈ w.told 0 := by rw [htold]; simp
  obtain ⟨id, rfl⟩ := Notice.exists_completed hm (World.isCustom_of_mem_told hmem)
  have hsplit : w.told 0 = [] ++ n :: ([] ++ .completed id :: older) := htold
  have hlate := hw.completed_last Behaviour.abrupt_fair (fun _ _ he => calm_of_plain _ he) hsplit
    (by cases n <;> first | rfl | cases hn) (by simp)
  refine ⟨host, w, n, id, older, rfl, htold, hn, hlate.2.resolve_right ?_⟩
  rintro ⟨_, _, _, -, rfl, -⟩
  cases hn

/-- After its completion a session still enters its first node, shows a line, and shows a menu. -/
theorem afterword :
    ∃ (host : Host Unit Unit) (w₁ w₂ w₃ : World Unit Unit), Reachable host w₁ ∧ Reachable host w₂ ∧ Reachable host w₃ ∧
      (w₁.told 0).map Notice.kind = [.nodeEntered, .dialogueCompleted, .dialogueStarted] ∧
      (w₂.told 0).map Notice.kind = [.contentDisplayed, .dialogueCompleted, .nodeEntered, .dialogueStarted] ∧
      (w₃.told 0).map Notice.kind = [.choicesDisplayed, .dialogueCompleted, .nodeEntered, .dialogueStarted] := by
  let host : Host Unit Unit := Host.ofBehaviour Behaviour.abrupt 1 1
  have hopened : ReachedBy (fun _ => True) host { host := () } := .opened (.alone {} ())
  have hcalls (ops : List Operation) : Reachable host (World.calls { host := () } host ops) :=
    (hopened.calls fun _ _ => trivial).reachable
  exact ⟨host, _, _, _, hcalls (abruptCalls partingScript true), hcalls (abruptCalls partingScript false),
    hcalls (abruptCalls partingMenu false), by decide +kernel, by decide +kernel, by decide +kernel⟩

end Parley
