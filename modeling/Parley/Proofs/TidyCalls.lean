import Parley.Proofs.TidySteps

/-! # Every call leaves a tidy world

A call that goes through runs a step from a tidy runner; a call that is refused has changed nothing. Only sources
whose queries have `p` may be registered, since a step relies on the queries of all nodes. -/

namespace Parley
variable {σ μ : Type} {p : Expr → Prop} {P : μ → Prop}

namespace Operation

theorem Brings.and {N N' : Node → Prop} {op : Operation} (h : op.Brings N) (h' : op.Brings N') :
    op.Brings fun n => N n ∧ N' n := by
  cases op with
  | register | load => exact fun s hs n hn => ⟨h s hs n hn, h' s hs n hn⟩
  | loadFile => exact fun source hsource s hs n hn => ⟨h source hsource s hs n hn, h' source hsource s hs n hn⟩
  | loadFolder =>
    exact fun path source hsource s hs n hn => ⟨h path source hsource s hs n hn, h' path source hsource s hs n hn⟩
  | _ => trivial

end Operation

theorem World.Tidy.opening {w : World σ μ} (h : w.Tidy p P) {n : Node} (hn : n.Asks p) {name : String} {index : Nat} :
    (w.opening n name index).Tidy p P := by
  have hnumber : World.Tidy p P { w with sessions := w.sessions + 1 } := h.aside (fun _ => rfl) rfl fun _ hm => hm
  have hopened := hnumber.withRunner (r := { w.runner.reset with
    busy := true, session := some (w.sessions + 1), stack := [⟨.node n, index⟩] }) (.of_live rfl (.enter hn index) nofun)
  exact (hopened.noting (Entry.ne_marked (e := .logged _) rfl)).noting (Entry.published_ne_marked _ _)

theorem World.landing_tidy :
    Landing p (World.Tidy p P : World σ μ → Prop) (World.Amid p P) (World.AmidFault p P) (fun _ w => w.Tidy p P)
      fun _ f w => w.Tidy p P ∧ f.IsOrdinary where
  tidy h := h.front
  nodes h := h.nodes
  noting h _ he := h.noting (Entry.ne_marked he)
  begun hw h hidle := ⟨hw.during hidle rfl (.inr trivial), h.withRunner (h.front.congr rfl)⟩
  rested hw := hw.tidy.withRunner (hw.tidy.front.congr rfl)
  failed hw := ⟨hw.1.tidy.withRunner (hw.1.tidy.front.congr rfl), hw.2⟩
  refused hf h _ he := ⟨h.noting (Entry.ne_marked he), hf⟩
  noted _ h := h
  notedFault _ h := h

namespace Play
variable {host : Host σ μ} {w : World σ μ}

section
variable (hh : host.Tidies p P) (hcalm : ∀ e, p e → Calm host e)
include hh

include hcalm in
theorem tidying_resume : Tidying p P (resume host) :=
  .of_tending (tending_resume hh.tends) fun _ => World.landing_tidy.resume (hh.footing hcalm)

include hcalm in
theorem tidying_jump (name : String) : Tidying p P (jump host name) :=
  .of_tending (tending_jump hh.tends name) fun _ => World.landing_tidy.jump (hh.footing hcalm) name

include hcalm in
theorem tidying_select (index : Int) : Tidying p P (select host index) :=
  .of_tending (tending_select hh.tends index) fun _ hw h => World.landing_tidy.select (hh.footing hcalm)
    (fun hidle _ _ => wp_mono (Carries.tidying (A := fun _ => True) (.publish hh _) (World.landing_tidy.begun hw h hidle) trivial)
      (fun _ _ h => h.1) fun _ _ h => h) index h

include hcalm in
theorem wp_startAt_tidy {n : Node} {name : String} {index : Nat} (hw : w.InOrder fun _ => True) (h : w.Tidy p P)
    (hidle : w.runner.busy = false) (hn : n.Asks p) :
    wp (startAt host n name index) (fun _ w' => w'.Tidy p P) (fun f w' => w'.Tidy p P ∧ f.IsOrdinary) w := by
  have hstep : Carries (World.Amid p P) (World.AmidFault p P) (fun _ => True) (do
      let _ ← deliver host (.started (w.sessions + 1) name)
      let _ ← publish host (.entered name)
      advance host) fun _ _ => True := by
    refine (Carries.tidying fun w₀ => upholds_deliver (hh.upkeep w₀) _).bind fun _ => ?_
    exact (Carries.tidying (.publish hh _)).bind fun _ => (hh.footing hcalm).advance
  have hrun := hstep ⟨hw.opening hidle n name index, h.opening hn⟩ trivial
  rw [wp, startAt_eq]
  exact World.landing_tidy.ensuring (wp_mono hrun (fun _ _ h => h.1) fun _ _ h => h)

include hcalm in
theorem tidying_start (name : Option String) (index : Int) (force : Bool) :
    Tidying p P (start host name index force) :=
  .of_tending (tending_start hh.tends name index force) fun _ =>
    World.landing_tidy.start (fun hw h hidle hn => wp_startAt_tidy hh hcalm hw h hidle hn) name index force

theorem tidying_finish (force : Bool) : Tidying p P (finish host force) := by
  have hend (r : Runner) : Tidying p P (if r.session.isNone then
      log .debug .runner "end() called with no dialogue running" else complete host) :=
    .ite (.log hh _ _ _) (.complete hh)
  refine .runner fun r => .ite ?_ (hend r)
  exact fun w₀ => (upholds_failOn (hh.upkeep w₀) .runner rfl).bind fun _ => hend r w₀

theorem tidying_nextContent : Tidying p P (nextContent host) :=
  fun w₀ => upholds_nextContent (hh.upkeep w₀) fun limit => Tidying.failLimit hh limit w₀

include hcalm in
theorem tidying_perform {op : Operation} (hop : op.Brings (Node.Asks p)) : Tidying p P (perform host op) := by
  have hdone {x : Play σ μ Unit} (hx : Tidying p P x) : Tidying p P (do x; return Answer.done) :=
    hx.bind fun _ => .pure _
  refine fun w₀ => upholds_perform (hh.upkeep w₀) (op.brings_parsed.and hop) fun hsession => ?_
  have hcall : Tidying p P (perform host op) := by
    cases op with
    | start name index force => exact hdone (tidying_start hh hcalm name index force)
    | resume => exact hdone (tidying_resume hh hcalm)
    | select index => exact hdone (tidying_select hh hcalm index)
    | jump name => exact hdone (tidying_jump hh hcalm name)
    | finish force => exact hdone (tidying_finish hh force)
    | nextContent => exact (tidying_nextContent hh).bind fun _ => .pure _
    | _ => cases hsession
  exact hcall w₀

end

end Play
end Parley
