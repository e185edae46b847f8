import Parley.Proofs.Ended
import Parley.Proofs.Offers

/-! # Open menus have been announced

With discreet host code every call leaves an offering world. A menu is silent only if the call that opened it has
failed with the fault of rendering its texts (`Aborted`): it is put down before its texts are rendered, and stays open.
So whoever waits for a choice either has announced the menu, or has met such a call; and the same goes for every menu
that a choice was picked from (`Reachable.menu_announced`). -/

namespace Parley
variable {σ μ : Type} {host : Host σ μ} {S : Nat → List Choice → List Notice → Prop}

/-- Between calls, in a step, and after a call. -/
theorem World.landing_offering :
    Landing (fun _ => True) (World.Offering host S) (fun _ w => w.Offering host S)
      (fun _ f w => w.Offering host (w.silenced host f S)) (fun _ w => w.Offering host S)
      fun _ f w => w.Offering host (w.silenced host f S) where
  tidy h := h.tidy.front
  nodes _ _ _ _ := fun _ _ => trivial
  noting h _ he := h.noting he
  begun {w} _ h _ := h.unmoved (.withRunner (.refl w) rfl)
  rested {_ w} h := h.unmoved (.withRunner (.refl w) rfl)
  failed {_ w _} h := h.unmoved (.withRunner (.refl w) rfl)
  refused _ h _ he := (h.noting he).silenced
  noted _ h := h
  notedFault _ h := h

namespace Play
variable (hh : host.Discreet) {w : World σ μ}
include hh

theorem wp_startAt_offering {n : Node} {name : String} {index : Nat} (hw : w.Offering host S) :
    wp (startAt host n name index) (fun _ w' => w'.Offering host S) (fun f w' => w'.Offering host (w'.silenced host f S)) w := by
  have hopening : (w.opening n name index).Offering host S := by
    have htold := w.told_opening n name index w.seat
    rw [if_pos rfl] at htold
    refine hw.of_front (.opening w n name index) (hw.tidy.opening fun _ _ => trivial) ?_ (.inl rfl)
    rw [htold]
    exact (hw.picks _).cons fun _ _ h => by cases h
  rw [wp, startAt_eq]
  refine World.landing_offering.ensuring (u := w) ?_
  have hstart : OfferingStep host S Runner.Choiceless (do
      let _ ← deliver host (.started (w.sessions + 1) name)
      let _ ← publish host (.entered name)
      advance host) fun _ _ => True :=
    (OfferingStep.choiceless (OfferingStep.delivering hh _)).bind fun _ =>
      (OfferingStep.publish hh rfl rfl).bind fun _ => hh.footing.advance
  exact wp_mono (hstart.run hopening ⟨rfl, rfl⟩) (fun _ _ h => h.1) fun _ _ h => h

theorem wp_finish_offering (force : Bool) (hw : w.Offering host S) :
    wp (finish host force) (fun _ w' => w'.Offering host S) (fun f w' => w'.Offering host (w'.silenced host f S)) w := by
  simp only [finish, wp_bind, wp_runner, wp_ite, wp_refuse]
  split
  · exact (hw.noting (e := .logged _) rfl).silenced
  · split
    · exact hw.noting (e := .logged _) rfl
    · exact wp_mono ((OfferingStep.complete hh).run hw trivial) (fun _ _ h => h.1) fun _ _ h => h

/-- Every call leaves an offering world, up to the menu that it was to open when it failed. -/
theorem wp_perform_offering (op : Operation) (hw : w.InOrder fun _ => True) (h : w.Offering host S) :
    wp (perform host op) (fun _ w' => w'.Offering host S) (fun f w' => w'.Offering host (w'.silenced host f S)) w := by
  have hf := hh.footing (S := S)
  have hdone {x : Play σ μ Unit}
      (hx : wp x (fun _ w' => w'.Offering host S) (fun f w' => w'.Offering host (w'.silenced host f S)) w) :
      wp (do x; return Answer.done) (fun _ w' => w'.Offering host S)
        (fun f w' => w'.Offering host (w'.silenced host f S)) w := by
    rw [wp_bind]
    exact wp_mono hx (fun _ _ h => h) fun _ _ h => h
  have hunmoving {α : Type} {x : Play σ μ α} (hx : Unmoving x) :
      wp x (fun _ w' => w'.Offering host S) (fun f w' => w'.Offering host (w'.silenced host f S)) w :=
    wp_mono (hx.wp w) (fun _ _ h' => h.unmoved h') fun _ _ h' => (h.unmoved h').silenced
  by_cases hop : op.aboutSession = false
  · exact hunmoving (unmoving_perform hh hop)
  cases op with
  | start name index force =>
    exact hdone (World.landing_offering.start (fun _ hw _ _ => wp_startAt_offering hh hw) name index force hw h)
  | resume => exact hdone (World.landing_offering.resume hf hw h)
  | select index =>
    refine hdone (World.landing_offering.select hf (fun {choice i} _ _ hc => ?_) index h)
    have hbegun : w.begun.Offering host S := h.unmoved (.withRunner (.refl w) rfl)
    have hdeliver : OfferingStep host S (fun _ => True) (deliver host (.selected choice i)) fun _ _ => True :=
      OfferingStep.unmoving (OfferingStep.delivering hh _) fun _ _ => trivial
    exact wp_mono (hdeliver.run (hbegun.picking hc) trivial) (fun _ _ h => h.1) fun _ _ h => h
  | jump name => exact hdone (World.landing_offering.jump hf name hw h)
  | finish force => exact hdone (wp_finish_offering hh force h)
  | nextContent => exact hunmoving fun w₀ => (unmoving_nextContent hh w₀).bind fun _ => .pure _
  | _ => exact absurd rfl hop

end Play

/-- Calls lead from one world to the other, and what may come between calls. -/
inductive Leads (host : Host σ μ) (v : World σ μ) : World σ μ → Prop
  | here : Leads host v v
  | called {w : World σ μ} (op : Operation) (h : Leads host v w) : Leads host v (after (Play.perform host op) w)
  | turned {w : World σ μ} (seat : Nat) (h : Leads host v w) : Leads host v (w.turnTo seat)
  | kept {w : World σ μ} (s : σ) (h : Leads host v w) : Leads host v { w with host := s }

/-- On the way to `w` a call has failed with the fault of rendering the menu: it has left the menu open, with nothing
told but `told`. -/
def Aborted (host : Host σ μ) (w : World σ μ) (seat : Nat) (menu : List Choice) (told : List Notice) : Prop :=
  ∃ (u v : World σ μ) (op : Operation) (f : Fault), Reachable host u ∧ Play.perform host op u = .error f v ∧
    Leads host v w ∧ v.seat = seat ∧ v.runner.menu = menu ∧ v.told seat = told ∧
    ∃ x x' : World σ μ, Play.renderAll host menu x = .error f x'

theorem Aborted.of_leads {w w' : World σ μ} {seat : Nat} {menu : List Choice} {told : List Notice}
    (h : Aborted host w seat menu told) (hw : ∀ {v}, Leads host v w → Leads host v w') : Aborted host w' seat menu told := by
  obtain ⟨u, v, op, f, hu, hcall, hlead, hv⟩ := h
  exact ⟨u, v, op, f, hu, hcall, hw hlead, hv⟩

theorem World.Fresh.offering {w : World σ μ} (h : w.Fresh) : w.Offering host S := by
  have htold (s : Nat) : w.told s = [] := by rw [told, h.journal]; rfl
  refine ⟨h.tidy, fun s => ?_, fun s r hr => .inl ?_⟩
  · rw [htold]; trivial
  · rw [h.runners s r hr]

theorem Reachable.offering (hh : host.Discreet) (ht : host.Tends fun _ => True) {w : World σ μ} (h : Reachable host w) :
    w.Offering host (Aborted host w) := by
  induction h with
  | opened h => exact h.offering
  | @called w op h ih =>
    have hcall := Play.wp_perform_offering hh op (h.inOrder ht) ih
    have hlead : ∀ {v}, Leads host v w → Leads host v (after (Play.perform host op) w) := .called op
    unfold wp at hcall
    unfold after at hlead ⊢
    cases hr : Play.perform host op w with
    | ok a v =>
      rw [hr] at hcall hlead
      exact hcall.mono fun _ _ _ h => h.of_leads hlead
    | error f v =>
      rw [hr] at hcall hlead
      refine hcall.mono fun s menu told hs => ?_
      rcases hs with hs | ⟨rfl, rfl, rfl, hrender⟩
      · exact hs.of_leads hlead
      · exact ⟨w, v, op, f, h, hr, .here, rfl, rfl, rfl, hrender⟩
  | @turned w seat _ ih =>
    have hsame : w.Offering host (Aborted host (w.turnTo seat)) := ih.mono fun _ _ _ h => h.of_leads (.turned seat)
    refine ⟨hsame.tidy.turnTo seat, fun s => ?_, fun s r hr => ?_⟩ <;> rw [World.told_turnTo]
    · exact hsame.picks s
    · exact hsame.menus s r (by rwa [World.at?_turnTo] at hr)
  | @kept w s _ ih =>
    exact (ih.mono fun _ _ _ h => h.of_leads (.kept s)).unmoved ⟨rfl, fun _ => rfl, fun _ => rfl⟩

/-- Whoever waits for a choice has announced the menu, with one rendered text for each choice, in their order, and
nothing but picks from it since; and every choice that was picked stands at its place in a menu of which the same held
then. The exception is a menu whose opening call has failed with the fault of rendering its texts. -/
theorem Reachable.menu_announced {b : Behaviour σ μ} (hb : b.Discreet) {patience depth : Nat} {w : World σ μ}
    (h : Reachable (Host.ofBehaviour b patience depth) w) (seat : Nat) :
    (∀ r, w.at? seat = some r → r.state = .awaitingChoice →
      Offered (Host.ofBehaviour b patience depth) (Aborted (Host.ofBehaviour b patience depth) w seat) r.menu (w.told seat)) ∧
    ∀ newer older c i, w.told seat = newer ++ .selected c i :: older → ∃ menu, menu[i]? = some c ∧
      Offered (Host.ofBehaviour b patience depth) (Aborted (Host.ofBehaviour b patience depth) w seat) menu older := by
  have hoffering := h.offering (hb.host patience depth) (b.vouches_true.tends patience depth)
  refine ⟨fun r hr hstate => (hoffering.menus seat r hr).resolve_left fun hmenu => ?_, fun newer older c i htold => ?_⟩
  · simp [Runner.state, hmenu] at hstate
    split at hstate <;> cases hstate
  · exact (htold ▸ hoffering.picks seat).offered

/-- A host whose functions keep account of what they are asked. -/
def Behaviour.counting : Behaviour σ μ where
  read _ := .fail .exhausted
  write _ _ := .fail .exhausted
  call _ _ := .ask 0 (.setVariable "asked" (.boolean true)) fun _ => .pure (.integer 3)
  callRaw _ _ := .fail .exhausted
  handle _ _ _ := .fail .exhausted
  owns _ _ := false

theorem Behaviour.counting_discreet : (Behaviour.counting : Behaviour σ μ).Discreet :=
  ⟨fun _ => trivial, fun _ _ => trivial, fun _ _ => ⟨rfl, fun _ => trivial⟩, fun _ _ => trivial, fun _ _ _ => trivial⟩

/-- A menu with a price, and one with a price that is none. -/
def pricedMenus : String := ":: start\n-> pay \x7bprice()\x7d\n    A: thanks\n:: odd\n-> pay \x7b1 + true\x7d\n    A: thanks\n"

theorem Reachable.menu_announced_priced :
    ∃ (host : Host Unit Unit) (w : World Unit Unit), w.runner.state = .awaitingChoice ∧
      (w.told 0).map Notice.kind = [.choicesDisplayed, .nodeEntered, .dialogueStarted] ∧
      Offered host (Aborted host w 0) w.runner.menu (w.told 0) := by
  let host : Host Unit Unit := Host.ofBehaviour Behaviour.counting 0 1
  let w : World Unit Unit := World.calls { host := () } host
    [.register pricedMenus, .addFunction "price" (.unchecked 0) "" "", .start none 0 false]
  have hopened : ReachedBy (fun _ => True) host { host := () } := .opened (.alone {} ())
  have hw : Reachable host w := (hopened.calls fun _ _ => trivial).reachable
  have hwaits : w.seat = 0 ∧ w.runner.state = .awaitingChoice ∧
      (w.told 0).map Notice.kind = [.choicesDisplayed, .nodeEntered, .dialogueStarted] := by decide +kernel
  have hfront : w.at? 0 = some w.runner := by rw [← hwaits.1, World.at?_seat]
  exact ⟨host, w, hwaits.2.1, hwaits.2.2,
    (hw.menu_announced Behaviour.counting_discreet 0).1 w.runner hfront hwaits.2.1⟩

/-- A menu whose text cannot be rendered is open without having been announced, and can be picked from. -/
theorem unannounced :
    ∃ (host : Host Unit Unit) (w v : World Unit Unit), Reachable host w ∧ w.runner.state = .awaitingChoice ∧
      (w.told 0).map Notice.kind = [.nodeEntered, .dialogueStarted] ∧ v = after (Play.perform host (.select 0)) w ∧
      (v.told 0).map Notice.kind = [.contentDisplayed, .choiceSelected, .nodeEntered, .dialogueStarted] := by
  let host : Host Unit Unit := Host.ofBehaviour Behaviour.counting 0 1
  let w : World Unit Unit := World.calls { host := () } host [.register pricedMenus, .start (some "odd") 0 false]
  have hopened : ReachedBy (fun _ => True) host { host := () } := .opened (.alone {} ())
  have hw : Reachable host w := (hopened.calls fun _ _ => trivial).reachable
  exact ⟨host, w, _, hw, by decide +kernel, by decide +kernel, rfl, by decide +kernel⟩

end Parley
