import Parley.Proofs.StepOrder

/-! # Calls on a runner keep order

A call that goes through makes the runner busy, so what it does is seen from inside a step until the runner
rests again (`wp_busyStep`); a call that is refused has changed nothing. -/

namespace Parley
variable {σ μ : Type}

namespace Tending
variable {P : μ → Prop} {α : Type}

theorem runner {f : Runner → Play σ μ α} (hf : ∀ r, Tending P (f r)) : Tending P (Play.runner >>= f) :=
  .get fun w => hf w.runner

end Tending

namespace World
variable {P : μ → Prop} {w w₀ : World σ μ}

/-- A runner that begins a step. -/
theorem InOrder.during (hw : w.InOrder P) (hidle : w.runner.busy = false) {r : Runner} {A : Place → Prop}
    (hb : r.busy = true) (hr : r.session = none ∨ A r.place) : During P w A (w.withRunner r) :=
  ⟨hw.tends.withRunner hidle fun hrest => absurd hrest.2 (by simp [hb]), hidle, hb, hr⟩

theorem InOrder.stands_front (hw : w.InOrder P) (hs : ¬w.runner.session.isNone)
    (hidle : w.runner.busy = false) :
    w.runner.place.Stands :=
  hw.stands w.seat w.runner w.at?_seat ⟨by simpa [Option.isSome_iff_ne_none] using hs, hidle⟩

/-- A runner that has ended its step. -/
theorem During.tends_rest (h : During P w₀ Place.Stands w) :
    w₀.Tends P (w.withRunner { w.runner with busy := false }) := by
  refine h.tends.withRunner h.idle fun hrest => ?_
  exact h.place.resolve_left fun hn => by simp [Runner.IsResting, hn] at hrest

end World

namespace Play
variable {P : μ → Prop} {host : Host σ μ} {w w₀ : World σ μ}

/-- A step from inside which all goes well leads from order to order. -/
theorem wp_busyStep {x : Play σ μ Unit}
    (hx : wp x (fun _ => World.During P w₀ Place.Stands) (fun _ => World.During P w₀ Place.Stands)
      (w.withRunner { w.runner with busy := true })) :
    wp (busyStep x) (fun _ => w₀.Tends P) (fun _ => w₀.Tends P) w :=
  wp_ensuring.2 (wp_mono hx (fun _ _ h => h.tends_rest) fun _ _ h => h.tends_rest)

section
variable (hh : host.Tends P)
include hh

theorem tending_refuse {α : Type} (f : SessionFault) :
    Tending P (refuse f : Play σ μ α) := Tending.failOn hh _ _

/-- A call that needs a runner at rest. -/
theorem tending_requireIdleStep {α : Type} (action : String) {x : Play σ μ α}
    (hx : ∀ w : World σ μ, w.InOrder P → w.runner.busy = false →
      wp x (fun _ w' => w.Tends P w') (fun _ w' => w.Tends P w') w) :
    Tending P (requireIdleStep action >>= fun _ => x) := by
  refine .of_wp fun w hw => ?_
  cases hb : w.runner.busy with
  | false =>
    show wp (do (if w.runner.busy then refuse (.busy action) else pure ()); x) _ _ w
    rw [hb]
    exact hx w hw hb
  | true =>
    show wp (do (if w.runner.busy then refuse (.busy action) else pure ()); x) _ _ w
    rw [hb]
    have hrefuse : Tending P (refuse (.busy action) : Play σ μ Unit) := tending_refuse hh _
    exact hrefuse.wp hw

theorem tending_complete : Tending P (complete host) := by
  refine .runner fun r => ?_
  have hreset : Tending P (modifyRunner Runner.reset : Play σ μ Unit) :=
    .modify fun w hw => hw.tends_withRunner (fun hr => by simp [Runner.IsResting, Runner.reset] at hr)
      fun hb => ⟨hb, .inl rfl⟩
  exact hreset.bind fun _ => (Tending.log hh _ _ _).bind fun _ => (Tending.publish hh _).bind fun _ => .pure _

theorem tending_finish (force : Bool) : Tending P (finish host force) := by
  refine .runner fun r => .ite ((tending_refuse hh _).bind fun _ => ?_) ?_ <;>
    exact .ite (Tending.log hh _ _ _) (tending_complete hh)

theorem tending_scan : Tending P (scan host) :=
  .get fun _ => .runner fun _ => tending_scanFrom hh _ _ _ _

theorem tending_nextContent : Tending P (nextContent host) :=
  .runner fun _ => .ite (.pure _) ((tending_scan hh).bind fun _ => .pure _)

omit hh in
theorem wp_refuse {α : Type} {f : SessionFault} {Q : α → World σ μ → Prop} {E : Fault → World σ μ → Prop} :
    wp (refuse f) Q E w ↔ E (.session f) (w.noting (.logged ⟨.error, .runner, Fault.message (.session f)⟩)) :=
  Iff.rfl

omit hh in
theorem tends_logged (hw : w.InOrder P) (r : LogRecord) : w.Tends P (w.noting (.logged r)) :=
  hw.tends.aside rfl (fun _ => rfl) rfl fun m hm => by simpa [World.noting] using hm

theorem tending_resume : Tending P (resume host) := by
  refine tending_requireIdleStep hh _ fun w hw hidle => ?_
  simp only [requireRunning, wp_bind, wp_runner, wp_ite, wp_refuse, wp_pure]
  split
  · exact tends_logged hw _
  · next hs =>
    split
    · exact tends_logged hw _
    · exact wp_busyStep (steps_advance hh (hw.during hidle rfl (.inr (hw.stands_front hs hidle))))

theorem tending_jump (name : String) : Tending P (jump host name) := by
  refine tending_requireIdleStep hh _ fun w hw hidle => ?_
  simp only [requireRunning, wp_bind, wp_runner, wp_ite, wp_refuse, wp_pure]
  split
  · exact tends_logged hw _
  · next hs =>
    have hget := (Tending.getNode hh name).wp hw
    cases hn : getNode name w with
    | error f w' => rw [wp_error hn] at hget ⊢; exact hget
    | ok n w' =>
      obtain ⟨hn', rfl⟩ := getNode_ok hn
      rw [wp_ok hn]
      refine wp_busyStep ?_
      refine ((steps_enterNode hh fun _ _ => (hw.parsed _ n hn').nodup).bind fun _ => steps_advance hh)
        (hw.during (A := Place.Stands) hidle rfl (.inr (hw.stands_front hs hidle)))

/-- What picking a choice of the open menu does. -/
theorem steps_selected (choice : Choice) (index : Nat) :
    Steps P (fun p => p.Stands ∧ choice ∈ p.menu) (do
      let _ ← publish host (.selected choice index)
      if (← runner).session.isNone then return ()
      modifyRunner fun r => { r with menu := [] }
      if !choice.content.isEmpty then modifyRunner fun r => r.push (.choice choice)
      advance host) fun _ => Place.Stands := by
  refine (Steps.tending' (.publish hh _) fun _ h => h.1).bind fun _ => .runner fun r _ _ => ?_
  refine .ite (fun _ => .pure fun _ h => h.1.1) fun _ => ?_
  have hclose : Steps P (fun p => (p.Stands ∧ choice ∈ p.menu) ∧ p = r.place)
      (modifyRunner fun r => { r with menu := [] } : Play σ μ Unit)
      fun _ p => ∃ n f below, Walks n f below p ∧ f.Holds p.memo (.choice choice) := by
    refine .modifyRunner (fun _ => rfl) (fun _ h => .inl h) fun r' h => .inr ?_
    obtain ⟨⟨⟨n, hn, hmenu⟩, hmem⟩, -⟩ := h
    obtain ⟨f, below, hs, hc⟩ := hmenu choice hmem
    exact ⟨n, f, below, ⟨hn, hs, rfl⟩, hc⟩
  refine hclose.bind fun _ => .ite (fun _ => ?_) fun _ => ?_
  · have hpush : Steps P (fun p => ∃ n f below, Walks n f below p ∧ f.Holds p.memo (.choice choice))
        (modifyRunner fun r => r.push (.choice choice) : Play σ μ Unit) fun _ => Place.Stands := by
      refine .modifyRunner (fun _ => rfl) (fun _ h => .inl h) fun r' h => .inr ?_
      obtain ⟨n, f, below, hw, hc⟩ := h
      refine Place.stands_of_menu (n := n) ?_ hw.menu
      show Placed n (⟨.choice choice, 0⟩ :: r'.stack) r'.memo
      rw [show r'.stack = f :: below from hw.stack]
      exact hw.placed'.pushChoice hc
    exact hpush.bind fun _ => steps_advance hh
  · exact (steps_advance hh).mono (fun p ⟨n, f, below, h, _⟩ => h.stands) fun _ _ h => h

theorem tending_select (index : Int) : Tending P (select host index) := by
  refine tending_requireIdleStep hh _ fun w hw hidle => ?_
  simp only [wp_bind, wp_runner, wp_ite, wp_refuse]
  split
  · exact tends_logged hw _
  · split
    · exact tends_logged hw _
    · next choice hchoice =>
      have hmem : choice ∈ w.runner.menu := by
        split at hchoice
        · cases hchoice
        · exact List.mem_of_getElem? hchoice
      refine wp_busyStep (steps_selected hh choice _ (hw.during hidle rfl ?_))
      cases hs : w.runner.session with
      | none => exact .inl rfl
      | some id => exact .inr ⟨hw.stands_front (by simp [hs]) hidle, hmem⟩

theorem wp_startAt {n : Node} {name : String} {index : Nat} (hw : w.InOrder P)
    (hidle : w.runner.busy = false) (hn : n.Parsed) (hindex : index ≤ n.content.length) :
    wp (startAt host n name index) (fun _ => w.Tends P) (fun _ => w.Tends P) w := by
  refine wp_busyStep ?_
  rw [wp_bind]
  change wp _ _ _ ({ w with sessions := w.sessions + 1 }.withRunner
    { w.runner.reset with busy := true, session := some (w.sessions + 1), stack := [⟨.node n, index⟩] })
  have hnumber : w.Tends P { w with sessions := w.sessions + 1 } := hw.tends.aside rfl (fun _ => rfl) rfl fun _ h => h
  have hbegin := hnumber.order.during (A := Place.Stands) (r := { w.runner.reset with
    busy := true, session := some (w.sessions + 1), stack := [⟨.node n, index⟩] }) hidle rfl
    (.inr (Place.stands_of_menu (.enter hn.nodup hindex) rfl))
  refine ((Steps.tending' (.log hh _ _ _) fun _ h => h).bind fun _ => ?_) ⟨hnumber.trans hbegin.tends, hidle, rfl, hbegin.place⟩
  refine (Steps.tending' (.publish hh _) fun _ h => h).bind fun _ => ?_
  exact (Steps.tending' (.publish hh _) fun _ h => h).bind fun _ => steps_advance hh

theorem tending_start (name : Option String) (index : Int) (force : Bool) :
    Tending P (start host name index force) := by
  refine tending_requireIdleStep hh _ fun w hw hidle => ?_
  simp only [wp_bind, wp_runner, wp_runnerConfig, wp_ite, wp_refuse]
  split
  · exact tends_logged hw _
  · have hget := (Tending.getNode hh (startName name w.runnerConfig.startNode)).wp hw
    cases hn : getNode (startName name w.runnerConfig.startNode) w with
    | error f v => rw [wp_error hn] at hget ⊢; exact hget
    | ok n v =>
      obtain ⟨hn', rfl⟩ := getNode_ok hn
      rw [wp_ok hn]
      split
      · exact tends_logged hw _
      · next hindex =>
        have hstart {u : World σ μ} (hu : u.InOrder P) (hb : u.runner.busy = false) :
            wp (startAt host n (startName name v.runnerConfig.startNode) index.toNat) (fun _ => u.Tends P)
              (fun _ => u.Tends P) u :=
          wp_startAt hh hu hb (hw.parsed _ n hn') (by omega)
        split
        · have hlog := tends_logged hw ⟨.debug, .runner,
            s!"Discarding session {sessionName v.runner.session} for a forced start"⟩
          exact wp_mono (hstart hlog.order hidle) (fun _ _ h => hlog.trans h) fun _ _ h => hlog.trans h
        · exact hstart hw hidle

end
end Play
end Parley
