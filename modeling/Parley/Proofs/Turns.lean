import Parley.Proofs.BusHistory

/-! # Handlers taking turns

While a bus dispatches, what is published there waits, so what a handler does to its bus is what it declares
(`Underway`). The walk gives the subscriptions their turns one by one (`Turns`). -/

namespace Parley
variable {σ : Type}

/-- One handler's part of a bus's history. -/
structure Underway (seat : Nat) (b : Bus) (es : List (Entry Deed)) (b' : Bus) : Prop where
  heard : Heard seat b es b'
  running : b'.running = b.running
  steady : ∀ d ∈ deedsAt seat es, d.bus.running = b.running
  alone : ∀ kind, calledAt seat kind es = []

namespace Underway
variable {seat : Nat} {b b' : Bus} {es : List (Entry Deed)}

theorem nil : Underway seat b [] b := ⟨.nil, rfl, fun _ h => (List.not_mem_nil h).elim, fun _ => rfl⟩

theorem aside {e : Entry Deed} (h : Underway seat b es b') (he : e.isAt seat = false) :
    Underway seat b (e :: es) b' where
  heard := h.heard.aside he
  running := h.running
  steady := by
    rw [deedsAt_cons_of_aside he]
    exact h.steady
  alone kind := by
    rw [calledAt_cons_of_aside he]
    exact h.alone kind

theorem published (h : Underway seat b es b') (n : Notice) : Underway seat b (.published seat n :: es) (b'.queued n) :=
  ⟨h.heard.published n, h.running, h.steady, h.alone⟩

theorem asked (h : Underway seat b es b') (op : Operation) :
    Underway seat b (.marked ⟨seat, b', op⟩ :: es) (op.onBus b') where
  heard := h.heard.asked op
  running := (op.running_onBus b').trans h.running
  steady := by
    rw [deedsAt_cons_marked, List.forall_mem_cons]
    exact ⟨h.running, h.steady⟩
  alone := h.alone

/-- What is written in this part goes on top of an older journal. -/
def Since (seat : Nat) (b : Bus) (older : List (Entry Deed)) (b' : Bus) (journal : List (Entry Deed)) : Prop :=
  ∃ es, journal = es ++ older ∧ Underway seat b es b'

theorem overseen (seat : Nat) (b : Bus) (older : List (Entry Deed)) : Overseen seat (Since seat b older) where
  other := fun ⟨es, hes, h⟩ e he => ⟨e :: es, by rw [hes]; rfl, h.aside he⟩
  asked := fun ⟨es, hes, h⟩ op => ⟨_ :: es, by rw [hes]; rfl, h.asked op⟩

end Underway

theorem Play.publish_of_dispatching (host : Host σ Deed) (n : Notice) {w : World σ Deed}
    (hw : w.runner.bus.dispatching.isSome) :
    publish host n w = .ok false ((w.noting (.published w.seat n)).withBus (w.runner.bus.queued n)) := by
  rw [Bus.isSome_dispatching] at hw
  show (if w.runner.bus.current.isSome then _ else _ : Play σ Deed Bool) _ = _
  rw [if_pos hw]
  rfl

/-- What comes of draining a queue, by what is in front of it. -/
theorem Play.wp_drain {host : Host σ Deed} {fuel : Nat} {Q : Unit → World σ Deed → Prop} {E : Fault → World σ Deed → Prop}
    {w : World σ Deed} (hempty : w.runner.bus.queue = [] → Q () w)
    (hnext : ∀ n rest, w.runner.bus.queue = n :: rest → wp (dispatch host n) (fun _ => wp (drain host fuel) Q E) E
      (w.withBus { w.runner.bus with queue := rest })) : wp (drain host (fuel + 1)) Q E w := by
  rw [drain, wp_bind, wp_get]
  split
  · next hqueue => exact hempty hqueue
  · next n rest hqueue =>
    rw [wp_bind]
    show wp (dispatch host n >>= fun _ => drain host fuel) _ _ _
    rw [wp_bind]
    exact hnext n rest hqueue

/-- The dispatch of a notice that need not wait, and of those that are published meanwhile. -/
def Play.round (host : Host σ Deed) (n : Notice) : Play σ Deed Bool := do
  let consumed ← Play.dispatch host n
  Play.drain host (host.patience + 1)
  Play.modifyBus Bus.endRound
  return consumed

theorem Play.publish_of_idle (host : Host σ Deed) (n : Notice) {w : World σ Deed} (hw : w.runner.bus.current = none) :
    publish host n w = round host n (w.noting (.published w.seat n)) := by
  have hnone : ¬ w.runner.bus.current.isSome = true := by
    rw [hw]
    exact Bool.false_ne_true
  show (if w.runner.bus.current.isSome then _ else _ : Play σ Deed Bool) _ = _
  rw [if_neg hnone]
  rfl

theorem Behaviour.underway (b : Behaviour σ Deed) (patience depth seat : Nat) {bus : Bus}
    (hbus : bus.dispatching.isSome) (older : List (Entry Deed)) :
    (Host.ofBehaviour b.declaring patience depth).Abides seat (Underway.Since seat bus older) := by
  refine b.abides (Underway.overseen seat bus older) (fun depth _ n w hw hseat => ?_) depth
  subst hseat
  obtain ⟨es, hes, h⟩ := hw.front rfl
  have hdispatching : w.runner.bus.dispatching.isSome := by rwa [Bus.dispatching, h.running]
  rw [wp_ok (Play.publish_of_dispatching _ n hdispatching)]
  exact hw.noting_withBus rfl ⟨.published w.seat n :: es, by rw [hes]; rfl, h.published n⟩

/-- A handler's call always ends well: a fault of the handler leaves a line in the log and goes no further. -/
theorem Play.callHandler_ends {host : Host σ Deed} {h : Handle} {n : Notice} {w : World σ Deed}
    {P : World σ Deed → Prop} (hlog : ∀ line {v}, P v → P (v.noting (.logged line)))
    (hrun : wp (host.handle w.seat h n) (fun _ => P) (fun _ => P)
      ((w.withBus (w.runner.bus.calling (some h))).noting (.handled w.seat h n.kind))) :
    ∃ v, callHandler host h n w = .ok () v ∧ P v := by
  show ∃ v, EStateM.tryCatch (host.handle w.seat h n) _
    ((w.withBus (w.runner.bus.calling (some h))).noting (.handled w.seat h n.kind)) = _ ∧ P v
  unfold wp at hrun
  unfold EStateM.tryCatch
  cases hhandle : host.handle w.seat h n _ with
  | ok _ v =>
    rw [hhandle] at hrun
    exact ⟨v, rfl, hrun⟩
  | error _ v =>
    rw [hhandle] at hrun
    exact ⟨_, rfl, hlog _ hrun⟩

/-- From `w` to `v`, the bus in front has this history. -/
structure World.Hears (w : World σ Deed) (es : List (Entry Deed)) (v : World σ Deed) : Prop where
  seat : v.seat = w.seat
  seats : ∀ t, (v.bus? t).isSome = (w.bus? t).isSome
  journal : v.journal = es ++ w.journal
  heard : Heard w.seat w.runner.bus es v.runner.bus

namespace World.Hears
variable {w v u : World σ Deed} {es es' : List (Entry Deed)}

theorem refl (w : World σ Deed) : w.Hears [] w := ⟨rfl, fun _ => rfl, rfl, .nil⟩

theorem trans (h : w.Hears es v) (h' : v.Hears es' u) : w.Hears (es' ++ es) u where
  seat := h'.seat.trans h.seat
  seats t := (h'.seats t).trans (h.seats t)
  journal := by rw [h'.journal, h.journal, List.append_assoc]
  heard := h.heard.trans (h.seat ▸ h'.heard)

theorem calling (w : World σ Deed) (handler : Option Handle) :
    w.Hears [] (w.withBus (w.runner.bus.calling handler)) :=
  ⟨rfl, fun t => Watched.isSome_withBus _ _ t, rfl, .turned handler .nil⟩

end World.Hears

/-- While a bus dispatches, a handler of this host does to it what it declares and no more. -/
def Host.Declares (host : Host σ Deed) : Prop :=
  ∀ (seat : Nat) (bus : Bus) (older : List (Entry Deed)), bus.dispatching.isSome →
    host.Abides seat (Underway.Since seat bus older)

theorem Behaviour.declares (b : Behaviour σ Deed) (patience depth : Nat) :
    (Host.ofBehaviour b.declaring patience depth).Declares :=
  fun seat _ older hbus => b.underway patience depth seat hbus older

/-- A handler's call, from the bus's point of view. -/
theorem Host.Declares.call {host : Host σ Deed} (hh : host.Declares) {w : World σ Deed}
    (hw : w.runner.bus.dispatching.isSome) (h : Handle) (n : Notice) :
    ∃ es v, Play.callHandler host h n w = .ok () v ∧ w.Hears es v ∧
      (∀ d ∈ deedsAt w.seat es, d.bus.caller = some h) ∧
      ∀ kind, calledAt w.seat kind es = if n.kind = kind then [h] else [] := by
  let older := Entry.handled w.seat h n.kind :: w.journal
  let bus := w.runner.bus.calling (some h)
  let w' := (w.withBus bus).noting (.handled w.seat h n.kind)
  have hbus : bus.dispatching.isSome := by rwa [Bus.dispatching_calling]
  have hcaller : bus.caller = some h := by
    obtain ⟨d, hd⟩ := Option.isSome_iff_exists.1 (w.runner.bus.isSome_dispatching ▸ hw)
    simp [bus, Bus.caller, Bus.running, Bus.calling, hd]
  have hstart : World.Watched w.seat (Underway.Since w.seat bus older) w' w' :=
    .refl (World.bus?_seat w') ⟨[], rfl, .nil⟩
  obtain ⟨v, hv, hwatched⟩ := Play.callHandler_ends
    (fun _ _ hv => hv.noting fun _ hΦ => (Underway.overseen w.seat bus older).other hΦ _ rfl)
    (((hh w.seat bus older hbus).handle w.seat h n).wp hstart)
  have hseat : v.seat = w.seat := hwatched.seat
  obtain ⟨es, hes, hunder⟩ := hwatched.front hseat
  have hdeeds : deedsAt w.seat (es ++ [.handled w.seat h n.kind]) = deedsAt w.seat es := by
    rw [deedsAt_append]
    exact List.append_nil _
  refine ⟨es ++ [.handled w.seat h n.kind], v, hv, ⟨hseat, fun t => ?_, by rw [hes, List.append_assoc]; rfl, ?_⟩,
    fun d hd => ?_, fun kind => ?_⟩
  · exact (hwatched.seats t).trans (World.Watched.isSome_withBus w bus t)
  · exact (Heard.handled h n.kind (.turned (some h) .nil)).trans hunder.heard
  · rw [hdeeds] at hd
    rw [Bus.caller, hunder.steady d hd]
    exact hcaller
  · rw [calledAt_append, hunder.alone]
    by_cases hkind : n.kind = kind <;> simp [calledAt, Entry.called?, hkind]

/-! ### Turns -/

/-- A subscription that the walk comes to, and the world before. -/
structure Turn (σ : Type) where
  entry : Subscription
  before : World σ Deed

namespace Turn

def isLive (host : Host σ Deed) (t : Turn σ) : Bool := t.before.isLive host t.entry

/-- Whether the subscription outlasts its turn. -/
def stays (host : Host σ Deed) (t : Turn σ) : Bool := t.isLive host && !t.entry.once

end Turn

def World.isConsumed (w : World σ Deed) : Bool := (w.runner.bus.current.map Dispatch.consumed).getD false

/-- From `w` to `u`, the subscriptions on the walked list from position `i` on have had these turns: live ones are
called, unless a call before has consumed the notice. -/
inductive Turns (host : Host σ Deed) (n : Notice) : Nat → World σ Deed → List (Turn σ) → World σ Deed → Prop
  | done {i w} : Turns host n i w [] w
  | called {i w v u s turns} : (w.runner.bus.walked n.kind)[i]? = some s → w.isLive host s = true →
      Play.callHandler host s.handler n w = .ok () v → (turns ≠ [] → v.isConsumed = false) →
      Turns host n (i + 1) v turns u → Turns host n i w (⟨s, w⟩ :: turns) u
  | passed {i w u s turns} : (w.runner.bus.walked n.kind)[i]? = some s → w.isLive host s = false →
      Turns host n (i + 1) (w.withBus (w.runner.bus.calling none)) turns u → Turns host n i w (⟨s, w⟩ :: turns) u

/-- The positions that the walk has put down for removal, after these turns from position `i` on. -/
def removed (host : Host σ Deed) : Nat → List (Turn σ) → List Nat → List Nat
  | _, [], gone => gone
  | i, t :: turns, gone => removed host (i + 1) turns (if t.stays host then gone else i :: gone)

section
variable {host : Host σ Deed} {n : Notice} {i : Nat} {gone : List Nat} {w v : World σ Deed} {s : Subscription}

theorem visit_none (fuel : Nat) (hs : (w.runner.bus.walked n.kind)[i]? = none) :
    Play.visit host n (fuel + 1) i gone w = .ok gone w := by
  rw [Play.visit]
  refine (run_bind_ok (run_get w)).trans ?_
  rw [hs]
  rfl

theorem visit_called (fuel : Nat) (hs : (w.runner.bus.walked n.kind)[i]? = some s) (hlive : w.isLive host s = true)
    (hcall : Play.callHandler host s.handler n w = .ok () v) :
    Play.visit host n (fuel + 1) i gone w =
      if v.isConsumed then .ok (if s.once then i :: gone else gone) v
      else Play.visit host n fuel (i + 1) (if s.once then i :: gone else gone) v := by
  rw [Play.visit]
  refine (run_bind_ok (run_get w)).trans ?_
  rw [hs]
  dsimp only
  rw [if_pos hlive, run_bind_ok hcall]
  show (if v.isConsumed then _ else _ : Play σ Deed (List Nat)) v = _
  cases v.isConsumed <;> rfl

theorem visit_passed (fuel : Nat) (hs : (w.runner.bus.walked n.kind)[i]? = some s) (hlive : w.isLive host s = false) :
    Play.visit host n (fuel + 1) i gone w =
      Play.visit host n fuel (i + 1) (i :: gone) (w.withBus (w.runner.bus.calling none)) := by
  rw [Play.visit]
  refine (run_bind_ok (run_get w)).trans ?_
  rw [hs]
  dsimp only
  rw [if_neg (by simp [hlive])]
  rfl

end

/-- The walk ends after the last subscription or the call that consumed the notice, unless it runs out of patience. -/
theorem visit_turns (host : Host σ Deed) (n : Notice) (fuel i : Nat) (gone : List Nat) (w : World σ Deed) :
    ∃ turns u, Turns host n i w turns u ∧
      ((Play.visit host n fuel i gone w = .ok (removed host i turns gone) u ∧
          ((u.runner.bus.walked n.kind)[i + turns.length]? = none ∨ u.isConsumed = true)) ∨
        (Play.visit host n fuel i gone w = .error .exhausted u ∧ turns.length = fuel)) := by
  induction fuel generalizing i gone w with
  | zero => exact ⟨[], w, .done, .inr ⟨rfl, rfl⟩⟩
  | succ fuel ih =>
    cases hs : (w.runner.bus.walked n.kind)[i]? with
    | none => exact ⟨[], w, .done, .inl ⟨visit_none fuel hs, .inl hs⟩⟩
    | some s =>
      cases hlive : w.isLive host s with
      | false =>
        obtain ⟨turns, u, hturns, hrun⟩ := ih (i + 1) (i :: gone) (w.withBus (w.runner.bus.calling none))
        refine ⟨⟨s, w⟩ :: turns, u, .passed hs hlive hturns, ?_⟩
        rw [visit_passed fuel hs hlive, removed, Turn.stays, Turn.isLive, hlive, List.length_cons]
        simpa [Nat.add_assoc, Nat.add_comm 1] using hrun
      | true =>
        obtain ⟨v, hcall, -⟩ : ∃ v, Play.callHandler host s.handler n w = .ok () v ∧ True :=
          Play.callHandler_ends (fun _ _ _ => trivial) (wp_of_after trivial)
        rw [visit_called fuel hs hlive hcall]
        cases hconsumed : v.isConsumed with
        | true =>
          refine ⟨[⟨s, w⟩], v, .called hs hlive hcall (fun h => absurd rfl h) .done, .inl ⟨?_, .inr hconsumed⟩⟩
          rw [if_pos rfl, removed, Turn.stays, Turn.isLive, hlive]
          cases s.once <;> rfl
        | false =>
          obtain ⟨turns, u, hturns, hrun⟩ := ih (i + 1) (if s.once then i :: gone else gone) v
          refine ⟨⟨s, w⟩ :: turns, u, .called hs hlive hcall (fun _ => hconsumed) hturns, ?_⟩
          rw [if_neg Bool.false_ne_true, removed, Turn.stays, Turn.isLive, hlive, List.length_cons]
          cases honce : s.once <;> simpa [Nat.add_assoc, Nat.add_comm 1, honce] using hrun

/-- The handlers that were called in these turns. -/
def calledIn (host : Host σ Deed) (turns : List (Turn σ)) : List Handle :=
  (turns.filter (Turn.isLive host)).map fun t => t.entry.handler

theorem calledIn_cons_of_live {host : Host σ Deed} {t : Turn σ} (ht : t.isLive host = true) (turns : List (Turn σ)) :
    calledIn host (t :: turns) = t.entry.handler :: calledIn host turns := by
  rw [calledIn, List.filter_cons_of_pos ht]
  rfl

theorem calledIn_cons_of_dead {host : Host σ Deed} {t : Turn σ} (ht : t.isLive host = false) (turns : List (Turn σ)) :
    calledIn host (t :: turns) = calledIn host turns := by
  rw [calledIn, List.filter_cons_of_neg (by simp [ht])]
  rfl

theorem Bus.walked_of_dispatching {b : Bus} {kind : EventKind} (hb : b.dispatching = some kind) :
    b.walked kind = b.trail := by
  obtain ⟨d, hd, hkind⟩ := current_of_dispatching hb
  exact hkind ▸ walked_eq_trail hd

/-- The subscription that the walk is at comes right after those before it. -/
theorem Bus.trail_split {b : Bus} {kind : EventKind} (hb : b.dispatching = some kind) {front rest : List Subscription}
    (htrail : b.trail = front ++ rest) {s : Subscription} (hs : (b.walked kind)[front.length]? = some s) :
    ∃ rest', b.trail = front ++ s :: rest' := by
  rw [walked_of_dispatching hb, htrail, List.getElem?_append_right (Nat.le_refl _), Nat.sub_self] at hs
  cases rest with
  | nil => cases hs
  | cons t rest =>
    cases hs
    exact ⟨rest, htrail⟩

/-- What happens to the bus in these turns; considerate handlers let the walk go on where it was. -/
theorem Turns.hears {host : Host σ Deed} (hh : host.Declares) {n : Notice} {i : Nat} {w u : World σ Deed}
    {turns : List (Turn σ)} (h : Turns host n i w turns u) (hw : w.runner.bus.dispatching = some n.kind) :
    ∃ es, w.Hears es u ∧
      (∀ kind, calledAt w.seat kind es = if n.kind = kind then (calledIn host turns).reverse else []) ∧
      (Considerate w.seat es → w.runner.bus.Ordered → ∀ front rest, w.runner.bus.trail = front ++ rest →
        front.length = i → ∃ ahead, u.runner.bus.trail = front ++ (turns.map Turn.entry ++ ahead)) := by
  induction h with
  | @done i w =>
    refine ⟨[], .refl w, fun kind => ?_, fun _ _ front rest htrail _ => ⟨rest, htrail⟩⟩
    split <;> rfl
  | @called i w v u s turns hs hlive hcall _ _ ih =>
    have hdispatching : w.runner.bus.dispatching.isSome := by rw [hw]; rfl
    obtain ⟨es, v', hcall', hhears, hcaller, hcalled⟩ := hh.call hdispatching s.handler n
    rw [hcall] at hcall'
    cases hcall'
    obtain ⟨es', hhears', hcalled', hahead⟩ := ih (hhears.heard.dispatching.trans hw)
    rw [hhears.seat] at hcalled' hahead
    refine ⟨es' ++ es, hhears.trans hhears', fun kind => ?_, ?_⟩
    · rw [calledAt_append, hcalled, hcalled', calledIn_cons_of_live (t := ⟨s, w⟩) hlive]
      split <;> simp
    · rintro hgood hordered front rest htrail rfl
      rw [considerate_append] at hgood
      obtain ⟨rest₁, hrest₁⟩ := Bus.trail_split hw htrail hs
      obtain ⟨rest₂, hrest₂⟩ := hhears.heard.trail_append hgood.2 hordered hcaller hrest₁
      obtain ⟨ahead, hahead⟩ := hahead hgood.1 (hhears.heard.ordered hordered) (front ++ [s]) rest₂ (by simp [hrest₂])
        (by simp)
      exact ⟨ahead, by simp [hahead]⟩
  | @passed i w u s turns hs hlive _ ih =>
    obtain ⟨es, hhears, hcalled, hahead⟩ := ih (by rw [← hw]; exact Bus.dispatching_calling ..)
    refine ⟨es, ?_, fun kind => ?_, ?_⟩
    · have := (World.Hears.calling w none).trans hhears
      rwa [List.append_nil] at this
    · rw [calledIn_cons_of_dead (t := ⟨s, w⟩) hlive]
      exact hcalled kind
    · rintro hgood hordered front rest htrail rfl
      obtain ⟨rest₁, hrest₁⟩ := Bus.trail_split hw htrail hs
      obtain ⟨ahead, hahead⟩ := hahead hgood hordered (front ++ [s]) rest₁
        (by rw [← List.append_cons]; exact (Bus.trail_calling ..).trans hrest₁) (by simp)
      exact ⟨ahead, by simp [hahead]⟩

/-- Removing what the walk has put down leaves what stays, and does not touch what is ahead of it. -/
theorem removePositions_removed (host : Host σ Deed) (turns : List (Turn σ)) {gone : List Nat}
    {front kept : List Subscription} (hgone : ∀ rest, removePositions gone (front ++ rest) = kept ++ rest)
    (ahead : List Subscription) :
    removePositions (removed host front.length turns gone) (front ++ (turns.map Turn.entry ++ ahead)) =
      kept ++ ((turns.filter (Turn.stays host)).map Turn.entry ++ ahead) := by
  induction turns generalizing front kept gone with
  | nil => exact hgone ahead
  | cons t turns ih =>
    have hlength : (front ++ [t.entry]).length = front.length + 1 := by simp
    have hentries : front ++ ((t :: turns).map Turn.entry ++ ahead) =
        (front ++ [t.entry]) ++ (turns.map Turn.entry ++ ahead) := by simp
    rw [removed, ← hlength, hentries]
    cases hstays : t.stays host with
    | true =>
      have hgone' (rest : List Subscription) :
          removePositions gone ((front ++ [t.entry]) ++ rest) = (kept ++ [t.entry]) ++ rest := by
        rw [← List.append_cons, ← List.append_cons, hgone]
      rw [if_pos rfl, ih hgone', List.filter_cons_of_pos hstays]
      simp
    | false =>
      have hgone' (rest : List Subscription) :
          removePositions (front.length :: gone) ((front ++ [t.entry]) ++ rest) = kept ++ rest := by
        rw [← List.append_cons]
        show removePositions gone ((front ++ t.entry :: rest).eraseIdx front.length) = _
        rw [List.eraseIdx_append_of_length_le (Nat.le_refl _), Nat.sub_self]
        exact hgone rest
      rw [if_neg Bool.false_ne_true, ih hgone', List.filter_cons_of_neg (by simp [hstays])]

/-- The same from the start of the list. -/
theorem removePositions_removed_nil (host : Host σ Deed) (turns : List (Turn σ)) (ahead : List Subscription) :
    removePositions (removed host 0 turns []) (turns.map Turn.entry ++ ahead) =
      (turns.filter (Turn.stays host)).map Turn.entry ++ ahead := by
  have hnone (rest : List Subscription) : removePositions [] ([] ++ rest) = [] ++ rest := rfl
  exact removePositions_removed host turns hnone ahead

end Parley
