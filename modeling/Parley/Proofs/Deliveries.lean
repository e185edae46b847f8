import Parley.Proofs.OneShots

/-! # Deliveries

A bus takes its notices through their handlers one by one, in the order in which they were published, whatever the
handlers do meanwhile. `Delivered` tells the history of a bus so far as that goes: outside dispatches nothing waits.
Code can only lose track of it by publishing or asking for more than there is the patience for (`AtRest`). -/

namespace Parley
variable {σ α : Type}

/-! ### What the journal says about notices -/

def Entry.published? (seat : Nat) : Entry Deed → Option Notice
  | .published s n => if s = seat then some n else none
  | _ => none

def Entry.handled? (seat : Nat) : Entry Deed → Option (EventKind × Handle)
  | .handled s h kind => if s = seat then some (kind, h) else none
  | _ => none

/-- The notices that were published at the seat, the latest first. -/
def publishedAt (seat : Nat) (journal : List (Entry Deed)) : List Notice :=
  journal.filterMap (Entry.published? seat)

/-- The handlers that were called at the seat, with the kind of the notice, the latest first. -/
def handledAt (seat : Nat) (journal : List (Entry Deed)) : List (EventKind × Handle) :=
  journal.filterMap (Entry.handled? seat)

/-- The handlers that were called for notices of the kind. -/
def callsOf (kind : EventKind) (calls : List (EventKind × Handle)) : List Handle :=
  calls.filterMap fun call => if call.1 = kind then some call.2 else none

section
variable {seat : Nat} {newer older : List (Entry Deed)} {e : Entry Deed}

theorem publishedAt_append : publishedAt seat (newer ++ older) = publishedAt seat newer ++ publishedAt seat older :=
  List.filterMap_append

theorem handledAt_append : handledAt seat (newer ++ older) = handledAt seat newer ++ handledAt seat older :=
  List.filterMap_append

theorem publishedAt_cons_of_aside (he : e.isAt seat = false) :
    publishedAt seat (e :: older) = publishedAt seat older := by
  refine List.filterMap_cons_none ?_
  cases e with
  | published s n => exact if_neg (ne_of_beq_false he)
  | _ => rfl

theorem handledAt_cons_of_aside (he : e.isAt seat = false) :
    handledAt seat (e :: older) = handledAt seat older := by
  refine List.filterMap_cons_none ?_
  cases e with
  | handled s h kind => exact if_neg (ne_of_beq_false he)
  | _ => rfl

theorem publishedAt_cons_published (n : Notice) :
    publishedAt seat (.published seat n :: older) = n :: publishedAt seat older :=
  List.filterMap_cons_some (if_pos rfl)

theorem calledAt_eq (kind : EventKind) (journal : List (Entry Deed)) :
    calledAt seat kind journal = callsOf kind (handledAt seat journal) := by
  rw [calledAt, callsOf, handledAt, List.filterMap_filterMap]
  refine congrArg (journal.filterMap ·) (funext fun e => ?_)
  cases e with
  | handled s h k => by_cases hs : s = seat <;> simp [Entry.called?, Entry.handled?, hs]
  | _ => rfl

end

theorem callsOf_cons (kind k : EventKind) (handler : Handle) (calls : List (EventKind × Handle)) :
    callsOf kind ((k, handler) :: calls) = if k = kind then handler :: callsOf kind calls else callsOf kind calls := by
  unfold callsOf
  split
  · next h => exact List.filterMap_cons_some (if_pos h)
  · next h => exact List.filterMap_cons_none (if_neg h)

/-- Calls of one kind only. -/
theorem eq_map_of_callsOf {kind : EventKind} {handlers : List Handle} {calls : List (EventKind × Handle)}
    (h : ∀ k, callsOf k calls = if kind = k then handlers else []) :
    calls = handlers.map fun handler => (kind, handler) := by
  induction calls generalizing handlers with
  | nil =>
    have hnil := h kind
    rw [if_pos rfl] at hnil
    rw [← hnil]
    rfl
  | cons call calls ih =>
    obtain ⟨k, handler⟩ := call
    have hkind : kind = k := Decidable.byContradiction fun hkind => by
      have := h k
      rw [callsOf_cons, if_pos rfl, if_neg hkind] at this
      cases this
    subst hkind
    have hhead := h kind
    rw [callsOf_cons, if_pos rfl, if_pos rfl] at hhead
    rw [← hhead, List.map_cons]
    refine congrArg _ (ih fun k => ?_)
    have hk := h k
    rw [callsOf_cons] at hk
    split at hk
    · next hkind => rw [if_pos hkind, hkind]
    · next hkind => rw [if_neg hkind, hk]

/-! ### The queue -/

namespace Bus

theorem queue_detach (b : Bus) (kind : EventKind) : (b.detach kind).queue = b.queue := by
  unfold detach
  dsimp only
  split
  · rfl
  · split <;> rfl

theorem queue_clear (b : Bus) (kind : Option EventKind) : (b.clear kind).queue = b.queue := by
  cases kind with
  | some kind => exact b.queue_detach kind
  | none =>
    show (b.lists.foldl (fun b l => b.detach l.1) b).queue = b.queue
    induction b.lists generalizing b with
    | nil => rfl
    | cons l lists ih => exact (ih _).trans (b.queue_detach l.1)

theorem queue_finish (b : Bus) (kind : EventKind) (positions : List Nat) :
    (b.finish kind positions).queue = b.queue := by
  unfold finish
  split
  · rfl
  · dsimp only
    split
    · rfl
    · split <;> rfl
    · rfl

end Bus

theorem Operation.queue_onBus (op : Operation) (b : Bus) : (op.onBus b).queue = b.queue := by
  cases op with
  | unsubscribe kind handler =>
    show (b.unsubscribe kind handler).queue = b.queue
    unfold Bus.unsubscribe
    split
    · rfl
    · exact b.queue_detach kind
  | clearBus kind => exact b.queue_clear kind
  | _ => rfl

/-- What is published meanwhile waits at the end. -/
theorem Heard.queue_eq {seat : Nat} {b b' : Bus} {es : List (Entry Deed)} (h : Heard seat b es b') :
    b'.queue = b.queue ++ (publishedAt seat es).reverse := by
  induction h with
  | nil => exact (List.append_nil _).symm
  | aside he _ ih =>
    rw [publishedAt_cons_of_aside he]
    exact ih
  | published n _ ih =>
    rw [publishedAt_cons_published, List.reverse_cons, ← List.append_assoc, ← ih]
    rfl
  | asked op _ ih =>
    rw [op.queue_onBus]
    exact ih
  | handled _ _ _ ih | turned _ _ ih => exact ih

/-! ### One notice after the other -/

/-- A notice that was dispatched, and the handlers that were called. -/
structure Delivery where
  notice : Notice
  handlers : List Handle

namespace Delivery

def calls (d : Delivery) : List (EventKind × Handle) := d.handlers.map fun handler => (d.notice.kind, handler)

end Delivery

/-- The history of a bus that was new at first, with the deliveries so far, the latest first. While a notice waits the
only thing to happen is that the first one is dispatched. As long as the patience lasts, that calls all handlers on the
list or until one consumes the notice. -/
inductive Delivered (b : Behaviour σ Deed) (patience seat : Nat) : List Delivery → Bus → List (Entry Deed) → Prop
  | new : Delivered b patience seat [] {} []
  | aside {taken bus journal e} : bus.queue = [] → e.isAt seat = false → Delivered b patience seat taken bus journal →
      Delivered b patience seat taken bus (e :: journal)
  | asked {taken bus journal} (op : Operation) : bus.queue = [] → Delivered b patience seat taken bus journal →
      Delivered b patience seat taken (op.onBus bus) (.marked ⟨seat, bus, op⟩ :: journal)
  | published {taken bus journal} (n : Notice) : bus.queue = [] → Delivered b patience seat taken bus journal →
      Delivered b patience seat taken (bus.queued n) (.published seat n :: journal)
  | dispatched {taken n depth es turns gone} {w u : World σ Deed} : w.seat = seat →
      Delivered b patience seat taken { w.runner.bus with queue := n :: w.runner.bus.queue } w.journal →
      Dispatched (Host.ofBehaviour b.declaring patience depth) n w es turns u gone →
      ((filedAt seat n.kind es).length ≤ patience →
        (u.runner.bus.walked n.kind)[turns.length]? = none ∨ u.isConsumed = true) →
      Delivered b patience seat (⟨n, calledIn (Host.ofBehaviour b.declaring patience depth) turns⟩ :: taken)
        (u.runner.bus.finish n.kind gone) (es ++ w.journal)
  | ended {taken bus journal} : bus.queue = [] → Delivered b patience seat taken bus journal →
      Delivered b patience seat taken bus.endRound journal

namespace Delivered
variable {b : Behaviour σ Deed} {patience seat : Nat} {taken : List Delivery} {bus : Bus} {journal : List (Entry Deed)}

theorem idle (h : Delivered b patience seat taken bus journal) : bus.current = none := by
  induction h with
  | new => rfl
  | aside _ _ _ ih | ended _ _ ih => exact ih
  | published n _ _ ih => exact ih
  | @asked _ bus _ op _ _ ih =>
    have hrunning := op.running_onBus bus
    rw [Bus.running, Bus.running, ih, Option.map_none, Option.map_eq_none_iff] at hrunning
    exact hrunning
  | dispatched => exact Bus.current_finish ..

/-- First come, first served; no notice is lost, and none comes twice. -/
theorem fifo (h : Delivered b patience seat taken bus journal) :
    (taken.map Delivery.notice).reverse ++ bus.queue = (publishedAt seat journal).reverse := by
  induction h with
  | new => rfl
  | aside _ he _ ih =>
    rw [publishedAt_cons_of_aside he]
    exact ih
  | asked op _ _ ih =>
    rw [op.queue_onBus]
    exact ih
  | published n _ _ ih =>
    rw [publishedAt_cons_published, List.reverse_cons, ← ih, List.append_assoc]
    rfl
  | @dispatched taken n _ es _ _ w u hseat _ hd _ ih =>
    subst hseat
    have hqueue : u.runner.bus.queue = w.runner.bus.queue ++ (publishedAt w.seat es).reverse := hd.hears.heard.queue_eq
    rw [Bus.queue_finish, hqueue, publishedAt_append, List.reverse_append, ← ih]
    simp
  | ended _ _ ih => exact ih

/-- The handlers of one notice are through before those of the next one are called. -/
theorem handled (h : Delivered b patience seat taken bus journal) :
    (handledAt seat journal).reverse = taken.reverse.flatMap Delivery.calls := by
  induction h with
  | new => rfl
  | aside _ he _ ih =>
    rw [handledAt_cons_of_aside he]
    exact ih
  | asked _ _ _ ih | published _ _ _ ih | ended _ _ ih => exact ih
  | @dispatched taken n depth es turns _ w _ hseat _ hd _ ih =>
    subst hseat
    have hcalls : handledAt w.seat es =
        (calledIn (Host.ofBehaviour b.declaring patience depth) turns).reverse.map fun handler => (n.kind, handler) :=
      eq_map_of_callsOf fun kind => (calledAt_eq kind es).symm.trans (hd.called kind)
    rw [handledAt_append, List.reverse_append, ih, hcalls, List.reverse_cons, List.flatMap_append,
      List.flatMap_singleton, Delivery.calls, List.map_reverse, List.reverse_reverse]

end Delivered

/-- No more has been published or asked for at the seat than there is the patience for. -/
def Bearable (patience seat : Nat) (journal : List (Entry Deed)) : Prop :=
  (publishedAt seat journal).length ≤ patience ∧ (deedsAt seat journal).length ≤ patience

instance (patience seat : Nat) (journal : List (Entry Deed)) : Decidable (Bearable patience seat journal) :=
  inferInstanceAs (Decidable (_ ∧ _))

theorem Bearable.of_append {patience seat : Nat} {newer older : List (Entry Deed)}
    (h : Bearable patience seat (newer ++ older)) : Bearable patience seat newer ∧ Bearable patience seat older := by
  obtain ⟨hpublished, hdeeds⟩ := h
  rw [publishedAt_append, List.length_append] at hpublished
  rw [deedsAt_append, List.length_append] at hdeeds
  exact ⟨⟨by omega, by omega⟩, by omega, by omega⟩

/-- The patience has run out some time after a history that is known. -/
def Lost (b : Behaviour σ Deed) (patience seat : Nat) (journal : List (Entry Deed)) : Prop :=
  ∃ newer older taken bus, journal = newer ++ older ∧ Delivered b patience seat taken bus older ∧
    ¬ Bearable patience seat older

/-- Between two rounds of publishing no notice waits. -/
def AtRest (b : Behaviour σ Deed) (patience seat : Nat) (bus : Bus) (journal : List (Entry Deed)) : Prop :=
  (∃ taken, Delivered b patience seat taken bus journal ∧ bus.queue = []) ∨ Lost b patience seat journal

section
variable {b : Behaviour σ Deed} {patience seat : Nat} {taken : List Delivery} {bus : Bus} {journal : List (Entry Deed)}

theorem Lost.cons (h : Lost b patience seat journal) (e : Entry Deed) : Lost b patience seat (e :: journal) := by
  obtain ⟨newer, older, taken, bus, rfl, hdelivered, hspent⟩ := h
  exact ⟨e :: newer, older, taken, bus, rfl, hdelivered, hspent⟩

theorem Delivered.lost (h : Delivered b patience seat taken bus journal) (hspent : ¬ Bearable patience seat journal) :
    Lost b patience seat journal :=
  ⟨[], journal, taken, bus, rfl, h, hspent⟩

/-- No more notices are dispatched than were published. -/
theorem Delivered.length_le (h : Delivered b patience seat taken bus journal) :
    taken.length ≤ (publishedAt seat journal).length := by
  have hlength := congrArg List.length h.fifo
  rw [List.length_append, List.length_reverse, List.length_map, List.length_reverse] at hlength
  omega

theorem AtRest.overseen (b : Behaviour σ Deed) (patience seat : Nat) : Overseen seat (AtRest b patience seat) where
  other h e he := by
    rcases h with ⟨taken, h, hqueue⟩ | h
    · exact .inl ⟨taken, .aside hqueue he h, hqueue⟩
    · exact .inr (h.cons e)
  asked h op := by
    rcases h with ⟨taken, h, hqueue⟩ | h
    · exact .inl ⟨taken, .asked op hqueue h, (op.queue_onBus _).trans hqueue⟩
    · exact .inr (h.cons _)

end

/-! ### A round of publishing -/

section
variable {b : Behaviour σ Deed} {patience : Nat} {w : World σ Deed}

/-- The first notice that waits is dispatched. -/
theorem Delivered.dispatch {taken : List Delivery} {n : Notice} (depth : Nat)
    (h : Delivered b patience w.seat taken { w.runner.bus with queue := n :: w.runner.bus.queue } w.journal) :
    wp (Play.dispatch (Host.ofBehaviour b.declaring patience depth) n)
      (fun _ => World.Watched w.seat
        (fun bus journal => ∃ handlers, Delivered b patience w.seat (⟨n, handlers⟩ :: taken) bus journal) w)
      (fun _ => World.Watched w.seat (fun _ => Lost b patience w.seat) w) w := by
  obtain ⟨es, turns, u, gone, hd, hover⟩ := (b.declares patience depth).dispatch_over n w
  rw [Host.patience_ofBehaviour] at hover
  have hdelivered := Delivered.dispatched rfl h hd fun hfiled => (hover hfiled).2
  have hends := hd.ends
  unfold after at hends
  unfold wp
  cases hrun : Play.dispatch (Host.ofBehaviour b.declaring patience depth) n w with
  | ok consumed v =>
    rw [hrun] at hends
    subst hends
    exact hd.watched ⟨_, hdelivered⟩
  | error f v =>
    rw [hrun] at hends
    subst hends
    refine hd.watched (hdelivered.lost fun hbearable => ?_)
    have hfiled : (filedAt w.seat n.kind es).length ≤ (deedsAt w.seat es).length := List.length_filterMap_le ..
    rw [(hover (Nat.le_trans hfiled hbearable.of_append.1.2)).1] at hrun
    cases hrun

/-- All that waits is dispatched, however much the handlers add: the fuel is spent on dispatches only, so where it runs
out more has been published than there is the patience for. -/
theorem Delivered.drain (depth fuel : Nat) {v : World σ Deed}
    (hv : World.Watched w.seat (fun bus journal => ∃ taken, Delivered b patience w.seat taken bus journal ∧
      patience < taken.length + fuel) w v) :
    wp (Play.drain (Host.ofBehaviour b.declaring patience depth) fuel)
      (fun _ => World.Watched w.seat
        (fun bus journal => ∃ taken, Delivered b patience w.seat taken bus journal ∧ bus.queue = []) w)
      (fun _ => World.Watched w.seat (fun _ => Lost b patience w.seat) w) v := by
  obtain ⟨taken, h, hfuel⟩ := hv.front hv.seat
  induction fuel generalizing v taken with
  | zero =>
    refine hv.of_front hv.seat (h.lost fun hbearable => ?_)
    have := h.length_le
    have := hbearable.1
    omega
  | succ fuel ih =>
    refine Play.wp_drain (fun hqueue => hv.of_front hv.seat ⟨taken, h, hqueue⟩) fun n rest hqueue => ?_
    let v' := v.withBus { v.runner.bus with queue := rest }
    have hnext : World.Watched w.seat (fun _ _ => True) w v' := (hv.of_front hv.seat trivial).withBus hv.seat trivial
    have hwaits : Delivered b patience v'.seat taken { v'.runner.bus with queue := n :: v'.runner.bus.queue }
        v'.journal := by
      rw [← hv.seat, show v.runner.bus = { v.runner.bus with queue := n :: rest } from by rw [← hqueue]] at h
      exact h
    have hdispatch := hwaits.dispatch depth
    rw [hnext.seat] at hdispatch
    refine wp_mono hdispatch (fun _ u hu => ?_) fun _ _ hu => hnext.trans hu
    obtain ⟨handlers, hu'⟩ := hu.front (hu.seat.trans hnext.seat)
    have hfuel' : patience < (⟨n, handlers⟩ :: taken : List Delivery).length + fuel := by
      rw [List.length_cons]
      omega
    exact ih ((hnext.trans hu).of_front (hu.seat.trans hnext.seat) ⟨_, hu', hfuel'⟩) _ hu' hfuel'

/-- When it comes to an end, no notice waits. -/
theorem Play.round_idle (host : Host σ Deed) (n : Notice) :
    wp (Play.round host n) (fun _ v => v.runner.bus.current = none ∧ v.runner.bus.queue = []) (fun _ _ => True) w := by
  have hdispatch (n : Notice) (v : World σ Deed) :
      wp (Play.dispatch host n) (fun _ v => v.runner.bus.current = none) (fun _ _ => True) v := by
    unfold wp
    rw [Play.dispatch_run]
    cases Play.visit host n _ 0 [] (v.beginning n.kind) with
    | ok => exact Bus.current_finish ..
    | error => trivial
  have hdrain (fuel : Nat) {v : World σ Deed} (hv : v.runner.bus.current = none) :
      wp (Play.drain host fuel) (fun _ v => v.runner.bus.current = none ∧ v.runner.bus.queue = []) (fun _ _ => True)
        v := by
    induction fuel generalizing v with
    | zero => trivial
    | succ fuel ih =>
      refine Play.wp_drain (fun hqueue => ⟨hv, hqueue⟩) fun n rest _ => ?_
      exact wp_mono (hdispatch n _) (fun _ _ h => ih h) fun _ _ h => h
  rw [Play.round, wp_bind]
  refine wp_mono (hdispatch n w) (fun _ v hv => ?_) fun _ _ h => h
  rw [wp_bind]
  exact wp_mono (hdrain _ hv) (fun _ _ h => h) fun _ _ h => h

/-- Where nothing waits, a notice is the first in line as soon as it is published. -/
theorem Delivered.publish {taken : List Delivery} (depth : Nat) (n : Notice)
    (h : Delivered b patience w.seat taken w.runner.bus w.journal) (hqueue : w.runner.bus.queue = []) :
    wp (Play.publish (Host.ofBehaviour b.declaring patience depth) n)
      (fun _ => World.Watched w.seat
        (fun bus journal => ∃ taken, Delivered b patience w.seat taken bus journal ∧ bus.queue = []) w)
      (fun _ => World.Watched w.seat (fun _ => Lost b patience w.seat) w) w := by
  let w' := w.noting (.published w.seat n)
  have hnoted : World.Watched w.seat (fun _ _ => True) w w' := ⟨rfl, fun _ => rfl, _, World.bus?_seat w, trivial⟩
  have hwaits : Delivered b patience w'.seat taken { w'.runner.bus with queue := n :: w'.runner.bus.queue }
      w'.journal := by
    have hpublished := Delivered.published n hqueue h
    rw [Bus.queued, hqueue] at hpublished
    show Delivered b patience w.seat taken { w.runner.bus with queue := n :: w.runner.bus.queue } _
    rw [hqueue]
    exact hpublished
  unfold wp
  rw [Play.publish_of_idle _ n h.idle]
  show wp (Play.round _ n) _ _ w'
  rw [Play.round, wp_bind]
  refine wp_mono (hwaits.dispatch depth) (fun _ v hv => ?_) fun _ _ hv => hnoted.trans hv
  obtain ⟨handlers, hv'⟩ := hv.front hv.seat
  have hdrain : patience < (⟨n, handlers⟩ :: taken : List Delivery).length + (patience + 1) := by
    rw [List.length_cons]
    omega
  rw [wp_bind, Host.patience_ofBehaviour]
  refine wp_mono (Delivered.drain depth (patience + 1) ((hnoted.trans hv).of_front hv.seat ⟨_, hv', hdrain⟩))
    (fun _ u hu => ?_) fun _ _ hu => hu
  obtain ⟨taken, hu', hempty⟩ := hu.front hu.seat
  exact hu.withBus hu.seat ⟨taken, .ended hempty hu', hempty⟩

theorem AtRest.publish (depth : Nat) (n : Notice) (hw : World.Watched w.seat (AtRest b patience w.seat) w w) :
    wp (Play.publish (Host.ofBehaviour b.declaring patience depth) n)
      (fun _ => World.Watched w.seat (AtRest b patience w.seat) w)
      (fun _ => World.Watched w.seat (AtRest b patience w.seat) w) w := by
  have hstill {v : World σ Deed} (hv : World.Watched w.seat (fun _ => Lost b patience w.seat) w v) :
      World.Watched w.seat (AtRest b patience w.seat) w v :=
    hv.of_front hv.seat (.inr (hv.front hv.seat))
  rcases hw.front rfl with ⟨taken, h, hqueue⟩ | hlost
  · exact wp_mono (h.publish depth n hqueue) (fun _ v hv => hv.of_front hv.seat (.inl (hv.front hv.seat)))
      fun _ _ hv => hstill hv
  · have hhost := b.abides_journal patience depth w.seat (J := Lost b patience w.seat) fun e _ h => h.cons e
    exact wp_mono ((hhost.publish (fun e _ h => h.cons e) n).wp (hw.of_front rfl hlost)) (fun _ _ hv => hstill hv)
      fun _ _ hv => hstill hv

end

theorem Behaviour.atRest (b : Behaviour σ Deed) (patience depth seat : Nat) :
    (Host.ofBehaviour b.declaring patience depth).Abides seat (AtRest b patience seat) := by
  refine b.abides (AtRest.overseen b patience seat) (fun depth _ n w hw hseat => ?_) depth
  subst hseat
  exact AtRest.publish depth n hw

/-- Whatever code and handlers do to a bus that was new at first, faults included: its notices are dispatched in the
order in which they were published, each one once, and no handler of one is called before those of the one before are
through. What is published while a notice is dispatched waits, what is published otherwise is dispatched at once; and
when that call returns, nothing waits. -/
theorem Behaviour.delivered_in_order (b : Behaviour σ Deed) (patience depth seat : Nat) (c : Code σ Deed α)
    {host : Host σ Deed} (hhost : host = Host.ofBehaviour b.declaring patience depth) {w v : World σ Deed}
    (hw : w.journal = []) (hbus : w.bus? seat = some {})
    (hv : v = after (c.declaring.run fun op => Play.perform host op) w) :
    (∃ newer older taken bus, v.journal = newer ++ older ∧ Delivered b patience seat taken bus older ∧
      (taken.map Delivery.notice).reverse ++ bus.queue = (publishedAt seat older).reverse ∧
      (handledAt seat older).reverse = taken.reverse.flatMap Delivery.calls ∧
      (Bearable patience seat older →
        newer = [] ∧ v.bus? seat = some bus ∧ bus.current = none ∧ bus.queue = [])) ∧
    ∀ (n : Notice) (u : World σ Deed),
      (u.runner.bus.current.isSome → Play.publish host n u =
        .ok false ((u.noting (.published u.seat n)).withBus (u.runner.bus.queued n))) ∧
      (u.runner.bus.current = none → Play.publish host n u = Play.round host n (u.noting (.published u.seat n)) ∧
        ∀ consumed u', Play.publish host n u = .ok consumed u' →
          u'.runner.bus.current = none ∧ u'.runner.bus.queue = []) := by
  subst hhost hv
  have hoverseen := AtRest.overseen b patience seat
  have hhost := b.atRest patience depth seat
  have hpublish := hoverseen.publish hhost fun n v hv hseat => by
    subst hseat
    exact AtRest.publish depth n hv
  have hstart : World.Watched seat (AtRest b patience seat) w w := .refl hbus (hw ▸ .inl ⟨[], .new, rfl⟩)
  obtain ⟨bus, hfront, hrest⟩ := (wp_after ((hoverseen.code hhost hpublish c).wp hstart)).shows
  refine ⟨?_, fun n u => ⟨fun hcurrent => ?_, fun hidle => ?_⟩⟩
  · rcases hrest with ⟨taken, h, hqueue⟩ | ⟨newer, older, taken, bus', hjournal, h, hspent⟩
    · exact ⟨[], _, taken, bus, rfl, h, h.fifo, h.handled, fun _ => ⟨rfl, hfront, h.idle, hqueue⟩⟩
    · exact ⟨newer, older, taken, bus', hjournal, h, h.fifo, h.handled, fun hbearable => absurd hbearable hspent⟩
  · exact Play.publish_of_dispatching _ n (by rwa [Bus.isSome_dispatching])
  · have hround := Play.publish_of_idle (Host.ofBehaviour b.declaring patience depth) n hidle
    refine ⟨hround, fun consumed u' hrun => ?_⟩
    rw [hround] at hrun
    exact (wp_ok hrun).1 (Play.round_idle ..)

/-- Handler 1 publishes two notices and fails, handler 2 publishes another one. -/
def Behaviour.cascading : Behaviour Unit Deed where
  read _ := .fail .exhausted
  write _ _ := .fail .exhausted
  call _ _ := .fail .exhausted
  callRaw _ _ := .fail .exhausted
  handle seat h _ :=
    if h = 1 then .ask seat (.publish .nodeEntered []) fun _ => .ask seat (.publish .choiceSelected []) fun _ =>
      .fail .exhausted
    else if h = 2 then .ask seat (.publish .dialogueCompleted []) fun _ => .pure ()
    else .pure ()
  owns _ _ := false

theorem Behaviour.delivered_in_order_cascading :
    ∃ (host : Host Unit Deed) (c : Code Unit Deed Unit) (v : World Unit Deed) (taken : List Delivery) (bus : Bus),
      v = after (c.declaring.run fun op => Play.perform host op) { host := () } ∧
      (handledAt 0 v.journal).reverse = [(.waitRequested, 1), (.waitRequested, 3), (.nodeEntered, 2),
        (.choiceSelected, 3), (.dialogueCompleted, 3)] ∧
      Delivered .cascading 10 0 taken bus v.journal ∧
      (taken.map Delivery.notice).reverse = (publishedAt 0 v.journal).reverse ∧
      (handledAt 0 v.journal).reverse = taken.reverse.flatMap Delivery.calls ∧
      v.bus? 0 = some bus ∧ bus.current = none ∧ bus.queue = [] := by
  let host : Host Unit Deed := Host.ofBehaviour Behaviour.cascading.declaring 10 1
  let c : Code Unit Deed Unit := .asking [.subscribe .waitRequested ⟨1, 1, false, false⟩,
    .subscribe .waitRequested ⟨0, 3, false, false⟩, .subscribe .nodeEntered ⟨0, 2, false, false⟩,
    .subscribe .choiceSelected ⟨0, 3, false, false⟩, .subscribe .dialogueCompleted ⟨0, 3, false, false⟩,
    .publish .waitRequested []]
  let v := after (c.declaring.run fun op => Play.perform host op) { host := () }
  have hbearable : Bearable 10 0 v.journal := by decide +kernel
  obtain ⟨⟨newer, older, taken, bus, hjournal, h, hfifo, hhandled, hrest⟩, -⟩ :=
    Behaviour.delivered_in_order .cascading 10 1 0 c rfl (w := { host := () }) (v := v) rfl rfl rfl
  rw [hjournal] at hbearable
  obtain ⟨rfl, hbus, hidle, hempty⟩ := hrest hbearable.of_append.2
  obtain rfl : v.journal = older := hjournal
  rw [hempty, List.append_nil] at hfifo
  exact ⟨host, c, v, taken, bus, rfl, by decide +kernel, h, hfifo, hhandled, hbus, hidle, hempty⟩

end Parley
