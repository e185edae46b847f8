import Parley.Proofs.Turns

/-! # Dispatches

A dispatch opens the walk, gives the subscriptions their turns, and takes out those whose time is over. -/

namespace Parley
variable {σ : Type}

namespace Bus

/-- The bus at the start of a dispatch. -/
def opening (b : Bus) (kind : EventKind) : Bus := { b with current := some { kind } }

theorem walks_opening (b : Bus) (kind : EventKind) : (b.opening kind).walks kind = true := by
  cases kind <;> rfl

theorem standing_opening (b : Bus) (kind other : EventKind) : (b.opening kind).standing other = b.entries other := by
  rw [standing, adrift, opening]
  dsimp only
  split <;> exact List.append_nil _

theorem dispatching_of_walks {b : Bus} {kind : EventKind} (h : b.walks kind = true) : b.dispatching = some kind := by
  obtain ⟨d, hd, hwalks⟩ := (Option.any_eq_true ..).1 h
  rw [Bool.and_eq_true, beq_iff_eq] at hwalks
  rw [dispatching, running, hd, ← hwalks.1]
  rfl

end Bus

theorem Heard.length_trail {seat : Nat} {b b' : Bus} {es : List (Entry Deed)} (h : Heard seat b es b')
    {kind : EventKind} (hkind : b.dispatching = some kind) :
    b'.trail.length ≤ (filedAt seat kind es).length + b.trail.length := by
  induction h with
  | nil => exact Nat.le_add_left ..
  | aside he _ ih =>
    rw [filedAt_cons_of_aside he]
    exact ih
  | handled _ _ _ ih => exact ih
  | published n _ ih => exact ih
  | turned hd _ ih =>
    rw [Bus.trail_calling]
    exact ih
  | asked op h ih =>
    rw [filedAt_cons_marked, op.trail_onBus, List.length_append]
    cases op with
    | subscribe k s =>
      dsimp only
      split
      · next hwalks =>
        have hk : k = kind := by
          have := (Bus.dispatching_of_walks hwalks).symm.trans (h.dispatching.trans hkind)
          exact Option.some.inj this
        have hfiled : (Operation.subscribe k s).files kind = some s := if_pos hk
        rw [(perm_insertSubscription s _).length_eq, hfiled, List.length_cons, Option.toList_some,
          List.length_singleton]
        omega
      · omega
    | _ => dsimp only; omega

/-- What is walked gets no shorter. -/
theorem Heard.le_length_trail {seat : Nat} {b b' : Bus} {es : List (Entry Deed)} (h : Heard seat b es b') :
    b.trail.length ≤ b'.trail.length := by
  induction h with
  | nil => exact Nat.le_refl _
  | aside _ _ ih | handled _ _ _ ih | published _ _ ih => exact ih
  | turned hd _ ih =>
    rw [Bus.trail_calling]
    exact ih
  | asked op _ ih =>
    rw [op.trail_onBus]
    cases op with
    | subscribe kind s =>
      dsimp only
      split
      · rw [(perm_insertSubscription s _).length_eq, List.length_cons]
        omega
      · exact ih
    | _ => exact ih

/-- No more subscriptions have had turns than there are on the list. -/
theorem Turns.length_le {host : Host σ Deed} (hh : host.Declares) {n : Notice} {i : Nat} {w u : World σ Deed}
    {turns : List (Turn σ)} (h : Turns host n i w turns u) (hw : w.runner.bus.dispatching = some n.kind)
    (hi : i ≤ w.runner.bus.trail.length) : i + turns.length ≤ u.runner.bus.trail.length := by
  induction h with
  | done => exact hi
  | @called i w v u s turns hs _ hcall _ _ ih =>
    obtain ⟨es, v', hcall', hhears, -, -⟩ := hh.call (by rw [hw]; rfl) s.handler n
    rw [hcall] at hcall'
    cases hcall'
    rw [Bus.walked_of_dispatching hw] at hs
    obtain ⟨hlt, -⟩ := List.getElem?_eq_some_iff.1 hs
    have hmore := hhears.heard.le_length_trail
    have hrest := ih (hhears.heard.dispatching.trans hw) (by omega)
    rw [List.length_cons]
    omega
  | @passed i w u s turns hs _ _ ih =>
    rw [Bus.walked_of_dispatching hw] at hs
    obtain ⟨hlt, -⟩ := List.getElem?_eq_some_iff.1 hs
    have hsame : (w.withBus (w.runner.bus.calling none)).runner.bus.trail = w.runner.bus.trail := Bus.trail_calling ..
    have hrest := ih (by rw [← hw]; exact Bus.dispatching_calling ..) (by rw [hsame]; omega)
    rw [List.length_cons]
    omega

namespace World

def beginning (w : World σ Deed) (kind : EventKind) : World σ Deed := w.withBus (w.runner.bus.opening kind)

def finishing (w : World σ Deed) (kind : EventKind) (gone : List Nat) : World σ Deed :=
  w.withBus (w.runner.bus.finish kind gone)

end World

theorem Play.dispatch_run (host : Host σ Deed) (n : Notice) (w : World σ Deed) : dispatch host n w =
    match visit host n (host.patience + (w.runner.bus.entries n.kind).length + 1) 0 [] (w.beginning n.kind) with
    | .ok gone u => .ok u.isConsumed (u.finishing n.kind gone)
    | .error f u => .error f (u.finishing n.kind []) := by
  have hopen : modifyBus (fun b => { b with current := some { kind := n.kind } }) w =
      .ok () (w.beginning n.kind) := rfl
  refine (run_bind_ok (run_get w)).trans ((run_bind_ok hopen).trans ?_)
  dsimp only
  cases visit host n _ 0 [] (w.beginning n.kind) <;> rfl

/-- A dispatch: what was written meanwhile, the turns, the world after them, and the positions taken out. -/
structure Dispatched (host : Host σ Deed) (n : Notice) (w : World σ Deed) (es : List (Entry Deed))
    (turns : List (Turn σ)) (u : World σ Deed) (gone : List Nat) : Prop where
  walk : Turns host n 0 (w.beginning n.kind) turns u
  hears : (w.beginning n.kind).Hears es u
  called : ∀ kind, calledAt w.seat kind es = if n.kind = kind then (calledIn host turns).reverse else []
  ends : after (Play.dispatch host n) w = u.finishing n.kind gone
  course : Considerate w.seat es → w.runner.bus.Ordered → (filedAt w.seat n.kind es).length ≤ host.patience →
    Play.dispatch host n w = .ok u.isConsumed (u.finishing n.kind gone) ∧ gone = removed host 0 turns [] ∧
      ∃ ahead, u.runner.bus.trail = turns.map Turn.entry ++ ahead ∧ (ahead ≠ [] → u.isConsumed = true)

/-- What is watched meanwhile has to bear the bus as it is in the end. -/
theorem Dispatched.watched {host : Host σ Deed} {n : Notice} {w u : World σ Deed} {es : List (Entry Deed)}
    {turns : List (Turn σ)} {gone : List Nat} (h : Dispatched host n w es turns u gone)
    {Φ : Bus → List (Entry Deed) → Prop} (hΦ : Φ (u.runner.bus.finish n.kind gone) (es ++ w.journal)) :
    World.Watched w.seat Φ w (u.finishing n.kind gone) := by
  have hseats (t : Nat) : (u.bus? t).isSome = (w.bus? t).isSome :=
    (h.hears.seats t).trans (World.Watched.isSome_withBus ..)
  refine ⟨h.hears.seat, fun t => (World.Watched.isSome_withBus ..).trans (hseats t), u.runner.bus.finish n.kind gone,
    ?_, ?_⟩
  · rw [← show (u.finishing n.kind gone).seat = w.seat from h.hears.seat]
    exact World.bus?_seat _
  · show Φ _ u.journal
    rw [h.hears.journal]
    exact hΦ

/-- All handlers have their turns, or the notice is consumed, if the patience lasts for what is put in meanwhile. -/
theorem Host.Declares.dispatch_over {host : Host σ Deed} (hh : host.Declares) (n : Notice) (w : World σ Deed) :
    ∃ es turns u gone, Dispatched host n w es turns u gone ∧ ((filedAt w.seat n.kind es).length ≤ host.patience →
      Play.dispatch host n w = .ok u.isConsumed (u.finishing n.kind gone) ∧
        ((u.runner.bus.walked n.kind)[turns.length]? = none ∨ u.isConsumed = true)) := by
  obtain ⟨turns, u, hturns, hrun⟩ := visit_turns host n
    (host.patience + (w.runner.bus.entries n.kind).length + 1) 0 [] (w.beginning n.kind)
  have hdispatching : (w.beginning n.kind).runner.bus.dispatching = some n.kind := rfl
  obtain ⟨es, hhears, hcalled, hcourse⟩ := hturns.hears hh hdispatching
  rcases hrun with ⟨hvisit, hend⟩ | ⟨hvisit, hspent⟩
  · have hdispatch : Play.dispatch host n w = .ok u.isConsumed (u.finishing n.kind (removed host 0 turns [])) := by
      rw [Play.dispatch_run, hvisit]
    rw [Nat.zero_add] at hend
    refine ⟨es, turns, u, _, ⟨hturns, hhears, hcalled, by rw [after, hdispatch], fun hgood hordered _ => ?_⟩,
      fun _ => ⟨hdispatch, hend⟩⟩
    obtain ⟨ahead, htrail⟩ := hcourse hgood hordered [] _ rfl rfl
    refine ⟨hdispatch, rfl, ahead, htrail, fun hne => hend.resolve_left fun hnone => hne ?_⟩
    rw [Bus.walked_of_dispatching (hhears.heard.dispatching.trans hdispatching), htrail, List.nil_append,
      List.getElem?_eq_none_iff, List.length_append, List.length_map] at hnone
    exact List.eq_nil_of_length_eq_zero (by omega)
  · have hdispatch : Play.dispatch host n w = .error .exhausted (u.finishing n.kind []) := by
      rw [Play.dispatch_run, hvisit]
    have hspent : ¬ (filedAt w.seat n.kind es).length ≤ host.patience := by
      -- there are not that many turns to have
      have hwalked := hturns.length_le hh hdispatching (Nat.zero_le _)
      have hlength : u.runner.bus.trail.length ≤
          (filedAt w.seat n.kind es).length + (w.runner.bus.entries n.kind).length :=
        hhears.heard.length_trail hdispatching
      omega
    exact ⟨es, turns, u, [], ⟨hturns, hhears, hcalled, by rw [after, hdispatch], fun _ _ h => absurd h hspent⟩,
      fun h => absurd h hspent⟩

theorem Host.Declares.dispatch {host : Host σ Deed} (hh : host.Declares) (n : Notice) (w : World σ Deed) :
    ∃ es turns u gone, Dispatched host n w es turns u gone :=
  have ⟨es, turns, u, gone, h, _⟩ := hh.dispatch_over n w
  ⟨es, turns, u, gone, h⟩

/-! ### Rounds of dispatches -/

section
variable {host : Host σ Deed} {seat : Nat} {Φ : Bus → List (Entry Deed) → Prop}
  (hlists : ∀ (b b' : Bus) journal, Φ b journal → b'.lists = b.lists → b'.current = b.current → Φ b' journal)
  (hdispatch : ∀ n {w : World σ Deed}, w.seat = seat → Φ w.runner.bus w.journal →
    World.Watched seat Φ w (after (Play.dispatch host n) w))
include hlists hdispatch

/-- What every dispatch leaves intact outlasts the dispatches of all that waits. -/
theorem Play.drain_watched (fuel : Nat) {w v : World σ Deed} (hseat : w.seat = seat) (h : World.Watched seat Φ w v) :
    wp (drain host fuel) (fun _ => World.Watched seat Φ w) (fun _ => World.Watched seat Φ w) v := by
  induction fuel generalizing v with
  | zero => exact h
  | succ fuel ih =>
    refine wp_drain (fun _ => h) fun n rest _ => ?_
    have hfront : v.seat = seat := h.seat.trans hseat
    let v' := v.withBus { v.runner.bus with queue := rest }
    have hnext : World.Watched seat Φ w v' := h.withBus hfront (hlists _ _ _ (h.front hfront) rfl rfl)
    have hdispatched : World.Watched seat Φ w (after (dispatch host n) v') :=
      hnext.trans (hdispatch n hfront (hnext.front hfront))
    exact wp_mono (wp_of_after hdispatched) (fun _ _ h => ih h) fun _ _ h => h

/-- So it does a whole round. -/
theorem Play.round_watched (n : Notice) {w : World σ Deed} (hseat : w.seat = seat) (h : World.Watched seat Φ w w) :
    wp (round host n) (fun _ => World.Watched seat Φ w) (fun _ => World.Watched seat Φ w) w := by
  have hdispatched := hdispatch n hseat (h.front hseat)
  rw [round, wp_bind]
  refine wp_mono (wp_of_after hdispatched) (fun _ v hv => ?_) fun _ _ h => h
  rw [wp_bind]
  refine wp_mono (drain_watched hlists hdispatch _ hseat hv) (fun _ v hv => ?_) fun _ _ h => h
  have hfront : v.seat = seat := hv.seat.trans hseat
  exact hv.withBus hfront (hlists _ _ _ (hv.front hfront) rfl rfl)

end

/-! ### What every change of a bus leaves intact -/

/-- What is true of a bus and the journal of its seat outlasts whatever changes the lists, or puts it on record. -/
structure Endures (seat : Nat) (Φ : Bus → List (Entry Deed) → Prop) : Prop where
  lists : ∀ {b b' journal}, Φ b journal → b'.lists = b.lists → Φ b' journal
  noted : ∀ {b journal}, Φ b journal → ∀ e : Entry Deed, e.deed? seat = none → Φ b (e :: journal)
  asked : ∀ {b journal}, Φ b journal → ∀ op, Φ (op.onBus b) (.marked ⟨seat, b, op⟩ :: journal)
  finished : ∀ {b journal kind}, Φ b journal → b.dispatching = some kind → ∀ gone, Φ (b.finish kind gone) journal

namespace Endures
variable {seat : Nat} {Φ : Bus → List (Entry Deed) → Prop} (h : Endures seat Φ)
include h

theorem heard {b b' : Bus} {journal es : List (Entry Deed)} (hΦ : Φ b journal) (hheard : Heard seat b es b') :
    Φ b' (es ++ journal) := by
  induction hheard with
  | nil => exact hΦ
  | aside he _ ih => exact h.noted ih _ (Entry.deed?_of_aside he)
  | handled _ _ _ ih => exact h.noted ih _ rfl
  | published _ _ ih => exact h.lists (h.noted ih _ rfl) rfl
  | turned _ _ ih => exact h.lists ih rfl
  | asked op _ ih => exact h.asked ih op

theorem overseen : Overseen seat Φ where
  other hΦ e he := h.noted hΦ e (Entry.deed?_of_aside he)
  asked := h.asked

theorem dispatch {host : Host σ Deed} (hh : host.Declares) (n : Notice) {w : World σ Deed} (hseat : w.seat = seat)
    (hΦ : Φ w.runner.bus w.journal) : World.Watched seat Φ w (after (Play.dispatch host n) w) := by
  subst hseat
  obtain ⟨es, turns, u, gone, hd⟩ := hh.dispatch n w
  have hopened : Φ (w.runner.bus.opening n.kind) w.journal := h.lists hΦ rfl
  rw [hd.ends]
  exact hd.watched (h.finished (h.heard hopened hd.hears.heard) hd.hears.heard.dispatching gone)

theorem publish {host : Host σ Deed} (hh : host.Declares) (n : Notice) {w : World σ Deed}
    (hw : World.Watched seat Φ w w) (hseat : w.seat = seat) :
    wp (Play.publish host n) (fun _ => World.Watched seat Φ w) (fun _ => World.Watched seat Φ w) w := by
  by_cases hidle : w.runner.bus.current = none
  · have hnoted : World.Watched seat Φ w (w.noting (.published w.seat n)) := hw.noting fun _ hb => h.noted hb _ rfl
    have hlists (b b' : Bus) (journal) (hb : Φ b journal) (heq : b'.lists = b.lists) (_ : b'.current = b.current) :
        Φ b' journal := h.lists hb heq
    have hfront : (w.noting (.published w.seat n)).seat = seat := hseat
    have hround := Play.round_watched hlists (fun n _ => h.dispatch hh n) n hfront hnoted.rebase
    unfold wp
    rw [Play.publish_of_idle host n hidle]
    exact wp_mono hround (fun _ _ h => hnoted.trans h) fun _ _ h => hnoted.trans h
  · have hbusy : w.runner.bus.dispatching.isSome := by
      rw [Bus.isSome_dispatching]
      exact Option.isSome_iff_ne_none.2 hidle
    rw [wp_ok (Play.publish_of_dispatching host n hbusy)]
    exact hw.noting_withBus hseat (h.lists (h.noted (hw.front hseat) _ rfl) rfl)

theorem abides (b : Behaviour σ Deed) (patience depth : Nat) :
    (Host.ofBehaviour b.declaring patience depth).Abides seat Φ :=
  b.abides h.overseen (fun depth _ n _ hw hseat => h.publish (b.declares patience depth) n hw hseat) depth

/-- Code may do what it likes. -/
theorem code (b : Behaviour σ Deed) (patience depth : Nat) {α : Type} (c : Code σ Deed α) :
    Abides seat Φ (c.declaring.run fun op => Play.perform (Host.ofBehaviour b.declaring patience depth) op) :=
  h.overseen.code (h.abides b patience depth)
    (h.overseen.publish (h.abides b patience depth) fun n _ hw hseat => h.publish (b.declares patience depth) n hw hseat) c

end Endures

/-! ### Subscribing meanwhile -/

/-- The dispatch has passed over no subscription and lost none, whatever was put in (`es`): each one of the kind has had
one turn or is still ahead, the live ones were called in their turns, and all but those whose time is over are left. -/
structure Undisturbed (host : Host σ Deed) (n : Notice) (w : World σ Deed) (es : List (Entry Deed))
    (turns : List (Turn σ)) (ahead : List Subscription) (v : World σ Deed) : Prop where
  walk : ∃ u, Turns host n 0 (w.beginning n.kind) turns u
  listed : turns.map Turn.entry ++ ahead =
    (filedAt w.seat n.kind es).foldr insertSubscription (w.runner.bus.entries n.kind)
  called : (calledAt w.seat n.kind es).reverse = calledIn host turns
  left : v.runner.bus.entries n.kind = (turns.filter (Turn.stays host)).map Turn.entry ++ ahead
  others : ∀ kind ≠ n.kind, v.runner.bus.entries kind =
    (filedAt w.seat kind es).foldr insertSubscription (w.runner.bus.entries kind)

theorem Dispatched.undisturbed {host : Host σ Deed} {n : Notice} {w u : World σ Deed} {es : List (Entry Deed)}
    {turns : List (Turn σ)} {gone : List Nat} (h : Dispatched host n w es turns u gone)
    (honly : ∀ d ∈ deedsAt w.seat es, d.op.removes = false) (hgone : gone = removed host 0 turns [])
    {ahead : List Subscription} (htrail : u.runner.bus.trail = turns.map Turn.entry ++ ahead) :
    Undisturbed host n w es turns ahead (u.finishing n.kind gone) := by
  have hheard := h.hears.heard.entries_eq honly
  have hwalks : u.runner.bus.walks n.kind = true := (hheard n.kind).1.trans (Bus.walks_opening ..)
  obtain ⟨d, hd, hdetached⟩ := (Option.any_eq_true ..).1 hwalks
  rw [Bool.and_eq_true, Option.isNone_iff_eq_none] at hdetached
  have hentries : u.runner.bus.entries n.kind = turns.map Turn.entry ++ ahead := by
    rw [← htrail, Bus.trail_of_walks hwalks]
  refine ⟨⟨u, h.walk⟩, ?_, ?_, ?_, fun kind hkind => ?_⟩
  · rw [← hentries]
    exact (hheard n.kind).2
  · rw [h.called, if_pos rfl, List.reverse_reverse]
  · show (u.runner.bus.finish n.kind gone).entries n.kind = _
    rw [Bus.entries_finish hd, if_pos ⟨rfl, hdetached.2⟩, hentries, hgone]
    exact removePositions_removed_nil host turns ahead
  · show (u.runner.bus.finish n.kind gone).entries kind = _
    rw [Bus.entries_finish hd, if_neg fun h => hkind h.1]
    exact (hheard kind).2

/-- Handlers that put nothing in before themselves may subscribe as they like while a notice is dispatched. -/
theorem Behaviour.dispatch_undisturbed (b : Behaviour σ Deed) (patience depth : Nat) (n : Notice) {w : World σ Deed}
    (hordered : w.runner.bus.Ordered) {es : List (Entry Deed)}
    (hes : (after (Play.dispatch (Host.ofBehaviour b.declaring patience depth) n) w).journal = es ++ w.journal)
    (honly : ∀ d ∈ deedsAt w.seat es, d.op.removes = false) (hgood : Considerate w.seat es)
    (hpatience : (filedAt w.seat n.kind es).length ≤ patience) :
    ∃ turns ahead consumed v, Play.dispatch (Host.ofBehaviour b.declaring patience depth) n w = .ok consumed v ∧
      Undisturbed (Host.ofBehaviour b.declaring patience depth) n w es turns ahead v ∧
      (ahead ≠ [] → consumed = true) := by
  obtain ⟨es', turns, u, gone, h⟩ := (b.declares patience depth).dispatch n w
  have hjournal : es' ++ w.journal = es ++ w.journal := by
    rw [← hes, h.ends]
    exact h.hears.journal.symm
  cases List.append_cancel_right hjournal
  have hlimit : (Host.ofBehaviour b.declaring patience depth).patience = patience := by cases depth <;> rfl
  obtain ⟨hrun, hgone, ahead, htrail, hcut⟩ := h.course hgood hordered (by rw [hlimit]; exact hpatience)
  exact ⟨turns, ahead, _, _, hrun, h.undisturbed honly hgone htrail, hcut⟩

/-- Handler 1 asks for an operation, when it is called for the first time. -/
def Behaviour.meddling (op : EventKind → Operation) : Behaviour Bool Deed where
  read _ := .fail .exhausted
  write _ _ := .fail .exhausted
  call _ _ := .fail .exhausted
  callRaw _ _ := .fail .exhausted
  handle seat h n := .look fun w =>
    if h = 1 ∧ w.host = false then .keep true (.ask seat (op n.kind) fun _ => .pure ()) else .pure ()
  owns _ _ := false

/-- Handler 1 brings in handler 2. -/
def Behaviour.recruiting (priority : Int) : Behaviour Bool Deed :=
  .meddling fun kind => .subscribe kind ⟨priority, 2, false, false⟩

/-- Handler 0 is to be called once, before handler 1. -/
def Bus.recruited : Bus :=
  (({} : Bus).subscribe .waitRequested ⟨5, 0, true, false⟩).subscribe .waitRequested ⟨0, 1, false, false⟩

theorem Bus.ordered_recruited : Bus.recruited.Ordered :=
  Operation.ordered_onBus (Operation.ordered_onBus ordered_empty (.subscribe ..)) (.subscribe ..)

theorem Behaviour.dispatch_undisturbed_recruiting :
    ∃ (host : Host Bool Deed) (n : Notice) (w v : World Bool Deed) (es : List (Entry Deed)) (turns : List (Turn Bool))
      (ahead : List Subscription) (consumed : Bool),
      n.kind = .waitRequested ∧ w.runner.bus = Bus.recruited ∧
      filedAt 0 .waitRequested es = [⟨0, 2, false, false⟩] ∧ (calledAt 0 .waitRequested es).reverse = [0, 1, 2] ∧
      Play.dispatch host n w = .ok consumed v ∧ Undisturbed host n w es turns ahead v ∧
      (ahead ≠ [] → consumed = true) := by
  let n : Notice := .custom .waitRequested []
  let host : Host Bool Deed := Host.ofBehaviour (Behaviour.recruiting 0).declaring 1 1
  let w : World Bool Deed := { host := false, runner := { bus := Bus.recruited } }
  let es := (after (Play.dispatch host n) w).journal
  have hes : es = es ++ w.journal := (List.append_nil es).symm
  obtain ⟨turns, ahead, consumed, v, hrun, hundisturbed, hcut⟩ := Behaviour.dispatch_undisturbed
    (Behaviour.recruiting 0) 1 1 n (w := w) Bus.ordered_recruited hes (by decide +kernel) (by decide +kernel)
    (by decide +kernel)
  exact ⟨host, n, w, v, es, turns, ahead, consumed, rfl, rfl, by decide +kernel, by decide +kernel, hrun, hundisturbed,
    hcut⟩

/-- A subscription that goes in before the walk moves those under it: handler 1 is called twice, and when handler 0's
time is over the new subscription goes in its stead. -/
theorem pushed_back :
    ∃ (host : Host Bool Deed) (n : Notice) (w v : World Bool Deed),
      host = Host.ofBehaviour (Behaviour.recruiting 10).declaring 1 1 ∧ n.kind = .waitRequested ∧ w.journal = [] ∧
      w.runner.bus = Bus.recruited ∧ w.runner.bus.Ordered ∧ v = after (Play.dispatch host n) w ∧
      (∃ consumed, Play.dispatch host n w = .ok consumed v) ∧ (∀ d ∈ deedsAt 0 v.journal, d.op.removes = false) ∧
      filedAt 0 .waitRequested v.journal = [⟨10, 2, false, false⟩] ∧
      (calledAt 0 .waitRequested v.journal).reverse = [0, 1, 1] ∧
      v.runner.bus.entries .waitRequested = [⟨5, 0, true, false⟩, ⟨0, 1, false, false⟩] := by
  let n : Notice := .custom .waitRequested []
  let host : Host Bool Deed := Host.ofBehaviour (Behaviour.recruiting 10).declaring 1 1
  let w : World Bool Deed := { host := false, runner := { bus := Bus.recruited } }
  exact ⟨host, n, w, _, rfl, rfl, rfl, rfl, Bus.ordered_recruited, rfl, ⟨false, rfl⟩, by decide +kernel,
    by decide +kernel, by decide +kernel, by decide +kernel⟩

end Parley
