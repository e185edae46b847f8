import Parley.Proofs.OneShots

/-! # Who gets a notice

The lists of a bus are in the order in which their handlers are called: higher priorities come first, and among equal
ones what was subscribed first (`Ranked`). Every operation keeps them so, since a new subscription goes behind its equals
and the others only take away; so does the end of a dispatch. Where the handlers of a notice leave the lists alone, the
walk gives each subscription its turn in that order, and in the end those are gone whose time is over
(`Behaviour.served_by_rank`). -/

namespace Parley
variable {σ α : Type}

/-- The subscriptions of one priority. -/
def ofPriority (p : Int) (entries : List Subscription) : List Subscription := entries.filter (·.priority == p)

/-- The place at which a subscription goes into a list. -/
def slot (s : Subscription) (entries : List Subscription) : Nat := entries.findIdx fun t => t.priority < s.priority

theorem insertSubscription_eq (s : Subscription) (entries : List Subscription) :
    insertSubscription s entries = entries.take (slot s entries) ++ s :: entries.drop (slot s entries) := by
  induction entries with
  | nil => rfl
  | cons t rest ih =>
    rw [insertSubscription, slot, List.findIdx_cons]
    by_cases ht : t.priority < s.priority
    · simp [ht]
    · simp [ht, ih, slot]

/-- What is in front of that place does not give way. -/
theorem le_of_mem_take_slot {s t : Subscription} {entries : List Subscription} (ht : t ∈ entries.take (slot s entries)) :
    s.priority ≤ t.priority := by
  obtain ⟨i, hi, rfl⟩ := List.getElem_of_mem ht
  rw [List.length_take] at hi
  have hlt : i < entries.findIdx fun t => t.priority < s.priority := by
    unfold slot at hi
    omega
  simpa using List.not_of_lt_findIdx hlt

/-- What is behind it is lower. -/
theorem lt_of_mem_drop_slot {s t : Subscription} {entries : List Subscription} (h : Sorted entries)
    (ht : t ∈ entries.drop (slot s entries)) : t.priority < s.priority := by
  induction entries with
  | nil => simp at ht
  | cons u rest ih =>
    obtain ⟨hu, hrest⟩ := List.pairwise_cons.1 h
    rw [slot, List.findIdx_cons] at ht
    by_cases hlt : u.priority < s.priority
    · simp only [hlt, decide_true, cond_true, List.drop_zero, List.mem_cons] at ht
      rcases ht with rfl | ht
      · exact hlt
      · exact Int.lt_of_le_of_lt (hu t ht) hlt
    · simp only [hlt, decide_false, cond_false, List.drop_succ_cons] at ht
      exact ih hrest ht

theorem insertSubscription_split {entries : List Subscription} (h : Sorted entries) (s : Subscription) :
    ∃ front back, entries = front ++ back ∧ insertSubscription s entries = front ++ s :: back ∧
      ∀ t ∈ back, t.priority < s.priority :=
  ⟨_, _, (List.take_append_drop (slot s entries) entries).symm, insertSubscription_eq s entries,
    fun _ => lt_of_mem_drop_slot h⟩

/-- So it goes behind its equals. -/
theorem ofPriority_insertSubscription {s : Subscription} {entries : List Subscription} (h : Sorted entries) (p : Int) :
    ofPriority p (insertSubscription s entries) = ofPriority p (entries ++ [s]) := by
  obtain ⟨front, back, rfl, hinsert, hback⟩ := insertSubscription_split h s
  rw [hinsert]
  by_cases hp : s.priority = p
  · have hlower : ofPriority p back = [] := by
      refine List.filter_eq_nil_iff.2 fun t ht => ?_
      have := hback t ht
      simp only [beq_iff_eq]
      omega
    simp only [ofPriority] at hlower
    simp [ofPriority, List.filter_append, List.filter_cons, hlower]
  · simp [ofPriority, List.filter_append, hp]

/-- Higher priorities come first, and subscriptions of equal priority in the order in which they were made. -/
structure Ranked (seat : Nat) (b : Bus) (journal : List (Entry Deed)) : Prop where
  ordered : b.Ordered
  aged : ∀ kind p, (ofPriority p (b.entries kind)).Sublist (filedAt seat kind journal).reverse

namespace Ranked
variable {seat : Nat} {b b' : Bus} {journal es : List (Entry Deed)}

theorem empty (seat : Nat) : Ranked seat {} [] := ⟨Bus.ordered_empty, fun _ _ => List.nil_sublist _⟩

/-- What is taken away leaves the rest in order. -/
theorem fewer (h : Ranked seat b journal) (hfewer : ∀ kind, (b'.entries kind).Sublist (b.entries kind)) :
    Ranked seat b' journal where
  ordered kind := (h.ordered kind).sublist (hfewer kind)
  aged kind p := ((hfewer kind).filter _).trans (h.aged kind p)

theorem of_lists (h : Ranked seat b journal) (hlists : b'.lists = b.lists) : Ranked seat b' journal := by
  refine h.fewer fun kind => ?_
  rw [Bus.entries, hlists]
  exact .refl _

theorem later (h : Ranked seat b journal) (es : List (Entry Deed)) : Ranked seat b (es ++ journal) where
  ordered := h.ordered
  aged kind p := by
    rw [filedAt_append, List.reverse_append]
    exact (h.aged kind p).trans (List.sublist_append_left ..)

theorem asked (h : Ranked seat b journal) (op : Operation) :
    Ranked seat (op.onBus b) (.marked ⟨seat, b, op⟩ :: journal) := by
  cases hop : op.removes with
  | true => exact (h.fewer (op.entries_onBus_of_removes hop b)).later [_]
  | false =>
    refine ⟨op.ordered_onBus h.ordered, fun kind p => ?_⟩
    rw [op.entries_onBus hop, filedAt_cons_marked]
    cases op.files kind with
    | none => exact h.aged kind p
    | some s =>
      rw [Option.elim_some, ofPriority_insertSubscription (h.ordered kind), Option.toList_some, List.reverse_append]
      simp only [ofPriority, List.filter_append]
      exact (h.aged kind p).append List.filter_sublist

theorem endures (seat : Nat) : Endures seat (Ranked seat) where
  lists := of_lists
  noted h _ _ := h.later [_]
  asked := asked
  finished h _ _ := h.fewer fun _ => Bus.sublist_entries_finish ..

theorem overseen (seat : Nat) : Overseen seat (Ranked seat) := (endures seat).overseen

theorem publish {host : Host σ Deed} (hh : host.Declares) (n : Notice) {w : World σ Deed}
    (h : World.Watched w.seat (Ranked w.seat) w w) :
    wp (Play.publish host n) (fun _ => World.Watched w.seat (Ranked w.seat) w)
      (fun _ => World.Watched w.seat (Ranked w.seat) w) w :=
  (endures w.seat).publish hh n h rfl

end Ranked

theorem Behaviour.ranked (b : Behaviour σ Deed) (patience depth seat : Nat) :
    (Host.ofBehaviour b.declaring patience depth).Abides seat (Ranked seat) :=
  (Ranked.endures seat).abides b patience depth

/-! ### Handlers that leave the lists alone -/

namespace Operation

/-- Subscribes, unsubscribes or clears. -/
def relists : Operation → Bool
  | .subscribe .. | .unsubscribe .. | .clearBus _ => true
  | _ => false

variable {op : Operation}

theorem not_removes_of_not_relists (h : op.relists = false) : op.removes = false := by
  cases op <;> first | rfl | cases h

theorem files_of_not_relists (h : op.relists = false) (kind : EventKind) : op.files kind = none := by
  cases op <;> first | rfl | cases h

theorem considerate_of_not_relists (h : op.relists = false) (b : Bus) : op.Considerate b := by
  cases op <;> trivial

end Operation

/-- The subscriptions to the notice have had their turns (`turns`) in the order of the list, up to the end of it or to
the call that consumed the notice (`ahead` is what was behind that). The live ones were called in their turns. All are
left but those that were to end with the call, and those that were no longer live. -/
structure ServedInTurn (host : Host σ Deed) (n : Notice) (w : World σ Deed) (es : List (Entry Deed))
    (turns : List (Turn σ)) (ahead : List Subscription) (u v : World σ Deed) : Prop where
  listed : w.runner.bus.entries n.kind = turns.map Turn.entry ++ ahead
  walk : Turns host n 0 (w.beginning n.kind) turns u
  cut : ahead ≠ [] → u.isConsumed = true
  called : ∀ kind, (calledAt w.seat kind es).reverse = if n.kind = kind then calledIn host turns else []
  left : v.runner.bus.entries n.kind = (turns.filter (Turn.stays host)).map Turn.entry ++ ahead
  others : ∀ kind ≠ n.kind, v.runner.bus.entries kind = w.runner.bus.entries kind

/-- What a dispatch writes goes on top of the journal. -/
theorem Host.Declares.journal_dispatch {host : Host σ Deed} (hh : host.Declares) (n : Notice) (w : World σ Deed) :
    (after (Play.dispatch host n) w).journal = (after (Play.dispatch host n) w).journal.take
      ((after (Play.dispatch host n) w).journal.length - w.journal.length) ++ w.journal := by
  obtain ⟨es, turns, u, gone, h⟩ := hh.dispatch n w
  have hjournal : (after (Play.dispatch host n) w).journal = es ++ w.journal := by
    rw [h.ends]
    exact h.hears.journal
  rw [hjournal, List.length_append, Nat.add_sub_cancel, List.take_left]

theorem Host.Declares.served {host : Host σ Deed} (hh : host.Declares) (n : Notice) {w : World σ Deed}
    (hordered : w.runner.bus.Ordered) {es : List (Entry Deed)}
    (hes : (after (Play.dispatch host n) w).journal = es ++ w.journal)
    (hquiet : ∀ d ∈ deedsAt w.seat es, d.op.relists = false) :
    ∃ turns ahead u v, Play.dispatch host n w = .ok u.isConsumed v ∧ ServedInTurn host n w es turns ahead u v := by
  obtain ⟨es', turns, u, gone, h⟩ := hh.dispatch n w
  have hjournal : es' ++ w.journal = es ++ w.journal := by
    rw [← hes, h.ends]
    exact h.hears.journal.symm
  cases List.append_cancel_right hjournal
  have hfiled (kind : EventKind) : filedAt w.seat kind es = [] :=
    List.filterMap_eq_nil_iff.2 fun d hd => Operation.files_of_not_relists (hquiet d hd) kind
  have hgood : Considerate w.seat es := fun d hd => Operation.considerate_of_not_relists (hquiet d hd) d.bus
  obtain ⟨hrun, hgone, ahead, htrail, hcut⟩ := h.course hgood hordered (by rw [hfiled]; exact Nat.zero_le _)
  have hundisturbed := h.undisturbed (fun d hd => Operation.not_removes_of_not_relists (hquiet d hd)) hgone htrail
  refine ⟨turns, ahead, u, _, hrun, ?_, h.walk, hcut, fun kind => ?_, hundisturbed.left, fun kind hkind => ?_⟩
  · have hlisted := hundisturbed.listed
    rw [hfiled] at hlisted
    exact hlisted.symm
  · rw [h.called]
    split
    · exact List.reverse_reverse _
    · rfl
  · have hothers := hundisturbed.others kind hkind
    rwa [hfiled] at hothers

/-- Whatever code has done to a bus that was new at first: where no notice is being dispatched, a notice that is published
is dispatched at once. If its handlers, whatever else they do and however they end, do not subscribe, unsubscribe or clear
on this bus, the live subscriptions to it are called by descending priority and, among equal ones, the older before the
newer, each once, up to the one that leaves the notice consumed. -/
theorem Behaviour.served_by_rank (b : Behaviour σ Deed) (patience depth seat : Nat) (c : Code σ Deed α)
    {host : Host σ Deed} (hhost : host = Host.ofBehaviour b.declaring patience depth) {w₀ w : World σ Deed}
    (hjournal : w₀.journal = []) (hbus : w₀.bus? seat = some {})
    (hw : w = (after (c.declaring.run fun op => Play.perform host op) w₀).turnTo seat)
    (hidle : w.runner.bus.current = none) (n : Notice) {w' : World σ Deed} (hw' : w' = w.noting (.published seat n))
    {es : List (Entry Deed)} (hes : (after (Play.dispatch host n) w').journal = es ++ w'.journal)
    (hquiet : ∀ d ∈ deedsAt seat es, d.op.relists = false) :
    Play.publish host n w = Play.round host n w' ∧ Ranked seat w.runner.bus w.journal ∧
      ∃ turns ahead u v, Play.dispatch host n w' = .ok u.isConsumed v ∧ ServedInTurn host n w' es turns ahead u v := by
  subst hhost
  have hhost := b.ranked patience depth seat
  have hpublish := (Ranked.overseen seat).publish hhost fun n v hv hseat => by
    subst hseat
    exact Ranked.publish (b.declares patience depth) n hv
  have hstart : World.Watched seat (Ranked seat) w₀ w₀ := .refl hbus (hjournal ▸ .empty seat)
  have hwatched := (wp_after (((Ranked.overseen seat).code hhost hpublish c).wp hstart)).turnTo seat
  rw [← hw] at hwatched
  have hseat : w.seat = seat := by
    obtain ⟨bus, hshown, -⟩ := hwatched.shows
    rw [hw]
    refine World.seat_turnTo ?_
    rw [hw, World.bus?_turnTo, World.bus?, Option.map_eq_some_iff] at hshown
    exact Option.isSome_iff_exists.2 (hshown.imp fun _ h => h.1)
  have hranked := hwatched.front hseat
  subst hseat hw'
  have hround := Play.publish_of_idle (Host.ofBehaviour b.declaring patience depth) n hidle
  exact ⟨hround, hranked,
    (b.declares patience depth).served n (w := w.noting (.published w.seat n)) hranked.ordered hes hquiet⟩

/-- Handler 1 fails, handler 2 publishes another notice, and handler 4 consumes the one it gets. -/
def Behaviour.assorted : Behaviour Unit Deed where
  read _ := .fail .exhausted
  write _ _ := .fail .exhausted
  call _ _ := .fail .exhausted
  callRaw _ _ := .fail .exhausted
  handle seat h _ :=
    if h = 1 then .fail .exhausted
    else if h = 2 then .ask seat (.publish .nodeEntered []) fun _ => .pure ()
    else if h = 4 then .ask seat .consume fun _ => .pure ()
    else .pure ()
  owns _ _ := false

theorem Behaviour.served_by_rank_assorted :
    ∃ (host : Host Unit Deed) (c : Code Unit Deed Unit) (n : Notice) (w w' u v : World Unit Deed)
      (es : List (Entry Deed)) (turns : List (Turn Unit)) (ahead : List Subscription),
      n.kind = .waitRequested ∧
      w = (after (c.declaring.run fun op => Play.perform host op) { host := () }).turnTo 0 ∧
      Ranked 0 w.runner.bus w.journal ∧ Play.dispatch host n w' = .ok true v ∧
      ServedInTurn host n w' es turns ahead u v ∧
      w.runner.bus.entries .waitRequested = [⟨5, 1, true, false⟩, ⟨5, 2, false, false⟩, ⟨3, 3, false, true⟩,
        ⟨0, 4, true, false⟩, ⟨0, 5, true, false⟩] ∧
      (calledAt 0 .waitRequested es).reverse = [1, 2, 4] ∧
      v.runner.bus.entries .waitRequested = [⟨5, 2, false, false⟩, ⟨0, 5, true, false⟩] := by
  let host : Host Unit Deed := Host.ofBehaviour Behaviour.assorted.declaring 10 1
  let c : Code Unit Deed Unit := .asking [.subscribe .waitRequested ⟨0, 4, true, false⟩,
    .subscribe .waitRequested ⟨5, 1, true, false⟩, .subscribe .waitRequested ⟨3, 3, false, true⟩,
    .subscribe .waitRequested ⟨5, 2, false, false⟩, .subscribe .waitRequested ⟨0, 5, true, false⟩]
  let n : Notice := .custom .waitRequested []
  let w := (after (c.declaring.run fun op => Play.perform host op) { host := () }).turnTo 0
  let w' := w.noting (.published 0 n)
  let v := after (Play.dispatch host n) w'
  let es := v.journal.take (v.journal.length - w'.journal.length)
  have hes : v.journal = es ++ w'.journal := (Behaviour.assorted.declares 10 1).journal_dispatch n w'
  have hw : w = (after (c.declaring.run fun op => Play.perform host op) { host := () }).turnTo 0 := rfl
  have hw' : w' = w.noting (.published 0 n) := rfl
  obtain ⟨-, hranked, turns, ahead, u, v', hrun, hserved⟩ := Behaviour.served_by_rank .assorted 10 1 0 c rfl rfl rfl hw
    (by decide +kernel) n hw' hes (by decide +kernel)
  have hrun : Play.dispatch host n w' = .ok u.isConsumed v' := hrun
  have hconsumed : (match Play.dispatch host n w' with | .ok consumed _ => consumed | .error .. => false) = true := by
    decide +kernel
  have hafter : v = v' := by
    show after (Play.dispatch host n) w' = v'
    rw [after, hrun]
  rw [hrun] at hconsumed
  subst hafter
  refine ⟨host, c, n, w, w', u, v, es, turns, ahead, rfl, rfl, hranked, ?_, hserved, ?_, ?_, ?_⟩
  · exact hconsumed ▸ hrun
  all_goals decide +kernel

end Parley
