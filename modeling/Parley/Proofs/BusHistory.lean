import Parley.Proofs.Subscriptions

/-! # The history of a bus

What happens to the bus of a seat between two dispatches and during one can be read off the journal: notices that wait,
and what host code declared (`Heard`). Only which handler is being called is not all on record, since the walk passes
over some. -/

namespace Parley
variable {σ μ : Type}

/-! ### What the journal says about one seat -/

/-- The handler that was called at the seat for a notice of the kind. -/
def Entry.called? (seat : Nat) (kind : EventKind) : Entry μ → Option Handle
  | .handled s h k => if s = seat ∧ k = kind then some h else none
  | _ => none

def Entry.deed? (seat : Nat) : Entry Deed → Option Deed
  | .marked d => if d.seat = seat then some d else none
  | _ => none

/-- The handlers that were called at the seat for notices of the kind, the latest first. -/
def calledAt (seat : Nat) (kind : EventKind) (journal : List (Entry μ)) : List Handle :=
  journal.filterMap (Entry.called? seat kind)

/-- What was asked for at the seat, the latest first. -/
def deedsAt (seat : Nat) (journal : List (Entry Deed)) : List Deed := journal.filterMap (Entry.deed? seat)

/-- The subscriptions of the kind that were made at the seat, the latest first. -/
def filedAt (seat : Nat) (kind : EventKind) (journal : List (Entry Deed)) : List Subscription :=
  (deedsAt seat journal).filterMap fun d => d.op.files kind

/-- Every deed at the seat was considerate. -/
def Considerate (seat : Nat) (journal : List (Entry Deed)) : Prop :=
  ∀ d ∈ deedsAt seat journal, d.op.Considerate d.bus

instance (seat : Nat) (journal : List (Entry Deed)) : Decidable (Considerate seat journal) :=
  inferInstanceAs (Decidable (∀ d ∈ _, _))

section
variable {seat : Nat} {kind : EventKind} {newer older : List (Entry Deed)} {e : Entry Deed}

theorem calledAt_append : calledAt seat kind (newer ++ older) = calledAt seat kind newer ++ calledAt seat kind older :=
  List.filterMap_append

theorem deedsAt_append : deedsAt seat (newer ++ older) = deedsAt seat newer ++ deedsAt seat older :=
  List.filterMap_append

theorem filedAt_append : filedAt seat kind (newer ++ older) = filedAt seat kind newer ++ filedAt seat kind older := by
  rw [filedAt, deedsAt_append, List.filterMap_append]
  rfl

theorem considerate_append :
    Considerate seat (newer ++ older) ↔ Considerate seat newer ∧ Considerate seat older := by
  rw [Considerate, deedsAt_append, List.forall_mem_append]
  rfl

theorem Entry.deed?_of_aside (he : e.isAt seat = false) : e.deed? seat = none := by
  cases e with
  | marked d => exact if_neg (ne_of_beq_false he)
  | _ => rfl

theorem deedsAt_cons_of_aside (he : e.isAt seat = false) : deedsAt seat (e :: older) = deedsAt seat older :=
  List.filterMap_cons_none (Entry.deed?_of_aside he)

theorem calledAt_cons_of_aside (he : e.isAt seat = false) :
    calledAt seat kind (e :: older) = calledAt seat kind older := by
  refine List.filterMap_cons_none ?_
  cases e with
  | handled s h k => exact if_neg fun h => ne_of_beq_false he h.1
  | _ => rfl

theorem filedAt_cons_of_aside (he : e.isAt seat = false) :
    filedAt seat kind (e :: older) = filedAt seat kind older := by
  rw [filedAt, deedsAt_cons_of_aside he]
  rfl

theorem deedsAt_cons_marked (b : Bus) (op : Operation) :
    deedsAt seat (.marked ⟨seat, b, op⟩ :: older) = ⟨seat, b, op⟩ :: deedsAt seat older :=
  List.filterMap_cons_some (if_pos rfl)

theorem filedAt_cons_marked (b : Bus) (op : Operation) :
    filedAt seat kind (.marked ⟨seat, b, op⟩ :: older) = (op.files kind).toList ++ filedAt seat kind older := by
  rw [filedAt, deedsAt_cons_marked, List.filterMap_cons]
  dsimp only
  cases op.files kind <;> rfl

theorem considerate_cons_marked (b : Bus) (op : Operation) :
    Considerate seat (.marked ⟨seat, b, op⟩ :: older) ↔ op.Considerate b ∧ Considerate seat older := by
  rw [Considerate, deedsAt_cons_marked, List.forall_mem_cons]
  rfl

end

/-! ### What it says about the bus -/

namespace Bus

theorem trail_calling (b : Bus) (handler : Option Handle) : (b.calling handler).trail = b.trail := by
  unfold trail calling
  cases b.current <;> rfl

theorem standing_calling (b : Bus) (handler : Option Handle) (kind : EventKind) :
    (b.calling handler).standing kind = b.standing kind := by
  unfold standing adrift calling
  cases b.current <;> rfl

theorem walks_calling (b : Bus) (handler : Option Handle) (kind : EventKind) :
    (b.calling handler).walks kind = b.walks kind := by
  unfold walks calling
  cases b.current <;> rfl

/-- The kind that is dispatched. -/
def dispatching (b : Bus) : Option EventKind := b.running.map Prod.fst

theorem current_of_dispatching {b : Bus} {kind : EventKind} (hb : b.dispatching = some kind) :
    ∃ d, b.current = some d ∧ d.kind = kind := by
  rw [dispatching, running, Option.map_map, Option.map_eq_some_iff] at hb
  exact hb

theorem dispatching_calling (b : Bus) (handler : Option Handle) : (b.calling handler).dispatching = b.dispatching := by
  unfold dispatching running calling
  cases b.current <;> rfl

theorem isSome_dispatching (b : Bus) : b.dispatching.isSome = b.current.isSome := by
  unfold dispatching running
  cases b.current <;> rfl

end Bus

/-- At the seat, the bus `b` has become `b'` while these entries were written. -/
inductive Heard (seat : Nat) (b : Bus) : List (Entry Deed) → Bus → Prop
  | nil : Heard seat b [] b
  | aside {e es b'} : e.isAt seat = false → Heard seat b es b' → Heard seat b (e :: es) b'
  | published {es b'} (n : Notice) : Heard seat b es b' → Heard seat b (.published seat n :: es) (b'.queued n)
  | asked {es b'} (op : Operation) : Heard seat b es b' → Heard seat b (.marked ⟨seat, b', op⟩ :: es) (op.onBus b')
  | handled {es b'} (h : Handle) (kind : EventKind) : Heard seat b es b' → Heard seat b (.handled seat h kind :: es) b'
  | turned {es b'} (h : Option Handle) : Heard seat b es b' → Heard seat b es (b'.calling h)

namespace Heard
variable {seat : Nat} {b b' b'' : Bus} {es es' : List (Entry Deed)}

theorem trans (h : Heard seat b es b') (h' : Heard seat b' es' b'') : Heard seat b (es' ++ es) b'' := by
  induction h' with
  | nil => exact h
  | aside he _ ih => exact ih.aside he
  | published n _ ih => exact ih.published n
  | asked op _ ih => exact ih.asked op
  | handled hd kind _ ih => exact ih.handled hd kind
  | turned hd _ ih => exact ih.turned hd

theorem dispatching (h : Heard seat b es b') : b'.dispatching = b.dispatching := by
  induction h with
  | nil => rfl
  | aside _ _ ih | handled _ _ _ ih => exact ih
  | published n _ ih => exact ih
  | asked op _ ih => rw [Bus.dispatching, op.running_onBus]; exact ih
  | turned hd _ ih => rw [Bus.dispatching_calling, ih]

theorem ordered (h : Heard seat b es b') (hb : b.Ordered) : b'.Ordered := by
  induction h with
  | nil => exact hb
  | aside _ _ ih | handled _ _ _ ih | published _ _ ih | turned _ _ ih => exact ih
  | asked op _ ih => exact op.ordered_onBus ih

/-- Every subscription comes from somewhere. -/
theorem mem_standing (h : Heard seat b es b') {kind : EventKind} {s : Subscription} (hs : s ∈ b'.standing kind) :
    s ∈ filedAt seat kind es ++ b.standing kind := by
  induction h with
  | nil => exact hs
  | aside he _ ih =>
    rw [filedAt_cons_of_aside he]
    exact ih hs
  | handled _ _ _ ih => exact ih hs
  | published n _ ih => exact ih hs
  | turned hd _ ih => exact ih (Bus.standing_calling _ hd kind ▸ hs)
  | asked op _ ih =>
    rw [filedAt_cons_marked, List.append_assoc, List.mem_append]
    rcases Operation.mem_standing_onBus hs with hs | hs
    · exact .inr (ih hs)
    · exact .inl (by rw [hs]; exact List.mem_singleton_self s)

/-- Each subscription that is to end with a call stands once for each time that it was made. -/
theorem count_standing (h : Heard seat b es b') (hes : Considerate seat es) (kind : EventKind) {s : Subscription}
    (hs : s.once = true) :
    (b'.standing kind).count s ≤ (filedAt seat kind es).count s + (b.standing kind).count s := by
  induction h with
  | nil => simp [filedAt, deedsAt]
  | aside he _ ih =>
    rw [Considerate, deedsAt_cons_of_aside he] at hes
    rw [filedAt_cons_of_aside he]
    exact ih hes
  | handled _ _ _ ih => exact ih hes
  | published n _ ih => exact ih hes
  | turned hd _ ih =>
    rw [Bus.standing_calling]
    exact ih hes
  | asked op _ ih =>
    rw [considerate_cons_marked] at hes
    have := Operation.count_standing_onBus hes.1 kind hs
    have := ih hes.2
    rw [filedAt_cons_marked, List.count_append]
    omega

/-- As long as the same handler is running, what it makes goes in behind its own subscription. -/
theorem trail_append (h : Heard seat b es b') (hes : Considerate seat es) (hb : b.Ordered) {e : Subscription}
    (hcaller : ∀ d ∈ deedsAt seat es, d.bus.caller = some e.handler) {front rest : List Subscription}
    (htrail : b.trail = front ++ e :: rest) : ∃ rest', b'.trail = front ++ e :: rest' := by
  induction h with
  | nil => exact ⟨rest, htrail⟩
  | aside he _ ih =>
    rw [Considerate, deedsAt_cons_of_aside he] at hes
    exact ih hes (deedsAt_cons_of_aside he ▸ hcaller)
  | handled _ _ _ ih => exact ih hes hcaller
  | published n _ ih => exact ih hes hcaller
  | turned hd _ ih =>
    rw [Bus.trail_calling]
    exact ih hes hcaller
  | @asked es b' op h ih =>
    rw [considerate_cons_marked] at hes
    rw [deedsAt_cons_marked, List.forall_mem_cons] at hcaller
    obtain ⟨rest', hrest'⟩ := ih hes.2 hcaller.2
    rw [op.trail_onBus]
    cases op with
    | subscribe kind s =>
      dsimp only
      split
      · next hwalks =>
        have hentries : b'.entries kind = front ++ e :: rest' := by rw [← hrest', Bus.trail_of_walks hwalks]
        have hle : s.priority ≤ e.priority := hes.1 hwalks e (by rw [hentries]; simp) hcaller.1
        have hfront : ∀ t ∈ front, s.priority ≤ t.priority := fun t ht => by
          have hsorted := h.ordered hb kind
          rw [hentries] at hsorted
          have := (List.pairwise_append.1 hsorted).2.2 t ht e List.mem_cons_self
          omega
        refine ⟨insertSubscription s rest', ?_⟩
        rw [hrest', insertSubscription_append hfront, insertSubscription, if_neg (by omega)]
      · exact ⟨rest', hrest'⟩
    | _ => exact ⟨rest', hrest'⟩

/-- Where nothing is taken away, the list that is walked is the old one with the new subscriptions put in. -/
theorem entries_eq (h : Heard seat b es b') (hes : ∀ d ∈ deedsAt seat es, d.op.removes = false) (kind : EventKind) :
    b'.walks kind = b.walks kind ∧
      b'.entries kind = (filedAt seat kind es).foldr insertSubscription (b.entries kind) := by
  induction h with
  | nil => exact ⟨rfl, rfl⟩
  | aside he _ ih =>
    rw [deedsAt_cons_of_aside he] at hes
    rw [filedAt_cons_of_aside he]
    exact ih hes
  | handled _ _ _ ih => exact ih hes
  | published n _ ih => exact ih hes
  | turned hd _ ih =>
    rw [Bus.walks_calling]
    exact ih hes
  | asked op _ ih =>
    rw [deedsAt_cons_marked, List.forall_mem_cons] at hes
    obtain ⟨hwalks, hentries⟩ := ih hes.2
    refine ⟨((op.onBus_of_not_removes hes.1 _).2 kind).2.trans hwalks, ?_⟩
    rw [op.entries_onBus hes.1, hentries, filedAt_cons_marked]
    cases op.files kind <;> rfl

end Heard
end Parley
