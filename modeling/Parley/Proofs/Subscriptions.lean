import Parley.Proofs.Deeds

/-! # The lists of a bus

While a notice is dispatched, its list is walked: the one that the bus has for the kind or, once that has been replaced,
the one it was then (`Bus.trail`). Here is what each operation makes of the lists and of the one that is walked. -/

namespace Parley

/-- Higher priorities come first. -/
def Sorted (entries : List Subscription) : Prop := entries.Pairwise fun s t => t.priority ≤ s.priority

namespace Sorted
variable {entries : List Subscription}

theorem nil : Sorted [] := List.Pairwise.nil

theorem sublist {fewer : List Subscription} (h : Sorted entries) (hs : fewer.Sublist entries) : Sorted fewer :=
  List.Pairwise.sublist hs h

end Sorted

theorem perm_insertSubscription (s : Subscription) (entries : List Subscription) :
    (insertSubscription s entries).Perm (s :: entries) := by
  induction entries with
  | nil => exact .refl _
  | cons t rest ih =>
    unfold insertSubscription
    split
    · exact .refl _
    · exact (ih.cons t).trans (.swap s t rest)

theorem mem_insertSubscription {s t : Subscription} {entries : List Subscription} :
    t ∈ insertSubscription s entries ↔ t = s ∨ t ∈ entries := by
  rw [(perm_insertSubscription s entries).mem_iff, List.mem_cons]

theorem Sorted.insertSubscription {entries : List Subscription} (h : Sorted entries) (s : Subscription) :
    Sorted (insertSubscription s entries) := by
  induction entries with
  | nil => exact List.pairwise_singleton _ _
  | cons t rest ih =>
    obtain ⟨ht, hrest⟩ := List.pairwise_cons.1 h
    unfold Parley.insertSubscription
    split
    · next hlt =>
      refine List.pairwise_cons.2 ⟨fun u hu => ?_, h⟩
      rcases List.mem_cons.1 hu with rfl | hu
      · omega
      · have := ht u hu
        omega
    · next hle =>
      refine List.pairwise_cons.2 ⟨fun u hu => ?_, ih hrest⟩
      rcases mem_insertSubscription.1 hu with rfl | hu
      · omega
      · exact ht u hu

/-- What no entry gives way to goes behind them all. -/
theorem insertSubscription_append {s : Subscription} {front : List Subscription}
    (h : ∀ t ∈ front, s.priority ≤ t.priority) (rest : List Subscription) :
    insertSubscription s (front ++ rest) = front ++ insertSubscription s rest := by
  induction front with
  | nil => rfl
  | cons t front ih =>
    obtain ⟨ht, hfront⟩ := List.forall_mem_cons.1 h
    rw [List.cons_append, insertSubscription, if_neg (by omega), ih hfront]
    rfl

namespace Bus

/-- The list that is walked. -/
def trail (b : Bus) : List Subscription :=
  match b.current with
  | none => []
  | some d => d.detached.getD (b.entries d.kind)

theorem trail_of_current {b : Bus} {d : Dispatch} (hd : b.current = some d) :
    b.trail = d.detached.getD (b.entries d.kind) := by
  rw [trail, hd]

theorem walked_eq_trail {b : Bus} {d : Dispatch} (hd : b.current = some d) : b.walked d.kind = b.trail := by
  rw [trail_of_current hd, walked, hd]
  rfl

/-- The bus with another handler as the one that was called last. -/
def calling (b : Bus) (handler : Option Handle) : Bus :=
  { b with current := b.current.map fun d => { d with handler } }

def queued (b : Bus) (n : Notice) : Bus := { b with queue := b.queue ++ [n] }

theorem entries_setEntries (b : Bus) (kind other : EventKind) (entries : List Subscription) :
    (b.setEntries kind entries).entries other = if other = kind then entries else b.entries other := by
  unfold setEntries Bus.entries
  rw [List.lookup_cons]
  by_cases h : other = kind
  · simp [h]
  · rw [show (other == kind) = false from beq_false_of_ne h, if_neg h, lookup_filter fun k : EventKind => k != kind]
    simp [h]

theorem lists_detach (b : Bus) (kind : EventKind) : (b.detach kind).lists = b.lists := by
  unfold detach
  dsimp only
  split
  · rfl
  · split <;> rfl

theorem entries_detach (b : Bus) (kind other : EventKind) : (b.detach kind).entries other = b.entries other := by
  rw [entries, lists_detach]
  rfl

end Bus

/-- The dispatch, walking a list of its own from now on. -/
def Dispatch.leave (entries : List Subscription) (d : Dispatch) : Dispatch :=
  { d with detached := some (d.detached.getD entries) }

namespace Bus

theorem current_detach (b : Bus) (kind : EventKind) : (b.detach kind).current =
    b.current.map fun d => if d.kind = kind then d.leave (b.entries d.kind) else d := by
  unfold detach
  dsimp only
  cases hd : b.current with
  | none =>
    rw [Option.filter_none]
    dsimp only
    split <;> simp [hd]
  | some d =>
    obtain ⟨kind', consumed, detached, handler⟩ := d
    by_cases hkind : kind' = kind
    · subst hkind
      cases detached with
      | none => simp [Option.filter, Dispatch.leave]
      | some entries =>
        simp only [Option.filter, BEq.rfl, Option.isNone_some, Bool.and_false, Bool.false_eq_true, if_false]
        split <;> simp [hd, Dispatch.leave]
    · simp only [Option.filter, beq_false_of_ne hkind, Bool.false_and, Bool.false_eq_true, if_false]
      split <;> simp [hd, hkind]

theorem current_detachAll (lists : List (EventKind × List Subscription)) (b : Bus) :
    (lists.foldl (fun b l => b.detach l.1) b).current =
      b.current.map fun d => if (lists.lookup d.kind).isSome then d.leave (b.entries d.kind) else d := by
  induction lists generalizing b with
  | nil => simp
  | cons l lists ih =>
    obtain ⟨kind, entries⟩ := l
    rw [List.foldl_cons, ih, current_detach, Option.map_map]
    refine congrArg (b.current.map ·) (funext fun d => ?_)
    simp only [Function.comp_apply, entries_detach, List.lookup_cons]
    by_cases hk : d.kind = kind
    · simp only [hk, if_true, BEq.rfl, Option.isSome_some]
      split <;> simp [Dispatch.leave, hk]
    · simp only [hk, if_false, beq_false_of_ne hk]

/-! ### What an operation makes of the lists -/

theorem entries_subscribe (b : Bus) (kind other : EventKind) (s : Subscription) :
    (b.subscribe kind s).entries other =
      if other = kind then insertSubscription s (b.entries kind) else b.entries other :=
  entries_setEntries ..

theorem entries_unsubscribe (b : Bus) (kind other : EventKind) (handler : Handle) :
    (b.unsubscribe kind handler).entries other =
      if other = kind then (b.entries kind).filter fun s => s.handler != handler else b.entries other := by
  unfold unsubscribe
  split
  · next h =>
    split
    · next hkind => rw [hkind, entries, Option.isNone_iff_eq_none.1 h]; rfl
    · rfl
  · rw [entries_setEntries, entries_detach]

theorem entries_clear (b : Bus) (kind : Option EventKind) (other : EventKind) :
    (b.clear kind).entries other = if ∀ k ∈ kind, other = k then [] else b.entries other := by
  cases kind with
  | none => simp [clear, entries]
  | some kind =>
    simp only [clear, entries, lists_detach, lookup_filter fun k : EventKind => k != kind]
    by_cases h : other = kind <;> simp [h]

/-- Whether the bus's own list of the kind is walked. -/
def walks (b : Bus) (kind : EventKind) : Bool := b.current.any fun d => d.kind == kind && d.detached.isNone

theorem trail_of_walks {b : Bus} {kind : EventKind} (h : b.walks kind = true) : b.trail = b.entries kind := by
  obtain ⟨d, hd, hwalks⟩ := (Option.any_eq_true ..).1 h
  simp only [Bool.and_eq_true, beq_iff_eq, Option.isNone_iff_eq_none] at hwalks
  rw [trail_of_current hd, hwalks.1, hwalks.2]
  rfl

/-- The kind that is dispatched and the handler that was called last. -/
def running (b : Bus) : Option (EventKind × Option Handle) := b.current.map fun d => (d.kind, d.handler)

def caller (b : Bus) : Option Handle := b.running.bind Prod.snd

/-- Subscriptions of the kind on the list that is walked, if that is not the bus's own any more. -/
def adrift (b : Bus) (kind : EventKind) : List Subscription :=
  match b.current with
  | none => []
  | some d => if d.kind = kind then d.detached.getD [] else []

/-- The subscriptions of a kind whose handlers may yet be called. -/
def standing (b : Bus) (kind : EventKind) : List Subscription := b.entries kind ++ b.adrift kind

def Ordered (b : Bus) : Prop := ∀ kind, Sorted (b.entries kind)

theorem ordered_empty : ({} : Bus).Ordered := fun _ => .nil

end Bus

namespace Operation

/-- Takes subscriptions away. -/
def removes : Operation → Bool
  | .unsubscribe .. | .clearBus _ => true
  | _ => false

/-- The subscription of the kind that this makes. -/
def files (kind : EventKind) : Operation → Option Subscription
  | .subscribe k s => if k = kind then some s else none
  | _ => none

/-- Whether this gives the bus another list of the kind. -/
def replaces (b : Bus) (kind : EventKind) : Operation → Bool
  | .unsubscribe k _ => k == kind && (b.lists.lookup kind).isSome
  | .clearBus (some k) => k == kind
  | .clearBus none => (b.lists.lookup kind).isSome
  | _ => false

/-- Nothing goes in before the handler that is running, and no subscription that is to end with a call gets away from
the walk that ends it. -/
def Considerate (op : Operation) (b : Bus) : Prop :=
  match op with
  | .subscribe kind s => b.walks kind = true → ∀ e ∈ b.entries kind,
      b.caller = some e.handler → s.priority ≤ e.priority
  | .unsubscribe kind handler => b.walks kind = true → ∀ e ∈ b.entries kind, e.once = true → e.handler = handler
  | _ => True

instance (op : Operation) (b : Bus) : Decidable (op.Considerate b) := by
  unfold Considerate
  split <;> infer_instance

variable {op : Operation}

theorem entries_onBus (h : op.removes = false) (b : Bus) (kind : EventKind) :
    (op.onBus b).entries kind = (op.files kind).elim (b.entries kind) (insertSubscription · (b.entries kind)) := by
  cases op with
  | subscribe k s =>
    rw [onBus, Bus.entries_subscribe, files]
    by_cases hk : k = kind
    · simp [hk]
    · simp [hk, Ne.symm hk]
  | unsubscribe | clearBus => cases h
  | _ => rfl

theorem entries_onBus_of_removes (h : op.removes = true) (b : Bus) (kind : EventKind) :
    ((op.onBus b).entries kind).Sublist (b.entries kind) := by
  cases op with
  | unsubscribe k handler =>
    rw [onBus, Bus.entries_unsubscribe]
    split
    · next hk => exact hk ▸ List.filter_sublist
    · exact .refl _
  | clearBus k =>
    rw [onBus, Bus.entries_clear]
    split
    · exact List.nil_sublist _
    · exact .refl _
  | _ => cases h

theorem entries_onBus_of_kept {b : Bus} {kind : EventKind} (h : op.removes = true)
    (hkept : op.replaces b kind = false) : (op.onBus b).entries kind = b.entries kind := by
  have hunlisted (hlookup : b.lists.lookup kind = none) : (op.onBus b).entries kind = b.entries kind := by
    have hnil : b.entries kind = [] := by rw [Bus.entries, hlookup]; rfl
    rw [hnil]
    exact List.sublist_nil.1 (hnil ▸ entries_onBus_of_removes h b kind)
  cases op with
  | unsubscribe k handler =>
    simp only [replaces, Bool.and_eq_false_imp, beq_iff_eq, Option.isSome_eq_false_iff, Option.isNone_iff_eq_none]
      at hkept
    by_cases hk : k = kind
    · exact hunlisted (hkept hk)
    · rw [onBus, Bus.entries_unsubscribe, if_neg (Ne.symm hk)]
  | clearBus k =>
    cases k with
    | some k =>
      rw [onBus, Bus.entries_clear, if_neg]
      simpa using Ne.symm (ne_of_beq_false hkept)
    | none => exact hunlisted (by simpa [replaces] using hkept)
  | _ => cases h

/-- A dispatch that walks a list goes on with it where the bus gets another one. -/
theorem current_onBus_of_removes (h : op.removes = true) (b : Bus) : (op.onBus b).current =
    b.current.map fun d => if op.replaces b d.kind then d.leave (b.entries d.kind) else d := by
  cases op with
  | unsubscribe k handler =>
    rw [onBus, Bus.unsubscribe]
    split
    · next hlookup =>
      have hnone (d : Dispatch) : (unsubscribe k handler).replaces b d.kind = false := by
        rw [replaces, Bool.and_eq_false_imp]
        rintro hk
        rw [← eq_of_beq hk, Option.isSome_eq_false_iff]
        exact hlookup
      simp [hnone]
    · next hlookup =>
      show (b.detach k).current = _
      rw [b.current_detach]
      refine congrArg (b.current.map ·) (funext fun d => ?_)
      by_cases hk : d.kind = k
      · have hlisted : (b.lists.lookup k).isSome := by simpa [Option.isSome_iff_ne_none] using hlookup
        simp [replaces, hk, hlisted]
      · simp [replaces, hk, Ne.symm hk]
  | clearBus k =>
    cases k with
    | some k =>
      show (b.detach k).current = _
      rw [b.current_detach]
      refine congrArg (b.current.map ·) (funext fun d => ?_)
      by_cases hk : d.kind = k
      · simp [replaces, hk]
      · simp [replaces, hk, Ne.symm hk]
    | none =>
      show (b.lists.foldl (fun b l => b.detach l.1) b).current = _
      exact b.current_detachAll b.lists
  | _ => cases h

theorem onBus_of_not_removes (h : op.removes = false) (b : Bus) : (op.onBus b).running = b.running ∧
    ∀ kind, (op.onBus b).adrift kind = b.adrift kind ∧ (op.onBus b).walks kind = b.walks kind := by
  cases op with
  | unsubscribe | clearBus => cases h
  | consume =>
    simp only [onBus, Bus.running, Bus.adrift, Bus.walks]
    cases b.current <;> exact ⟨rfl, fun _ => ⟨rfl, rfl⟩⟩
  | _ => exact ⟨rfl, fun _ => ⟨rfl, rfl⟩⟩

theorem running_onBus (op : Operation) (b : Bus) : (op.onBus b).running = b.running := by
  cases h : op.removes with
  | false => exact (onBus_of_not_removes h b).1
  | true =>
    rw [Bus.running, current_onBus_of_removes h, Option.map_map]
    refine congrArg (b.current.map ·) (funext fun d => ?_)
    rw [Function.comp_apply]
    split <;> rfl

theorem adrift_onBus_of_removes (h : op.removes = true) (b : Bus) (kind : EventKind) : (op.onBus b).adrift kind =
    if b.walks kind && op.replaces b kind then b.entries kind else b.adrift kind := by
  rw [Bus.adrift, current_onBus_of_removes h, Bus.walks, Bus.adrift]
  cases b.current with
  | none => simp
  | some d =>
    simp only [Option.map_some, Option.any_some, apply_ite Dispatch.kind, Dispatch.leave, ite_self]
    by_cases hk : d.kind = kind
    · subst hk
      cases hd : d.detached <;> cases op.replaces b d.kind <;> simp [hd]
    · simp [hk]

/-- Only what goes into the list while it is walked gets into the walk. -/
theorem trail_onBus (op : Operation) (b : Bus) : (op.onBus b).trail =
    match op with
    | .subscribe kind s => if b.walks kind then insertSubscription s b.trail else b.trail
    | _ => b.trail := by
  cases h : op.removes with
  | true =>
    have htrail : (op.onBus b).trail = b.trail := by
      cases hd : b.current with
      | none => simp [Bus.trail, current_onBus_of_removes h, hd]
      | some d =>
        rw [Bus.trail, current_onBus_of_removes h, hd, Bus.trail_of_current hd, Option.map_some]
        cases hreplaced : op.replaces b d.kind with
        | true => rfl
        | false => simp [entries_onBus_of_kept h hreplaced]
    cases op <;> first | exact htrail | cases h
  | false =>
    cases op with
    | subscribe kind s =>
      show (b.subscribe kind s).trail = if b.walks kind then _ else _
      cases hd : b.current with
      | none => simp [Bus.trail, Bus.walks, Bus.subscribe, Bus.setEntries, hd]
      | some d =>
        have hd' : (b.subscribe kind s).current = some d := hd
        rw [Bus.trail_of_current hd, Bus.trail_of_current hd', Bus.entries_subscribe, Bus.walks, hd]
        cases hdetached : d.detached with
        | some entries => simp [hdetached]
        | none => by_cases hkind : d.kind = kind <;> simp [hkind, hdetached]
    | unsubscribe | clearBus => cases h
    | consume =>
      simp only [onBus, Bus.trail]
      cases b.current <;> rfl
    | _ => rfl

theorem mem_standing_onBus {b : Bus} {kind : EventKind} {s : Subscription} (hs : s ∈ (op.onBus b).standing kind) :
    s ∈ b.standing kind ∨ op.files kind = some s := by
  rw [Bus.standing, List.mem_append] at hs ⊢
  cases h : op.removes with
  | true =>
    rw [adrift_onBus_of_removes h] at hs
    rcases hs with hs | hs
    · exact .inl (.inl ((entries_onBus_of_removes h b kind).subset hs))
    · split at hs
      · exact .inl (.inl hs)
      · exact .inl (.inr hs)
  | false =>
    rw [entries_onBus h, ((onBus_of_not_removes h b).2 kind).1] at hs
    rcases hs with hs | hs
    · cases hfiled : op.files kind with
      | none => exact .inl (.inl (by simpa [hfiled] using hs))
      | some t =>
        rw [hfiled, Option.elim_some, mem_insertSubscription] at hs
        exact hs.elim (fun hs => .inr (by rw [hs])) fun hs => .inl (.inl hs)
    · exact .inl (.inr hs)

/-- No subscription that is to end with a call is left on the list that replaces a walked one. -/
theorem once_of_replaces {b : Bus} {kind : EventKind} (hop : op.Considerate b) (hwalks : b.walks kind = true)
    (hreplaces : op.replaces b kind = true) {s : Subscription} (hs : s ∈ (op.onBus b).entries kind) :
    s.once = false := by
  cases op with
  | unsubscribe k handler =>
    simp only [replaces, Bool.and_eq_true, beq_iff_eq] at hreplaces
    obtain rfl := hreplaces.1
    rw [onBus, Bus.entries_unsubscribe, if_pos rfl, List.mem_filter] at hs
    refine Bool.eq_false_iff.2 fun honce => ?_
    have := hop hwalks s hs.1 honce
    simp [this] at hs
  | clearBus k =>
    rw [onBus, Bus.entries_clear, if_pos] at hs
    · cases hs
    · cases k with
      | none => simp
      | some k => simpa [eq_comm] using eq_of_beq hreplaces
  | _ => cases hreplaces

theorem count_standing_onBus {b : Bus} (hop : op.Considerate b) (kind : EventKind) {s : Subscription}
    (hs : s.once = true) :
    ((op.onBus b).standing kind).count s ≤ (op.files kind).toList.count s + (b.standing kind).count s := by
  rw [Bus.standing, Bus.standing, List.count_append, List.count_append]
  cases h : op.removes with
  | true =>
    rw [adrift_onBus_of_removes h]
    split
    · next hwalks =>
      rw [Bool.and_eq_true] at hwalks
      have hgone : ((op.onBus b).entries kind).count s = 0 := List.count_eq_zero.2 fun hmem =>
        Bool.eq_false_iff.1 (once_of_replaces hop hwalks.1 hwalks.2 hmem) hs
      omega
    · have := (entries_onBus_of_removes h b kind).count_le s
      omega
  | false =>
    rw [entries_onBus h, ((onBus_of_not_removes h b).2 kind).1]
    cases op.files kind with
    | none => simp
    | some t =>
      rw [Option.elim_some, (perm_insertSubscription t _).count_eq, Option.toList_some, List.count_cons,
        List.count_cons]
      simp only [List.count_nil]
      omega

theorem ordered_onBus {b : Bus} (hb : b.Ordered) (op : Operation) : (op.onBus b).Ordered := by
  intro kind
  cases h : op.removes with
  | true => exact (hb kind).sublist (entries_onBus_of_removes h b kind)
  | false =>
    rw [entries_onBus h]
    cases op.files kind with
    | none => exact hb kind
    | some s => exact (hb kind).insertSubscription s

end Operation

/-! ### Ends of dispatches -/

theorem removePositions_sublist (positions : List Nat) (entries : List Subscription) :
    (removePositions positions entries).Sublist entries := by
  induction positions generalizing entries with
  | nil => exact .refl _
  | cons i positions ih => exact (ih _).trans (entries.eraseIdx_sublist i)

namespace Bus
variable {b : Bus} {d : Dispatch} {kind : EventKind}

theorem current_finish (b : Bus) (kind : EventKind) (positions : List Nat) :
    (b.finish kind positions).current = none := by
  unfold finish
  split
  · assumption
  · dsimp only
    split
    · rfl
    · split <;> rfl
    · rfl

theorem entries_finish (hd : b.current = some d) (kind other : EventKind) (positions : List Nat) :
    (b.finish kind positions).entries other =
      if other = kind ∧ d.detached = none then removePositions positions (b.entries kind) else b.entries other := by
  unfold finish
  rw [hd]
  dsimp only
  split
  · next hdetached =>
    rw [if_neg fun h => by simp [hdetached] at h]
    rfl
  · next entries hdetached hlisted =>
    by_cases hempty : positions.isEmpty = true
    · rw [if_pos hempty, List.isEmpty_iff.1 hempty]
      split
      · next h => rw [h.1]; rfl
      · rfl
    · rw [if_neg hempty]
      show (Bus.setEntries _ kind _).entries other = _
      rw [entries_setEntries]
      by_cases hother : other = kind
      · rw [if_pos hother, if_pos ⟨hother, hdetached⟩, Bus.entries, hlisted]
        rfl
      · rw [if_neg hother, if_neg fun h => hother h.1]
        rfl
  · next hdetached hunlisted =>
    show b.entries other = _
    split
    · next h =>
      have hnil : b.entries kind = [] := by rw [Bus.entries, hunlisted]; rfl
      rw [h.1, hnil, List.sublist_nil.1 (removePositions_sublist ..)]
    · rfl

theorem sublist_entries_finish (b : Bus) (kind other : EventKind) (positions : List Nat) :
    ((b.finish kind positions).entries other).Sublist (b.entries other) := by
  cases hd : b.current with
  | none =>
    have hsame : (b.finish kind positions).entries other = b.entries other := by rw [finish, hd]
    simp [hsame]
  | some d =>
    rw [entries_finish hd]
    split
    · next h => exact h.1 ▸ removePositions_sublist ..
    · exact .refl _

theorem standing_finish (b : Bus) (kind other : EventKind) (positions : List Nat) :
    (b.finish kind positions).standing other = (b.finish kind positions).entries other := by
  rw [standing, adrift, current_finish, List.append_nil]

theorem Ordered.finish (hb : b.Ordered) (kind : EventKind) (positions : List Nat) : (b.finish kind positions).Ordered :=
  fun other => (hb other).sublist (sublist_entries_finish ..)

/-- What has been walked and is not kept, goes. -/
theorem count_standing_finish (hd : b.current = some d) (hkind : d.kind = kind) {front kept rest : List Subscription}
    {positions : List Nat} (htrail : b.trail = front ++ rest)
    (hremove : removePositions positions (front ++ rest) = kept ++ rest) {s : Subscription} (hs : kept.count s = 0) :
    ((b.finish kind positions).standing kind).count s + front.count s ≤ (b.standing kind).count s := by
  rw [standing_finish, entries_finish hd, standing, adrift, hd]
  rw [trail_of_current hd] at htrail
  subst hkind
  cases hdetached : d.detached with
  | none =>
    simp only [hdetached, Option.getD_none] at htrail
    simp only [hdetached, true_and, if_true, Option.getD_none, List.append_nil]
    rw [htrail, hremove, List.count_append, List.count_append]
    omega
  | some entries =>
    simp only [hdetached, Option.getD_some] at htrail
    simp only [hdetached, reduceCtorEq, and_false, if_false, if_true, Option.getD_some]
    rw [htrail, List.count_append, List.count_append]
    omega

end Bus
end Parley
