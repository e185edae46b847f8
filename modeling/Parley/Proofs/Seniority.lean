import Parley.Proofs.Ranks
import Mathlib.Data.List.InsertIdx

/-! # The order of subscriptions

Every subscription has a number: how many of its kind had been made at the seat before it. The list of a kind is followed
through all that happens to the bus, with the numbers of its entries (`Enrolled`): what is subscribed gets the next
number and goes in at the place that the bus gives it, and what goes is taken from the same place. So the list is, at any
time, by descending priority, and by number among equal priorities. -/

namespace Parley
variable {σ α : Type}

structure Filing where
  /-- How many subscriptions of the kind were made before this one. -/
  number : Nat
  entry : Subscription

namespace Filing

/-- Of higher priority, or of the same and made earlier. -/
def Precedes (f g : Filing) : Prop :=
  g.entry.priority < f.entry.priority ∨ f.entry.priority = g.entry.priority ∧ f.number < g.number

theorem Precedes.le {f g : Filing} (h : f.Precedes g) : g.entry.priority ≤ f.entry.priority := by
  rcases h with h | ⟨h, -⟩ <;> omega

end Filing

/-- Puts a filing in where its subscription goes. -/
def enter (f : Filing) (roll : List Filing) : List Filing :=
  let i := slot f.entry (roll.map Filing.entry)
  roll.take i ++ f :: roll.drop i

/-- What an operation makes of the list of a kind, if the next subscription has that number. -/
def Operation.onRoll (kind : EventKind) (number : Nat) (roll : List Filing) : Operation → List Filing
  | .subscribe k s => if kind = k then enter ⟨number, s⟩ roll else roll
  | .unsubscribe k handler => if kind = k then roll.filter fun f => f.entry.handler != handler else roll
  | .clearBus k => if ∀ k' ∈ k, kind = k' then [] else roll
  | _ => roll

/-- The list of a kind with the numbers of its entries, as the bus of a seat has got it since it was new. -/
inductive Enrolled (seat : Nat) (kind : EventKind) : List Filing → Bus → List (Entry Deed) → Prop
  | new {journal} : deedsAt seat journal = [] → Enrolled seat kind [] {} journal
  | same {roll b b' journal} : Enrolled seat kind roll b journal → b'.lists = b.lists → Enrolled seat kind roll b' journal
  | noted {roll b journal} (e : Entry Deed) : Enrolled seat kind roll b journal → e.deed? seat = none →
      Enrolled seat kind roll b (e :: journal)
  | asked {roll b journal} (op : Operation) : Enrolled seat kind roll b journal →
      Enrolled seat kind (op.onRoll kind (filedAt seat kind journal).length roll) (op.onBus b)
        (.marked ⟨seat, b, op⟩ :: journal)
  | finished {roll b journal walking} (gone : List Nat) : Enrolled seat kind roll b journal →
      b.dispatching = some walking →
      Enrolled seat kind (if b.walks kind then gone.foldl List.eraseIdx roll else roll) (b.finish walking gone) journal

theorem map_enter (f : Filing) (roll : List Filing) :
    (enter f roll).map Filing.entry = insertSubscription f.entry (roll.map Filing.entry) := by
  rw [insertSubscription_eq, enter, List.map_append, List.map_cons, List.map_take, List.map_drop]

theorem mem_enter {f g : Filing} {roll : List Filing} (h : g ∈ enter f roll) : g = f ∨ g ∈ roll := by
  rw [enter, List.mem_append, List.mem_cons] at h
  rcases h with h | h | h
  · exact .inr (List.mem_of_mem_take h)
  · exact .inl h
  · exact .inr (List.mem_of_mem_drop h)

theorem sorted_of_precedes {roll : List Filing} (h : roll.Pairwise Filing.Precedes) : Sorted (roll.map Filing.entry) :=
  List.pairwise_map.2 (h.imp Filing.Precedes.le)

/-- What is made last goes behind its equals. -/
theorem precedes_enter {f : Filing} {roll : List Filing} (h : roll.Pairwise Filing.Precedes)
    (hlast : ∀ g ∈ roll, g.number < f.number) : (enter f roll).Pairwise Filing.Precedes := by
  let i := slot f.entry (roll.map Filing.entry)
  have hhigher : ∀ g ∈ roll.take i, g.Precedes f := fun g hg => by
    have hfront : g.entry ∈ (roll.map Filing.entry).take i := by
      rw [← List.map_take]
      exact List.mem_map_of_mem hg
    have hle := le_of_mem_take_slot hfront
    have hnumber := hlast g (List.mem_of_mem_take hg)
    unfold Filing.Precedes
    omega
  have hlower : ∀ g ∈ roll.drop i, f.Precedes g := fun g hg => by
    have hback : g.entry ∈ (roll.map Filing.entry).drop i := by
      rw [← List.map_drop]
      exact List.mem_map_of_mem hg
    exact .inl (lt_of_mem_drop_slot (sorted_of_precedes h) hback)
  have hsplit : (roll.take i ++ roll.drop i).Pairwise Filing.Precedes := by rwa [List.take_append_drop]
  obtain ⟨hfront, hback, hacross⟩ := List.pairwise_append.1 hsplit
  refine List.pairwise_append.2 ⟨hfront, List.pairwise_cons.2 ⟨hlower, hback⟩, fun g hg => ?_⟩
  exact List.forall_mem_cons.2 ⟨hhigher g hg, hacross g hg⟩

theorem foldl_eraseIdx_sublist {β : Type} (gone : List Nat) (l : List β) : (gone.foldl List.eraseIdx l).Sublist l := by
  induction gone generalizing l with
  | nil => exact .refl _
  | cons i gone ih => exact (ih _).trans (l.eraseIdx_sublist i)

theorem removePositions_map (gone : List Nat) (roll : List Filing) :
    removePositions gone (roll.map Filing.entry) = (gone.foldl List.eraseIdx roll).map Filing.entry := by
  induction gone generalizing roll with
  | nil => rfl
  | cons i gone ih =>
    rw [removePositions, List.foldl_cons, List.eraseIdx_map]
    exact ih _

namespace Operation
variable {kind : EventKind} {number : Nat} {roll : List Filing} {b : Bus}

theorem entries_onRoll (op : Operation) (h : b.entries kind = roll.map Filing.entry) :
    (op.onBus b).entries kind = (op.onRoll kind number roll).map Filing.entry := by
  cases op with
  | subscribe k s =>
    rw [onBus, Bus.entries_subscribe, onRoll]
    split
    · next hk => rw [map_enter, ← h, hk]
    · exact h
  | unsubscribe k handler =>
    rw [onBus, Bus.entries_unsubscribe, onRoll]
    split
    · next hk =>
      rw [← hk, h, List.filter_map]
      rfl
    · exact h
  | clearBus k =>
    rw [onBus, Bus.entries_clear, onRoll]
    split
    · rfl
    · exact h
  | _ => exact h

theorem mem_onRoll {op : Operation} {f : Filing} (hf : f ∈ op.onRoll kind number roll) :
    f ∈ roll ∨ op.files kind = some f.entry ∧ f.number = number := by
  cases op with
  | subscribe k s =>
    rw [onRoll] at hf
    split at hf
    · next hk =>
      rcases mem_enter hf with rfl | hf
      · exact .inr ⟨if_pos hk.symm, rfl⟩
      · exact .inl hf
    · exact .inl hf
  | unsubscribe k handler =>
    rw [onRoll] at hf
    split at hf
    · exact .inl (List.mem_filter.1 hf).1
    · exact .inl hf
  | clearBus k =>
    rw [onRoll] at hf
    split at hf
    · cases hf
    · exact .inl hf
  | _ => exact .inl hf

theorem precedes_onRoll (op : Operation) (h : roll.Pairwise Filing.Precedes) (hlast : ∀ f ∈ roll, f.number < number) :
    (op.onRoll kind number roll).Pairwise Filing.Precedes := by
  cases op with
  | subscribe k s =>
    rw [onRoll]
    split
    · exact precedes_enter h hlast
    · exact h
  | unsubscribe k handler =>
    rw [onRoll]
    split
    · exact h.filter _
    · exact h
  | clearBus k =>
    rw [onRoll]
    split
    · exact .nil
    · exact h
  | _ => exact h

end Operation

namespace Enrolled
variable {seat : Nat} {kind : EventKind} {roll : List Filing} {b : Bus} {journal : List (Entry Deed)}

theorem entries (h : Enrolled seat kind roll b journal) : b.entries kind = roll.map Filing.entry := by
  induction h with
  | new => rfl
  | same _ hlists ih => rw [Bus.entries, hlists]; exact ih
  | noted _ _ _ ih => exact ih
  | asked op _ ih => exact op.entries_onRoll ih
  | @finished roll b journal walking gone _ hwalking ih =>
    obtain ⟨d, hd, rfl⟩ := Bus.current_of_dispatching hwalking
    have hwalks : b.walks kind = true ↔ kind = d.kind ∧ d.detached = none := by
      simp [Bus.walks, hd, @eq_comm _ d.kind]
    rw [Bus.entries_finish hd]
    by_cases hown : kind = d.kind ∧ d.detached = none
    · rw [if_pos hown, if_pos (hwalks.2 hown), ← hown.1, ih, removePositions_map]
    · rw [if_neg hown, if_neg (mt hwalks.1 hown), ih]

/-- The numbers are those of the history. -/
theorem filed (h : Enrolled seat kind roll b journal) :
    ∀ f ∈ roll, (filedAt seat kind journal).reverse[f.number]? = some f.entry := by
  induction h with
  | new => exact fun _ hf => absurd hf List.not_mem_nil
  | same _ _ ih => exact ih
  | noted e _ he ih =>
    intro f hf
    rw [filedAt, deedsAt, List.filterMap_cons_none he]
    exact ih f hf
  | asked op _ ih =>
    intro f hf
    rw [filedAt_cons_marked, List.reverse_append]
    rcases Operation.mem_onRoll hf with hf | ⟨hfiled, hnumber⟩
    · exact List.getElem?_append_left (List.getElem?_eq_some_iff.1 (ih f hf)).1 ▸ ih f hf
    · rw [hnumber, hfiled, List.getElem?_append_right (by simp)]
      simp
  | finished gone _ _ ih =>
    intro f hf
    split at hf
    · exact ih f ((foldl_eraseIdx_sublist gone _).subset hf)
    · exact ih f hf

theorem number_lt (h : Enrolled seat kind roll b journal) : ∀ f ∈ roll, f.number < (filedAt seat kind journal).length := by
  intro f hf
  obtain ⟨hlt, -⟩ := List.getElem?_eq_some_iff.1 (h.filed f hf)
  rwa [List.length_reverse] at hlt

theorem precedes (h : Enrolled seat kind roll b journal) : roll.Pairwise Filing.Precedes := by
  induction h with
  | new => exact .nil
  | same _ _ ih | noted _ _ _ ih => exact ih
  | asked op h ih => exact op.precedes_onRoll ih h.number_lt
  | finished gone _ _ ih =>
    split
    · exact ih.sublist (foldl_eraseIdx_sublist gone _)
    · exact ih

/-- What is on record was so before every deed. -/
theorem before (h : Enrolled seat kind roll b journal) {newer older : List (Entry Deed)} {b' : Bus} {op : Operation}
    (hjournal : journal = newer ++ .marked ⟨seat, b', op⟩ :: older) : ∃ roll', Enrolled seat kind roll' b' older := by
  induction h generalizing newer with
  | new hnew =>
    rw [hjournal, deedsAt_append, deedsAt_cons_marked] at hnew
    simp at hnew
  | same _ _ ih => exact ih hjournal
  | noted e _ he ih =>
    cases newer with
    | nil =>
      cases hjournal
      simp [Entry.deed?] at he
    | cons e' newer =>
      cases hjournal
      exact ih rfl
  | asked op' h ih =>
    cases newer with
    | nil =>
      cases hjournal
      exact ⟨_, h⟩
    | cons e' newer =>
      cases hjournal
      exact ih rfl
  | finished _ _ _ ih => exact ih hjournal

theorem endures (seat : Nat) (kind : EventKind) : Endures seat fun b journal => ∃ roll, Enrolled seat kind roll b journal where
  lists := fun ⟨_, h⟩ hlists => ⟨_, h.same hlists⟩
  noted := fun ⟨_, h⟩ e he => ⟨_, h.noted e he⟩
  asked := fun ⟨_, h⟩ op => ⟨_, h.asked op⟩
  finished := fun ⟨_, h⟩ hwalking gone => ⟨_, h.finished gone hwalking⟩

end Enrolled

/-- Higher priorities come first, and entries of equal priority in the order in which they were subscribed. -/
structure BySeniority (seat : Nat) (kind : EventKind) (b : Bus) (journal : List (Entry Deed)) : Prop where
  sorted : Sorted (b.entries kind)
  stable : ∃ roll, Enrolled seat kind roll b journal ∧ b.entries kind = roll.map Filing.entry ∧
    (∀ f ∈ roll, (filedAt seat kind journal).reverse[f.number]? = some f.entry) ∧ roll.Pairwise Filing.Precedes

theorem Enrolled.bySeniority {seat : Nat} {kind : EventKind} {roll : List Filing} {b : Bus} {journal : List (Entry Deed)}
    (h : Enrolled seat kind roll b journal) : BySeniority seat kind b journal where
  sorted := h.entries ▸ sorted_of_precedes h.precedes
  stable := ⟨roll, h, h.entries, h.filed, h.precedes⟩

/-- Whatever code does to a bus that was new at first, from outside or while a notice is dispatched: after it, and before
and after each thing that was asked for on the way, each list is by descending priority, and what has equal priority is
in the order in which it was subscribed. -/
theorem Behaviour.lists_by_seniority (b : Behaviour σ Deed) (patience depth seat : Nat) (kind : EventKind)
    (c : Code σ Deed α) {w v : World σ Deed} (hnew : deedsAt seat w.journal = []) (hbus : w.bus? seat = some {})
    (hv : v = after (c.declaring.run fun op => Play.perform (Host.ofBehaviour b.declaring patience depth) op) w) :
    (∃ bus, v.bus? seat = some bus ∧ BySeniority seat kind bus v.journal) ∧
      ∀ newer bus op older, v.journal = newer ++ .marked ⟨seat, bus, op⟩ :: older →
        BySeniority seat kind bus older ∧ BySeniority seat kind (op.onBus bus) (.marked ⟨seat, bus, op⟩ :: older) := by
  subst hv
  have hstart : World.Watched seat (fun b journal => ∃ roll, Enrolled seat kind roll b journal) w w :=
    .refl hbus ⟨[], .new hnew⟩
  obtain ⟨bus, hshown, roll, henrolled⟩ :=
    (wp_after (((Enrolled.endures seat kind).code b patience depth c).wp hstart)).shows
  refine ⟨⟨bus, hshown, henrolled.bySeniority⟩, fun newer bus' op older hjournal => ?_⟩
  obtain ⟨roll', hbefore⟩ := henrolled.before hjournal
  exact ⟨hbefore.bySeniority, (hbefore.asked op).bySeniority⟩

/-- Handler 2 is brought in while handler 1 is called, and then that one is taken out and put in again. -/
theorem Behaviour.lists_by_seniority_recruiting :
    ∃ (host : Host Bool Deed) (c : Code Bool Deed Unit) (v : World Bool Deed) (bus : Bus),
      v = after (c.declaring.run fun op => Play.perform host op) { host := false } ∧ v.bus? 0 = some bus ∧
      (filedAt 0 .waitRequested v.journal).reverse = [⟨0, 1, false, false⟩, ⟨5, 3, true, false⟩, ⟨0, 2, false, false⟩,
        ⟨0, 1, false, false⟩, ⟨5, 4, false, false⟩] ∧
      bus.entries .waitRequested = [⟨5, 4, false, false⟩, ⟨0, 2, false, false⟩, ⟨0, 1, false, false⟩] ∧
      BySeniority 0 .waitRequested bus v.journal := by
  let host : Host Bool Deed := Host.ofBehaviour (Behaviour.recruiting 0).declaring 2 1
  let c : Code Bool Deed Unit := .asking [.subscribe .waitRequested ⟨0, 1, false, false⟩,
    .subscribe .waitRequested ⟨5, 3, true, false⟩, .publish .waitRequested [], .unsubscribe .waitRequested 1,
    .subscribe .waitRequested ⟨0, 1, false, false⟩, .subscribe .waitRequested ⟨5, 4, false, false⟩]
  let v := after (c.declaring.run fun op => Play.perform host op) { host := false }
  have hv : v = after (c.declaring.run fun op => Play.perform host op) { host := false } := rfl
  obtain ⟨⟨bus, hbus, horder⟩, -⟩ :=
    Behaviour.lists_by_seniority (.recruiting 0) 2 1 0 .waitRequested c rfl rfl hv
  have hentries : (v.bus? 0).map (Bus.entries · .waitRequested) =
      some [⟨5, 4, false, false⟩, ⟨0, 2, false, false⟩, ⟨0, 1, false, false⟩] := by decide +kernel
  rw [hbus] at hentries
  exact ⟨host, c, v, bus, rfl, hbus, by decide +kernel, Option.some.inj hentries, horder⟩

end Parley
