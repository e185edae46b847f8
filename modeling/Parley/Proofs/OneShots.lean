import Parley.Proofs.Dispatches

/-! # One-shot subscriptions

Each call of a handler can be put down to a subscription of it, one for one where that was to end with its first call
(`Attributed`): what has been called and what may yet be called never come to more than what was subscribed. -/

namespace Parley
variable {σ α : Type}

/-- These subscriptions were all made, and those that are to end with a call no less often. -/
structure Covered (seat : Nat) (kind : EventKind) (subscriptions : List Subscription) (journal : List (Entry Deed)) :
    Prop where
  made : ∀ s ∈ subscriptions, s ∈ filedAt seat kind journal
  once : ∀ s, s.once = true → subscriptions.count s ≤ (filedAt seat kind journal).count s

namespace Covered
variable {seat : Nat} {kind : EventKind} {some fewer calls : List Subscription} {journal es : List (Entry Deed)}

theorem mono (h : Covered seat kind some journal) (hmem : ∀ s ∈ fewer, s ∈ some)
    (hcount : ∀ s, s.once = true → fewer.count s ≤ some.count s) : Covered seat kind fewer journal :=
  ⟨fun s hs => h.made s (hmem s hs), fun s hs => Nat.le_trans (hcount s hs) (h.once s hs)⟩

theorem heard {b b' : Bus} (h : Covered seat kind (calls ++ b.standing kind) journal) (hheard : Heard seat b es b')
    (hgood : Considerate seat es) : Covered seat kind (calls ++ b'.standing kind) (es ++ journal) := by
  refine ⟨fun s hs => ?_, fun s honce => ?_⟩
  · rw [filedAt_append, List.mem_append]
    rcases List.mem_append.1 hs with hs | hs
    · exact .inr (h.made s (List.mem_append_left _ hs))
    · rcases List.mem_append.1 (hheard.mem_standing hs) with hs | hs
      · exact .inl hs
      · exact .inr (h.made s (List.mem_append_right _ hs))
  · have hold := h.once s honce
    have hnew := hheard.count_standing hgood kind honce
    rw [List.count_append] at hold ⊢
    rw [filedAt_append, List.count_append]
    omega

end Covered

/-- Between two dispatches, the calls can be put down to subscriptions, unless some handler was inconsiderate or more
was subscribed than a dispatch has the patience for. -/
structure Attributed (seat : Nat) (kind : EventKind) (patience : Nat) (b : Bus) (journal : List (Entry Deed)) :
    Prop where
  idle : b.dispatching = none
  ordered : b.Ordered
  calls : Considerate seat journal → (filedAt seat kind journal).length ≤ patience →
    ∃ calls, calls.map Subscription.handler = calledAt seat kind journal ∧
      Covered seat kind (calls ++ b.standing kind) journal

namespace Attributed
variable {seat patience : Nat} {kind : EventKind} {b b' : Bus} {journal es : List (Entry Deed)}

theorem empty (seat : Nat) (kind : EventKind) (patience : Nat) : Attributed seat kind patience {} [] :=
  ⟨rfl, Bus.ordered_empty, fun _ _ => ⟨[], rfl, fun _ hs => (List.not_mem_nil hs).elim, fun _ _ => Nat.le_refl _⟩⟩

theorem current (h : Attributed seat kind patience b journal) : b.current = none := by
  have := h.idle
  rwa [Bus.dispatching, Bus.running, Option.map_map, Option.map_eq_none_iff] at this

theorem heard (h : Attributed seat kind patience b journal) (hheard : Heard seat b es b')
    (hcalled : calledAt seat kind es = []) : Attributed seat kind patience b' (es ++ journal) where
  idle := hheard.dispatching.trans h.idle
  ordered := hheard.ordered h.ordered
  calls hgood hpatience := by
    rw [considerate_append] at hgood
    rw [filedAt_append, List.length_append] at hpatience
    obtain ⟨calls, hhandlers, hcovered⟩ := h.calls hgood.2 (by omega)
    exact ⟨calls, by rw [calledAt_append, hcalled]; exact hhandlers, hcovered.heard hheard hgood.1⟩

/-- Only the lists matter, and what is dispatched. -/
theorem of_lists (h : Attributed seat kind patience b journal) (hlists : b'.lists = b.lists)
    (hcurrent : b'.current = b.current) : Attributed seat kind patience b' journal := by
  have hentries (kind : EventKind) : b'.entries kind = b.entries kind := by rw [Bus.entries, hlists, Bus.entries]
  have hrunning : b'.running = b.running := by rw [Bus.running, hcurrent, Bus.running]
  have hstanding : b'.standing kind = b.standing kind := by
    rw [Bus.standing, Bus.standing, hentries, Bus.adrift, hcurrent, Bus.adrift]
  refine ⟨?_, fun other => hentries other ▸ h.ordered other, hstanding ▸ h.calls⟩
  rw [Bus.dispatching, hrunning]
  exact h.idle

theorem published (h : Attributed seat kind patience b journal) (n : Notice) :
    Attributed seat kind patience b (.published seat n :: journal) :=
  (h.heard (.published n .nil) rfl).of_lists rfl rfl

theorem overseen (seat : Nat) (kind : EventKind) (patience : Nat) : Overseen seat (Attributed seat kind patience) where
  other h _ he := h.heard (.aside he .nil) (calledAt_cons_of_aside he)
  asked h op := h.heard (.asked op .nil) rfl

end Attributed

/-! ### Dispatches -/

theorem Bus.mem_standing_of_trail {b : Bus} {kind : EventKind} (hb : b.dispatching = some kind) {s : Subscription}
    (hs : s ∈ b.trail) : s ∈ b.standing kind := by
  obtain ⟨d, hd, rfl⟩ := current_of_dispatching hb
  rw [trail_of_current hd] at hs
  rw [standing, adrift, hd, List.mem_append]
  cases hdetached : d.detached with
  | none => exact .inl (by simpa [hdetached] using hs)
  | some entries => exact .inr (by simpa [hdetached] using hs)

theorem Turn.once_of_stays {host : Host σ Deed} {turns : List (Turn σ)} {s : Subscription}
    (hs : s ∈ (turns.filter (Turn.stays host)).map Turn.entry) : s.once = false := by
  obtain ⟨t, ht, rfl⟩ := List.mem_map.1 hs
  have := (List.mem_filter.1 ht).2
  rw [stays, Bool.and_eq_true, Bool.not_eq_true'] at this
  exact this.2

/-- Those that were called are calls now, and no longer subscriptions if they were to end with that. -/
theorem Covered.finish {seat : Nat} {kind : EventKind} {calls ahead : List Subscription} {journal : List (Entry Deed)}
    {b : Bus} (h : Covered seat kind (calls ++ b.standing kind) journal) (hb : b.dispatching = some kind)
    (host : Host σ Deed) {turns : List (Turn σ)} (htrail : b.trail = turns.map Turn.entry ++ ahead) :
    Covered seat kind (((turns.filter (Turn.isLive host)).map Turn.entry).reverse ++ calls ++
      (b.finish kind (removed host 0 turns [])).standing kind) journal := by
  have hlive : ((turns.filter (Turn.isLive host)).map Turn.entry).Sublist (turns.map Turn.entry) :=
    List.filter_sublist.map _
  refine h.mono (fun s hs => ?_) fun s honce => ?_
  · rw [List.mem_append, List.mem_append, List.mem_reverse] at hs
    rcases hs with (hs | hs) | hs
    · exact List.mem_append_right _ (Bus.mem_standing_of_trail hb (htrail ▸ List.mem_append_left _ (hlive.subset hs)))
    · exact List.mem_append_left _ hs
    · rw [Bus.standing_finish] at hs
      exact List.mem_append_right _ (List.mem_append_left _ ((Bus.sublist_entries_finish ..).subset hs))
  · obtain ⟨d, hd, hkind⟩ := Bus.current_of_dispatching hb
    have hkept : ((turns.filter (Turn.stays host)).map Turn.entry).count s = 0 :=
      List.count_eq_zero.2 fun hs => by simp [Turn.once_of_stays hs] at honce
    have hfinish := Bus.count_standing_finish hd hkind htrail (removePositions_removed_nil host turns ahead) hkept
    have := hlive.count_le s
    rw [List.count_append, List.count_append, List.count_append, List.count_reverse]
    omega

/-- The subscriptions of other kinds are as they were. -/
theorem Covered.finish_other {seat : Nat} {kind other : EventKind} {calls : List Subscription}
    {journal : List (Entry Deed)} {b : Bus} (h : Covered seat kind (calls ++ b.standing kind) journal)
    (gone : List Nat) : Covered seat kind (calls ++ (b.finish other gone).standing kind) journal := by
  have hsub : ((b.finish other gone).standing kind).Sublist (b.standing kind) := by
    rw [Bus.standing_finish]
    exact (Bus.sublist_entries_finish ..).trans (List.sublist_append_left ..)
  exact h.mono (fun s hs => ((List.Sublist.refl calls).append hsub).subset hs)
    fun s _ => ((List.Sublist.refl calls).append hsub).count_le s

section
variable {host : Host σ Deed} (hh : host.Declares) (w : World σ Deed) (kind : EventKind)
include hh

theorem Attributed.dispatch (n : Notice)
    (h : Attributed w.seat kind host.patience w.runner.bus w.journal) :
    World.Watched w.seat (Attributed w.seat kind host.patience) w (after (Play.dispatch host n) w) := by
  obtain ⟨es, turns, u, gone, hd⟩ := hh.dispatch n w
  rw [hd.ends]
  refine hd.watched ⟨?_, (hd.hears.heard.ordered h.ordered).finish n.kind gone, fun hgood hpatience => ?_⟩
  · rw [Bus.dispatching, Bus.running, Bus.current_finish]
    rfl
  -- every call of the dispatch is one of a turn
  have hgood := considerate_append.1 hgood
  have hfiled : (filedAt w.seat kind es).length + (filedAt w.seat kind w.journal).length ≤ host.patience := by
    rw [← List.length_append, ← filedAt_append]
    exact hpatience
  obtain ⟨calls, hhandlers, hcovered⟩ := h.calls hgood.2 (by omega)
  have hopened : Covered w.seat kind (calls ++ (w.runner.bus.opening n.kind).standing kind) w.journal := by
    rw [Bus.standing_opening]
    rwa [Bus.standing, Bus.adrift, h.current, List.append_nil] at hcovered
  have hwalked := hopened.heard hd.hears.heard hgood.1
  have hcalled := hd.called kind
  by_cases hkind : n.kind = kind
  · subst hkind
    obtain ⟨-, rfl, ahead, htrail, -⟩ := hd.course hgood.1 h.ordered (by omega)
    refine ⟨_, ?_, hwalked.finish hd.hears.heard.dispatching host htrail⟩
    rw [if_pos rfl] at hcalled
    rw [calledAt_append, hcalled, List.map_append, hhandlers, List.map_reverse, List.map_map]
    rfl
  · refine ⟨calls, ?_, hwalked.finish_other gone⟩
    rw [if_neg hkind] at hcalled
    rw [calledAt_append, hcalled]
    exact hhandlers

theorem Attributed.publish (n : Notice)
    (h : World.Watched w.seat (Attributed w.seat kind host.patience) w w) :
    wp (Play.publish host n) (fun _ => World.Watched w.seat (Attributed w.seat kind host.patience) w)
      (fun _ => World.Watched w.seat (Attributed w.seat kind host.patience) w) w := by
  have hnoted : World.Watched w.seat (Attributed w.seat kind host.patience) w (w.noting (.published w.seat n)) :=
    h.noting fun _ hb => hb.published n
  unfold wp
  rw [Play.publish_of_idle host n (h.front rfl).current]
  refine wp_mono (Play.round_watched (fun _ _ _ h => h.of_lists) (fun n v hv h => ?_) n rfl hnoted.rebase)
    (fun _ _ h => hnoted.trans h) fun _ _ h => hnoted.trans h
  have hdispatch := Attributed.dispatch hh v kind n (hv ▸ h)
  rwa [hv] at hdispatch

end

theorem Host.patience_ofBehaviour (b : Behaviour σ Deed) (patience depth : Nat) :
    (Host.ofBehaviour b patience depth).patience = patience := by
  cases depth <;> rfl

theorem Behaviour.publish_attributed (b : Behaviour σ Deed) (patience depth : Nat) (kind : EventKind) (n : Notice)
    {w : World σ Deed} (h : World.Watched w.seat (Attributed w.seat kind patience) w w) :
    wp (Play.publish (Host.ofBehaviour b.declaring patience depth) n)
      (fun _ => World.Watched w.seat (Attributed w.seat kind patience) w)
      (fun _ => World.Watched w.seat (Attributed w.seat kind patience) w) w := by
  have hpublish := Attributed.publish (b.declares patience depth) w kind n
  rw [Host.patience_ofBehaviour] at hpublish
  exact hpublish h

theorem Behaviour.attributed (b : Behaviour σ Deed) (patience depth seat : Nat) (kind : EventKind) :
    (Host.ofBehaviour b.declaring patience depth).Abides seat (Attributed seat kind patience) := by
  refine b.abides (Attributed.overseen seat kind patience) (fun depth _ n w hw hseat => ?_) depth
  subst hseat
  exact b.publish_attributed patience depth kind n hw

/-- Whatever code does to a bus that was new at first, its calls of handlers can be put down to subscriptions that were
made, each one-shot subscription answering for one at most: as long as, while a notice is dispatched, nothing is put in
before the handler that is running, and nothing removed that leaves other one-shot subscriptions behind. -/
theorem Behaviour.one_shot_once (b : Behaviour σ Deed) (patience depth seat : Nat) (kind : EventKind)
    (c : Code σ Deed α) {w : World σ Deed} (hw : w.journal = []) (hbus : w.bus? seat = some {})
    {journal : List (Entry Deed)} (hjournal : journal = (after
      (c.declaring.run fun op => Play.perform (Host.ofBehaviour b.declaring patience depth) op) w).journal)
    (hgood : Considerate seat journal) (hpatience : (filedAt seat kind journal).length ≤ patience) :
    ∃ calls : List Subscription, calls.map Subscription.handler = calledAt seat kind journal ∧
      (∀ s ∈ calls, s ∈ filedAt seat kind journal) ∧
      ∀ s, s.once = true → calls.count s ≤ (filedAt seat kind journal).count s := by
  subst hjournal
  have hoverseen := Attributed.overseen seat kind patience
  have hhost := b.attributed patience depth seat kind
  have hpublish := hoverseen.publish hhost fun n v hv hseat => by
    subst hseat
    exact b.publish_attributed patience depth kind n hv
  have hstart : World.Watched seat (Attributed seat kind patience) w w := .refl hbus (hw ▸ .empty seat kind patience)
  obtain ⟨bus, -, hattributed⟩ := (wp_after ((hoverseen.code hhost hpublish c).wp hstart)).shows
  obtain ⟨calls, hhandlers, hcovered⟩ := hattributed.calls hgood hpatience
  refine ⟨calls, hhandlers, fun s hs => hcovered.made s (List.mem_append_left _ hs), fun s hs => ?_⟩
  have := hcovered.once s hs
  rw [List.count_append] at this
  omega

/-- These operations in the seat in front, one by one. -/
def Code.asking (ops : List Operation) : Code σ Deed Unit :=
  ops.foldr (fun op next => .ask 0 op fun _ => next) (.pure ())

theorem Behaviour.one_shot_once_recruiting :
    ∃ (host : Host Bool Deed) (c : Code Bool Deed Unit) (journal : List (Entry Deed)) (calls : List Subscription),
      journal = (after (c.declaring.run fun op => Play.perform host op) { host := false }).journal ∧
      filedAt 0 .waitRequested journal = [⟨0, 2, false, false⟩, ⟨0, 1, true, false⟩] ∧
      (calledAt 0 .waitRequested journal).reverse = [1, 2, 2] ∧
      calls.map Subscription.handler = calledAt 0 .waitRequested journal ∧
      ∀ s, s.once = true → calls.count s ≤ (filedAt 0 .waitRequested journal).count s := by
  let host : Host Bool Deed := Host.ofBehaviour (Behaviour.recruiting 0).declaring 2 1
  let c : Code Bool Deed Unit := .asking
    [.subscribe .waitRequested ⟨0, 1, true, false⟩, .publish .waitRequested [], .publish .waitRequested []]
  let journal := (after (c.declaring.run fun op => Play.perform host op) { host := false }).journal
  have hjournal : journal = (after (c.declaring.run fun op => Play.perform host op) { host := false }).journal := rfl
  obtain ⟨calls, hhandlers, -, honce⟩ := Behaviour.one_shot_once (Behaviour.recruiting 0) 2 1 0 .waitRequested c
    rfl rfl hjournal (by decide +kernel) (by decide +kernel)
  exact ⟨host, c, journal, calls, rfl, by decide +kernel, by decide +kernel, hhandlers, honce⟩

/-- A one-shot handler that brings in another one before itself is called again right away, and one that removes another
is called again next time. -/
theorem called_again :
    ∃ (recruiting removing : Host Bool Deed) (c c' : Code Bool Deed Unit) (journal journal' : List (Entry Deed)),
      recruiting = Host.ofBehaviour (Behaviour.recruiting 1).declaring 2 1 ∧
      removing = Host.ofBehaviour (Behaviour.meddling fun kind => .unsubscribe kind 2).declaring 2 1 ∧
      journal = (after (c.declaring.run fun op => Play.perform recruiting op) { host := false }).journal ∧
      filedAt 0 .waitRequested journal = [⟨1, 2, false, false⟩, ⟨0, 1, true, false⟩] ∧
      (calledAt 0 .waitRequested journal).reverse = [1, 1] ∧
      journal' = (after (c'.declaring.run fun op => Play.perform removing op) { host := false }).journal ∧
      filedAt 0 .choiceSelected journal' = [⟨0, 2, false, false⟩, ⟨2, 1, true, false⟩] ∧
      (calledAt 0 .choiceSelected journal').reverse = [1, 2, 1] := by
  refine ⟨_, _, .asking [.subscribe .waitRequested ⟨0, 1, true, false⟩, .publish .waitRequested []],
    .asking [.subscribe .choiceSelected ⟨2, 1, true, false⟩, .subscribe .choiceSelected ⟨0, 2, false, false⟩,
      .publish .choiceSelected [], .publish .choiceSelected []], _, _, rfl, rfl, rfl, ?_, ?_, rfl, ?_, ?_⟩ <;>
    decide +kernel

end Parley
