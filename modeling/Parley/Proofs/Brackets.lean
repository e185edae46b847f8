import Parley.Proofs.Offers

/-! # What a runner tells of its sessions

`Bracketed told session`: what has been told, the latest first, is a row of sessions, and `session` is the one that is
still open at its end. A session begins with its start and the name of the node that it enters, and ends with its
completion, or where the next one starts; in between, and only there, anything else may be told. `Continued` is how it
goes on from some point without another start. Steps with discreet host code continue what the runner in front has told
(`World.Continuing`): whatever a step announces, its session is live, and the one completion that there may be takes the
session along. -/

namespace Parley
variable {σ μ : Type}

/-- Neither begins a session nor ends one. -/
def Notice.IsWithin (n : Notice) : Prop := n.isStarted = false ∧ n.isCompleted = false

inductive Bracketed : List Notice → Option SessionId → Prop
  | silent : Bracketed [] none
  | begun {told : List Notice} {session : Option SessionId} (id : SessionId) (name : String)
      (h : Bracketed told session) : Bracketed (.entered name :: .started id name :: told) (some id)
  | within {told : List Notice} {id : SessionId} {n : Notice} (hn : n.IsWithin) (h : Bracketed told (some id)) :
      Bracketed (n :: told) (some id)
  | completed {told : List Notice} {id : SessionId} (h : Bracketed told (some id)) :
      Bracketed (.completed (some id) :: told) none

/-- The sessions have not changed since, other than that the open one may have been completed. -/
inductive Continued (told₀ : List Notice) (session₀ : Option SessionId) : List Notice → Option SessionId → Prop
  | here : Continued told₀ session₀ told₀ session₀
  | within {told : List Notice} {id : SessionId} {n : Notice} (hn : n.IsWithin)
      (h : Continued told₀ session₀ told (some id)) : Continued told₀ session₀ (n :: told) (some id)
  | completed {told : List Notice} {id : SessionId} (h : Continued told₀ session₀ told (some id)) :
      Continued told₀ session₀ (.completed (some id) :: told) none

namespace Continued
variable {told₀ told : List Notice} {session₀ session : Option SessionId} {id : SessionId}

/-- An open session stays open, or is completed at the very end. -/
theorem newer (h : Continued told₀ (some id) told session) : ∃ newer, told = newer ++ told₀ ∧
    (session = some id ∧ (∀ n ∈ newer, n.IsWithin) ∨
      session = none ∧ ∃ rest, newer = .completed (some id) :: rest ∧ ∀ n ∈ rest, n.IsWithin) := by
  induction h with
  | here => exact ⟨[], rfl, .inl ⟨rfl, by simp⟩⟩
  | @within told id' n hn _ ih =>
    obtain ⟨newer, rfl, ⟨hid, hwithin⟩ | ⟨hnone, -⟩⟩ := ih
    · exact ⟨n :: newer, rfl, .inl ⟨hid, List.forall_mem_cons.2 ⟨hn, hwithin⟩⟩⟩
    · cases hnone
  | @completed told id' _ ih =>
    obtain ⟨newer, rfl, ⟨hid, hwithin⟩ | ⟨hnone, -⟩⟩ := ih
    · cases hid
      exact ⟨.completed (some id) :: newer, rfl, .inr ⟨rfl, newer, rfl, hwithin⟩⟩
    · cases hnone

end Continued

namespace Bracketed
variable {told : List Notice} {session : Option SessionId}

theorem continued {told₀ : List Notice} {session₀ : Option SessionId} (h : Bracketed told₀ session₀)
    (h' : Continued told₀ session₀ told session) : Bracketed told session := by
  induction h' with
  | here => exact h
  | within hn _ ih => exact ih.within hn
  | completed _ ih => exact ih.completed

/-- The node is named right behind the start. -/
theorem entered (h : Bracketed told session) {newer older : List Notice} {id : SessionId} {name : String}
    (htold : told = newer ++ .started id name :: older) : ∃ newer', newer = newer' ++ [.entered name] := by
  induction h generalizing newer with
  | silent => simp at htold
  | @begun told _ id' name' _ ih =>
    rcases newer with _ | ⟨m, _ | ⟨m', newer⟩⟩
    · cases htold
    · cases htold; exact ⟨[], rfl⟩
    · obtain ⟨newer', rfl⟩ := ih (List.cons.inj (List.cons.inj htold).2).2
      exact ⟨m :: m' :: newer', rfl⟩
  | @within told id' n hn _ ih =>
    cases newer with
    | nil => cases htold; cases hn.1
    | cons m newer =>
      obtain ⟨newer', rfl⟩ := ih (List.cons.inj htold).2
      exact ⟨m :: newer', rfl⟩
  | completed _ ih =>
    cases newer with
    | nil => cases htold
    | cons m newer =>
      obtain ⟨newer', rfl⟩ := ih (List.cons.inj htold).2
      exact ⟨m :: newer', rfl⟩

/-- An open session is the one that was started last. -/
theorem latest (h : Bracketed told session) {id : SessionId} (hid : session = some id) :
    ∃ between name before, told = between ++ .started id name :: before ∧ ∀ m ∈ between, m.IsWithin := by
  induction h with
  | silent => cases hid
  | @begun told _ id' name _ _ =>
    cases hid
    exact ⟨[.entered name], name, told, rfl, List.forall_mem_singleton.2 ⟨rfl, rfl⟩⟩
  | @within told id' n hn _ ih =>
    obtain ⟨between, name, before, rfl, hbetween⟩ := ih hid
    exact ⟨n :: between, name, before, rfl, List.forall_mem_cons.2 ⟨hn, hbetween⟩⟩
  | completed => cases hid

/-- The one that was started last is open, unless it has been completed since. -/
theorem open_of_latest (h : Bracketed told session) {between before : List Notice} {id : SessionId} {name : String}
    (htold : told = between ++ .started id name :: before) (hbetween : ∀ m ∈ between, m.IsWithin) :
    session = some id := by
  induction h generalizing between with
  | silent => simp at htold
  | begun id' name' _ _ =>
    rcases between with _ | ⟨m, _ | ⟨m', between⟩⟩
    · cases htold
    · cases htold; rfl
    · cases htold
      cases (hbetween (.started id' name') (by simp)).1
  | within hn _ ih =>
    cases between with
    | nil => cases htold; cases hn.1
    | cons m between => exact ih (List.cons.inj htold).2 (List.forall_mem_cons.1 hbetween).2
  | completed _ _ =>
    cases between with
    | nil => cases htold
    | cons m between => cases htold; cases (List.forall_mem_cons.1 hbetween).1.2

/-- Everything but a start is told in an open session, and a completion is that of this session. -/
theorem inside (h : Bracketed told session) {newer older : List Notice} {n : Notice} (htold : told = newer ++ n :: older)
    (hn : n.isStarted = false) : ∃ between id name before, older = between ++ .started id name :: before ∧
      (∀ m ∈ between, m.IsWithin) ∧ ∀ s, n = .completed s → s = some id := by
  induction h generalizing newer with
  | silent => simp at htold
  | @begun told _ id' name' _ ih =>
    rcases newer with _ | ⟨m, _ | ⟨m', newer⟩⟩
    · cases htold; exact ⟨[], id', name', told, rfl, by simp, fun _ hs => by cases hs⟩
    · cases htold; cases hn
    · exact ih (List.cons.inj (List.cons.inj htold).2).2
  | within hwithin h ih =>
    cases newer with
    | nil =>
      obtain ⟨rfl, rfl⟩ := List.cons.inj htold
      obtain ⟨between, name, before, rfl, hbetween⟩ := h.latest rfl
      exact ⟨between, _, name, before, rfl, hbetween, fun _ hs => by subst hs; cases hwithin.2⟩
    | cons m newer => exact ih (List.cons.inj htold).2
  | completed h ih =>
    cases newer with
    | nil =>
      obtain ⟨rfl, rfl⟩ := List.cons.inj htold
      obtain ⟨between, name, before, rfl, hbetween⟩ := h.latest rfl
      exact ⟨between, _, name, before, rfl, hbetween, fun _ hs => by cases hs; rfl⟩
    | cons m newer => exact ih (List.cons.inj htold).2

end Bracketed

/-- Since `u` only the runner in front has done anything, and it has started no session. -/
structure World.Continuing (u w : World σ μ) : Prop where
  tidy : w.Tidy (fun _ => True) fun _ => True
  wings : u.SameWings w
  account : Continued (u.told u.seat) u.runner.session (w.told u.seat) w.runner.session

namespace World.Continuing
variable {u w w' : World σ μ}

theorem refl (h : w.Tidy (fun _ => True) fun _ => True) : w.Continuing w := ⟨h, .unmoved (.refl w), .here⟩

theorem unmoved (h : u.Continuing w) (h' : w.Unmoved w') : u.Continuing w' := by
  refine ⟨h.tidy.unmoved h', h.wings.trans (.unmoved h'), ?_⟩
  rw [h'.told, h'.session]
  exact h.account

theorem noting (h : u.Continuing w) {e : Entry μ} (he : e.isQuiet) : u.Continuing (w.noting e) :=
  h.unmoved (Unmoved.noting (.refl w) fun s => w.told_quiet s he)

theorem of_quiet {e : Entry μ} (he : e.isQuiet) (h : (u.noting e).Continuing w) : u.Continuing w := by
  have hnoted : u.Unmoved (u.noting e) := .noting (.refl u) fun s => u.told_quiet s he
  refine ⟨h.tidy, (SameWings.unmoved hnoted).trans h.wings, ?_⟩
  rw [← hnoted.told]
  exact h.account

theorem withRunner (h : u.Continuing w) {r : Runner} (hr : r.Tidy fun _ => True)
    (hsession : r.session = w.runner.session) : u.Continuing (w.withRunner r) := by
  refine ⟨h.tidy.withRunner hr, h.wings.trans (.withRunner w r), ?_⟩
  show Continued _ _ (w.told u.seat) r.session
  rw [hsession]
  exact h.account

theorem telling (h : u.Continuing w) (hlive : w.runner.Live) {n : Notice} (hcustom : n.isCustom = false)
    (hn : n.IsWithin) : u.Continuing (w.noting (.published w.seat n)) := by
  refine ⟨h.tidy.noting (Entry.published_ne_marked _ _), h.wings.trans (.published w hcustom), ?_⟩
  obtain ⟨id, hid⟩ := Option.isSome_iff_exists.1 hlive
  have haccount := h.account
  rw [told_published w _ hcustom, if_pos h.wings.seat.symm]
  show Continued _ _ _ w.runner.session
  rw [hid] at haccount ⊢
  exact haccount.within hn

theorem completing (h : u.Continuing w) (hlive : w.runner.Live) : u.Continuing w.completing := by
  have hreset : (w.withRunner w.runner.reset).Tidy (fun _ => True) fun _ => True := h.tidy.withRunner (.reset _ _)
  have hwings : w.SameWings w.completing :=
    ((SameWings.withRunner w _).trans (.unmoved (Unmoved.noting (.refl _) fun s => told_quiet _ s rfl))).trans
      (.published _ rfl)
  refine ⟨(hreset.noting (Entry.ne_marked (e := .logged _) rfl)).noting (Entry.published_ne_marked _ _),
    h.wings.trans hwings, ?_⟩
  obtain ⟨id, hid⟩ := Option.isSome_iff_exists.1 hlive
  have haccount := h.account
  rw [told_completing, if_pos h.wings.seat.symm]
  show Continued _ _ _ none
  rw [hid] at haccount ⊢
  exact haccount.completed

end World.Continuing

/-- Inside a step the runner in front goes on with its session, also where the step fails. -/
abbrev ContinuingStep {α : Type} (A : Runner → Prop) (x : Play σ μ α) (B : α → Runner → Prop) : Prop :=
  Carries (fun u w => u.Continuing w) (fun u _ w => u.Continuing w) A x B

namespace ContinuingStep
variable {α : Type} {A : Runner → Prop} {x : Play σ μ α} {host : Host σ μ}

theorem unmoving (hx : Unmoving x) (hA : ∀ {r r' : Runner}, A r → r'.place = r.place → A r') :
    ContinuingStep A x fun _ => A :=
  fun _ w hw hr => wp_mono (hx.wp w) (fun _ _ h => ⟨hw.unmoved h, hA hr h.place⟩) fun _ _ h => hw.unmoved h

theorem live (hx : Unmoving x) : ContinuingStep Runner.Live x fun _ => Runner.Live :=
  unmoving hx fun {r r'} hr hplace => by
    have hsession : r'.session = r.session := congrArg Place.session hplace
    rwa [Runner.Live, hsession]

variable (hh : host.Discreet)
include hh

theorem publish {n : Notice} (hcustom : n.isCustom = false) (hn : n.IsWithin) :
    ContinuingStep Runner.Live (Play.publish host n) fun _ => Runner.Live :=
  fun _ _ hw hr => live (hh.unmoving fun hk => Play.upholds_deliver hk n) (hw.telling hr hcustom hn) hr

theorem openMenu (choices : List Choice) : ContinuingStep Runner.Live (Play.openMenu host choices) fun _ _ => True := by
  have hopened : ContinuingStep Runner.Live (do
      let texts ← Play.renderAll host choices
      Play.publish host (.menuOpened choices texts)) fun _ _ => True := by
    refine (live (hh.unmoving fun hk => Play.upholds_renderAll hk choices)).bind fun texts => ?_
    exact (publish hh rfl ⟨rfl, rfl⟩).mono (fun _ h => h) fun _ _ _ => trivial
  refine Carries.openMenu (fun hw hr => ⟨hw.withRunner ?_ rfl, hr⟩) hopened
  exact .of_live hr (hw.tidy.front.rooted hr) fun _ _ _ _ => trivial

theorem complete : ContinuingStep Runner.Live (Play.complete host) fun _ _ => True := by
  intro _ w hw hr
  have hdeliver : ContinuingStep (fun _ => True)
      (do let _ ← Play.deliver host (.completed w.runner.session) : Play σ μ Unit) fun _ _ => True :=
    (unmoving (hh.unmoving fun hk => Play.upholds_deliver hk _) fun _ _ => trivial).bind fun _ => .pure fun _ h => h
  exact hdeliver (hw.completing hr) trivial

end ContinuingStep

theorem Host.Discreet.continuing {host : Host σ μ} (hh : host.Discreet) :
    Footing host (fun _ => True) (fun u w => u.Continuing w) (fun u _ w => u.Continuing w) Runner.Live where
  live h := h
  ready hlive _ := hlive
  congr h hs _ := by rwa [Runner.Live, hs]
  own _ hw := hw
  tidy hw := hw.tidy.front
  nodes _ _ _ _ := fun _ _ => trivial
  noting hw _ he := hw.noting he
  withRunner hw _ hr _ hsession _ := hw.withRunner hr hsession
  upheld hx := ContinuingStep.unmoving (hh.unmoving hx) fun _ _ => trivial
  test what e _ := ContinuingStep.live (hh.unmoving fun hk => Play.upholds_test hk what e)
  waitDuration e line _ := ContinuingStep.live (hh.unmoving fun hk => Play.upholds_waitDuration hk e line)
  entered _ := (ContinuingStep.publish hh rfl ⟨rfl, rfl⟩).mono (fun _ h => h) fun _ _ _ => trivial
  displayed l := by
    refine (ContinuingStep.live (hh.unmoving fun hk => Play.upholds_render hk l.text)).bind fun text => ?_
    exact (ContinuingStep.publish hh rfl ⟨rfl, rfl⟩).bind fun _ => .pure fun _ h _ => h
  opened choices _ := ContinuingStep.openMenu hh choices
  waiting _ := (ContinuingStep.publish hh rfl ⟨rfl, rfl⟩).mono (fun _ h => h) fun _ _ _ => trivial
  complete := ContinuingStep.complete hh

end Parley
