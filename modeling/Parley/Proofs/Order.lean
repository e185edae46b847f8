import Parley.Host.Code
import Parley.Proofs.Agreement
import Parley.Proofs.Numbering
import Parley.Proofs.Outcome
import Parley.Proofs.Placement

/-! # Order among the runners of a world

`InOrder P w`: only parsed nodes are in the table, every runner that runs a session and no step stands
inside a node, and what the host has marked satisfies `P`. Host code may interrupt a step of one runner to
make calls on it and on the others, so calls and host code are judged by the same relation: `Tends P w w'`
says that order is kept on the way from `w` to `w'`, and that a runner which is in the middle of a step in
`w` is so still, at the same place or without a session. `During P w₀ A w` is the view from inside a step
that began in `w₀`. -/

namespace Parley
variable {σ μ : Type}

/-- Inside a node, with a menu of choices that stand right before the position. -/
def Place.Stands (p : Place) : Prop :=
  ∃ n, Placed n p.stack p.memo ∧
    ∀ c ∈ p.menu, ∃ f below, p.stack = f :: below ∧ f.Holds p.memo (.choice c)

namespace World

/-- The runner of a seat, if there is one. -/
def at? (w : World σ μ) (seat : Nat) : Option Runner :=
  if seat = w.seat then some w.runner else w.wings.lookup seat

theorem at?_seat (w : World σ μ) : w.at? w.seat = some w.runner := if_pos rfl

/-- Turning to a seat moves no runner to another seat. -/
theorem at?_turnTo (w : World σ μ) (seat other : Nat) : (w.turnTo seat).at? other = w.at? other := by
  unfold turnTo
  split
  · rfl
  · next hseat =>
    split
    · rfl
    · next r hr =>
      simp only [at?]
      by_cases ho : other = seat
      · subst ho; simp [hseat, hr]
      · by_cases hw : other = w.seat
        · subst hw; simp [ho]
        · simp [ho, hw, lookup_filter fun s : Nat => s != seat, List.lookup_cons, beq_false_of_ne hw]

theorem seat_turnTo {w : World σ μ} {seat : Nat} (h : (w.at? seat).isSome) :
    (w.turnTo seat).seat = seat := by
  unfold turnTo
  split
  · next h => exact h.symm
  · next hseat =>
    rw [at?, if_neg hseat] at h
    split
    · next hl => rw [hl] at h; cases h
    · rfl

/-- Every runner that rests stands somewhere; there are parsed nodes only, and good marks. -/
structure InOrder (P : μ → Prop) (w : World σ μ) : Prop where
  parsed : ∀ name n, w.nodes.get? name = some n → n.Parsed
  stands : ∀ seat r, w.at? seat = some r → r.IsResting → r.place.Stands
  marks : ∀ m, .marked m ∈ w.journal → P m

/-- What calls and host code may do. -/
structure Tends (P : μ → Prop) (w w' : World σ μ) : Prop where
  order : w'.InOrder P
  seat : w'.seat = w.seat
  seats : ∀ s, (w'.at? s).isSome = (w.at? s).isSome
  busy : ∀ s r, w.at? s = some r → r.busy = true →
    ∃ r', w'.at? s = some r' ∧ r'.busy = true ∧ (r'.session = none ∨ r'.place = r.place)

variable {P : μ → Prop} {w w' w'' w₀ : World σ μ}

theorem InOrder.tends (h : w.InOrder P) : w.Tends P w :=
  ⟨h, rfl, fun _ => rfl, fun _ r hr hb => ⟨r, hr, hb, .inr rfl⟩⟩

theorem Tends.trans (h : w.Tends P w') (h' : w'.Tends P w'') : w.Tends P w'' := by
  refine ⟨h'.order, h'.seat.trans h.seat, fun s => (h'.seats s).trans (h.seats s), fun s r hr hb => ?_⟩
  obtain ⟨r', hr', hb', hp⟩ := h.busy s r hr hb
  obtain ⟨r'', hr'', hb'', hp'⟩ := h'.busy s r' hr' hb'
  refine ⟨r'', hr'', hb'', ?_⟩
  rcases hp' with hp' | hp'
  · exact .inl hp'
  · exact hp.imp (fun hn => (congrArg Place.session hp').trans hn) hp'.trans

/-- Changes that touch neither runners nor nodes nor marks. -/
theorem Tends.aside (h : w₀.Tends P w) (hseat : w'.seat = w.seat) (hat : ∀ s, w'.at? s = w.at? s)
    (hnodes : w'.nodes = w.nodes) (hmarks : ∀ m, .marked m ∈ w'.journal → .marked m ∈ w.journal) :
    w₀.Tends P w' := by
  refine ⟨⟨?_, ?_, fun m hm => h.order.marks m (hmarks m hm)⟩, hseat.trans h.seat, ?_, ?_⟩
  · rw [hnodes]; exact h.order.parsed
  · intro s r hr; rw [hat] at hr; exact h.order.stands s r hr
  · intro s; rw [hat]; exact h.seats s
  · intro s r hr hb; rw [hat]; exact h.busy s r hr hb

theorem at?_withRunner (w : World σ μ) (r : Runner) (s : Nat) :
    (w.withRunner r).at? s = if s = w.seat then some r else w.at? s := by
  by_cases hs : s = w.seat <;> simp [at?, withRunner, hs]

theorem InOrder.withRunner (h : w.InOrder P) {r : Runner} (hr : r.IsResting → r.place.Stands) :
    (w.withRunner r).InOrder P := by
  refine ⟨h.parsed, fun s r' hr' => ?_, h.marks⟩
  rw [at?_withRunner] at hr'
  split at hr'
  · cases hr'; exact hr
  · exact h.stands s r' hr'

theorem isSome_at?_withRunner (w : World σ μ) (r : Runner) (s : Nat) :
    ((w.withRunner r).at? s).isSome = (w.at? s).isSome := by
  rw [at?_withRunner]
  split
  · next hs => rw [hs, at?_seat]; rfl
  · rfl

/-- A change of the runner in front. -/
theorem InOrder.tends_withRunner (h : w.InOrder P) {r : Runner} (hr : r.IsResting → r.place.Stands)
    (hbusy : w.runner.busy = true → r.busy = true ∧ (r.session = none ∨ r.place = w.runner.place)) :
    w.Tends P (w.withRunner r) := by
  refine ⟨h.withRunner hr, rfl, isSome_at?_withRunner w r, fun s r₀ hr₀ hb => ?_⟩
  rw [at?_withRunner]
  split
  · next hs =>
    rw [hs, at?_seat] at hr₀
    cases hr₀
    exact ⟨r, rfl, hbusy hb⟩
  · exact ⟨r₀, hr₀, hb, .inr rfl⟩

/-- A change of the runner in front by a step of its own. -/
theorem Tends.withRunner (h : w₀.Tends P w) (hidle : w₀.runner.busy = false) {r : Runner}
    (hr : r.IsResting → r.place.Stands) : w₀.Tends P (w.withRunner r) := by
  refine ⟨h.order.withRunner hr, h.seat, fun s => (isSome_at?_withRunner w r s).trans (h.seats s), ?_⟩
  intro s r₀ hr₀ hb
  rw [at?_withRunner]
  split
  · next hs =>
    rw [hs, h.seat, at?_seat] at hr₀
    cases hr₀
    rw [hidle] at hb; cases hb
  · exact h.busy s r₀ hr₀ hb

/-- Inside a step that the runner in front began in `w₀`: it is busy, and has lost its session or is at a
place with `A`. -/
structure During (P : μ → Prop) (w₀ : World σ μ) (A : Place → Prop) (w : World σ μ) : Prop where
  tends : w₀.Tends P w
  idle : w₀.runner.busy = false
  busy : w.runner.busy = true
  place : w.runner.session = none ∨ A w.runner.place

namespace During
variable {A B : Place → Prop}

theorem mono (h : During P w₀ A w) (hAB : ∀ p, A p → B p) : During P w₀ B w :=
  ⟨h.tends, h.idle, h.busy, h.place.imp_right (hAB _)⟩

/-- Host code may have ended the session in the meantime, but not gone on with it. -/
theorem interrupted (h : During P w₀ A w) (ht : w.Tends P w') : During P w₀ A w' := by
  obtain ⟨r', hr', hb, hp⟩ := ht.busy w.seat w.runner w.at?_seat h.busy
  rw [← ht.seat, at?_seat] at hr'
  cases hr'
  refine ⟨h.tends.trans ht, h.idle, hb, ?_⟩
  rcases hp with hp | hp
  · exact .inl hp
  · rw [hp]; exact h.place.imp_left fun hn => (congrArg Place.session hp).trans hn

theorem withRunner (h : During P w₀ A w) {r : Runner} (hb : r.busy = true)
    (hr : r.session = none ∨ B r.place) :
    During P w₀ B (w.withRunner r) :=
  ⟨h.tends.withRunner h.idle fun hrest => absurd hrest.2 (by simp [hb]), h.idle, hb, hr⟩

end During
end World

/-- Leads from order to order as calls may do. -/
def Tending {α : Type} (P : μ → Prop) (x : Play σ μ α) : Prop :=
  ∀ w₀ : World σ μ, Keeps (fun w w' => w = w' ∧ w₀.Tends P w) x

namespace Tending
variable {α : Type} {P : μ → Prop} {x : Play σ μ α}

theorem wp {w : World σ μ} (hx : Tending P x) (hw : w.InOrder P) :
    wp x (fun _ w' => w.Tends P w') (fun _ w' => w.Tends P w') w := by
  have h := hx w ⟨rfl, hw.tends⟩
  unfold Parley.wp
  cases hr : x w <;> rw [hr] at h <;> cases h <;> next h => exact h.2

theorem after {w : World σ μ} (hx : Tending P x) (hw : w.InOrder P) : w.Tends P (after x w) :=
  wp_after (hx.wp hw)

theorem of_wp
    (h : ∀ w : World σ μ, w.InOrder P → Parley.wp x (fun _ w' => w.Tends P w') (fun _ w' => w.Tends P w') w) :
    Tending P x := by
  rintro w₀ w w' ⟨rfl, ht⟩
  have := h w ht.order
  unfold Parley.wp at this
  cases hr : x w <;> rw [hr] at this
  · exact .ok _ ⟨rfl, ht.trans this⟩
  · exact .error _ ⟨rfl, ht.trans this⟩

theorem pure (a : α) : Tending P (pure a : Play σ μ α) := fun _ => .pure a

theorem throw (f : Fault) : Tending P (throw f : Play σ μ α) := fun _ => .throw f

theorem bind {β : Type} {f : α → Play σ μ β} (hx : Tending P x) (hf : ∀ a, Tending P (f a)) :
    Tending P (x >>= f) :=
  fun w₀ => (hx w₀).bind fun a => hf a w₀

theorem ite {c : Prop} [Decidable c] {y : Play σ μ α} (hx : Tending P x) (hy : Tending P y) :
    Tending P (if c then x else y) :=
  fun w₀ => .ite (hx w₀) (hy w₀)

theorem get {f : World σ μ → Play σ μ α} (hf : ∀ w, Tending P (f w)) : Tending P (get >>= f) :=
  fun w₀ => .get (fun _ _ h => congrArg f h.1) fun w => hf w w₀

/-- Changes that touch neither runners nor nodes nor marks. -/
theorem aside {f : World σ μ → World σ μ} (hseat : ∀ w, (f w).seat = w.seat)
    (hat : ∀ w s, (f w).at? s = w.at? s) (hnodes : ∀ w, (f w).nodes = w.nodes)
    (hjournal : ∀ w, (f w).journal = w.journal) :
    Tending P (modify f : Play σ μ PUnit) := by
  intro w₀
  refine .modify ?_
  rintro w _ ⟨rfl, ht⟩
  exact ⟨rfl, ht.aside (hseat w) (hat w) (hnodes w) fun m hm => by rwa [hjournal] at hm⟩

theorem modify {f : World σ μ → World σ μ} (hf : ∀ w : World σ μ, w.InOrder P → w.Tends P (f w)) :
    Tending P (modify f : Play σ μ PUnit) :=
  fun _ => .modify fun _ _ h => ⟨congrArg f h.1, h.2.trans (hf _ h.2.order)⟩

end Tending

/-- Host code that does what calls may do. -/
structure Host.Tends (P : μ → Prop) (host : Host σ μ) : Prop where
  read : ∀ h, Tending P (host.read h)
  write : ∀ h v, Tending P (host.write h v)
  call : ∀ h args, Tending P (host.call h args)
  callRaw : ∀ h args, Tending P (host.callRaw h args)
  handle : ∀ seat h n, Tending P (host.handle seat h n)

theorem Host.Tends.congruent {P : μ → Prop} {host : Host σ μ} (hh : host.Tends P) (w₀ : World σ μ) :
    Congruent host fun w w' => w = w' ∧ w₀.Tends P w where
  vars h := congrArg World.vars h.1
  functions h := congrArg World.functions h.1
  seat h := congrArg World.seat h.1
  bus h := congrArg (·.runner.bus) h.1
  strictText h := congrArg (·.runnerConfig.strictText) h.1
  isLive h s := congrArg (World.isLive host · s) h.1
  noting := by
    rintro w _ ⟨rfl, ht⟩ e he
    refine ⟨rfl, ht.aside rfl (fun _ => rfl) rfl fun m hm => ?_⟩
    rcases List.mem_cons.1 hm with rfl | hm
    · cases he
    · exact hm
  withVars := by
    rintro w _ ⟨rfl, ht⟩ vs
    exact ⟨rfl, ht.aside rfl (fun _ => rfl) rfl fun _ hm => hm⟩
  withBus := by
    rintro w _ ⟨rfl, ht⟩ b
    exact ⟨rfl, ht.trans (ht.order.tends_withRunner (fun hr => ht.order.stands w.seat w.runner w.at?_seat hr)
      fun hb => ⟨hb, .inr rfl⟩)⟩
  read h := hh.read h w₀
  write h v := hh.write h v w₀
  call h args := hh.call h args w₀
  callRaw h args := hh.callRaw h args w₀
  handle seat h n := hh.handle seat h n w₀

theorem Tending.wp_order {α : Type} {P : μ → Prop} {x : Play σ μ α} (hx : Tending P x) {w : World σ μ}
    (hw : w.InOrder P) :
    Parley.wp x (fun _ v => v.InOrder P) (fun _ v => v.InOrder P) w :=
  wp_mono (hx.wp hw) (fun _ _ h => h.order) fun _ _ h => h.order

theorem Same.and_left {α : Type} {R : World σ μ → World σ μ → Prop} {A : World σ μ → Prop}
    {x : Play σ μ α} {w : World σ μ} {r : EStateM.Result Fault (World σ μ) α} (h : Same R (x w) r)
    (hA : wp x (fun _ => A) (fun _ => A) w) :
    Same (fun v v' => R v v' ∧ A v) (x w) r := by
  unfold wp at hA
  generalize x w = s at h hA
  cases h with
  | ok a h => exact .ok a ⟨h, hA⟩
  | error f h => exact .error f ⟨h, hA⟩

/-- Order is kept beside whatever else is kept. -/
theorem Congruent.inOrder {P : μ → Prop} {host : Host σ μ} {R : World σ μ → World σ μ → Prop}
    (hR : Congruent host R) (hh : host.Tends P) : Congruent host fun w w' => R w w' ∧ w.InOrder P where
  vars h := hR.vars h.1
  functions h := hR.functions h.1
  seat h := hR.seat h.1
  bus h := hR.bus h.1
  strictText h := hR.strictText h.1
  isLive h := hR.isLive h.1
  noting {w _} h e he := ⟨hR.noting h.1 e he, ((hh.congruent w).noting ⟨rfl, h.2.tends⟩ e he).2.order⟩
  withVars {w _} h vs := ⟨hR.withVars h.1 vs, ((hh.congruent w).withVars ⟨rfl, h.2.tends⟩ vs).2.order⟩
  withBus {w _} h b := ⟨hR.withBus h.1 b, ((hh.congruent w).withBus ⟨rfl, h.2.tends⟩ b).2.order⟩
  read hd _ _ h := (hR.read hd h.1).and_left (Tending.wp_order (hh.read hd) h.2)
  write hd v _ _ h := (hR.write hd v h.1).and_left (Tending.wp_order (hh.write hd v) h.2)
  call hd args _ _ h := (hR.call hd args h.1).and_left (Tending.wp_order (hh.call hd args) h.2)
  callRaw hd args _ _ h := (hR.callRaw hd args h.1).and_left (Tending.wp_order (hh.callRaw hd args) h.2)
  handle seat hd n _ _ h := (hR.handle seat hd n h.1).and_left (Tending.wp_order (hh.handle seat hd n) h.2)

end Parley
