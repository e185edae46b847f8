import Parley.Proofs.AllCalls
import Parley.Proofs.HostOrder

/-! # What host code does to the buses

Host code that declares what it does puts each operation on record before it asks for it, with the bus that this is
about (`Code.declaring`). What holds of the bus of one seat and of the journal, holds throughout as long as no operation
breaks it and publishing at that seat does not (`Behaviour.abides`): all else that code and the engine do, at this seat
and at others, leaves that bus alone. -/

namespace Parley
variable {σ μ α : Type}

/-- An operation that host code asks for, and the bus of its seat before it. -/
structure Deed where
  seat : Nat
  bus : Bus
  op : Operation

/-- What an operation other than publishing makes of the bus. -/
def Operation.onBus : Operation → Bus → Bus
  | .subscribe kind s, b => b.subscribe kind s
  | .unsubscribe kind handler, b => b.unsubscribe kind handler
  | .clearBus kind, b => b.clear kind
  | .consume, b => { b with current := b.current.map fun d => { d with consumed := true } }
  | _, b => b

/-- An entry about this seat: a notice, the call of a handler, or a deed. -/
def Entry.isAt (seat : Nat) : Entry Deed → Bool
  | .published s _ | .handled s _ _ => s == seat
  | .marked d => d.seat == seat
  | _ => false

theorem Entry.isAt_of_isRoutine {e : Entry Deed} (he : e.isRoutine) (seat : Nat) : e.isAt seat = false := by
  cases e <;> first | rfl | cases he

namespace Code

/-- The same code, which declares each operation before it asks for it, and puts nothing else on record. -/
def declaring : Code σ Deed α → Code σ Deed α
  | .pure a => .pure a
  | .fail f => .fail f
  | .look next => .look fun w => (next w).declaring
  | .keep s next => .keep s next.declaring
  | .mark _ next => next.declaring
  | .ask seat op next => .look fun w => .mark ⟨(w.turnTo seat).seat, (w.turnTo seat).runner.bus, op⟩
      (.ask seat op fun a => (next a).declaring)

end Code

def Behaviour.declaring (b : Behaviour σ Deed) : Behaviour σ Deed where
  read h := (b.read h).declaring
  write h v := (b.write h v).declaring
  call h args := (b.call h args).declaring
  callRaw h args := (b.callRaw h args).declaring
  handle seat h n := (b.handle seat h n).declaring
  owns := b.owns

namespace World

/-- The bus of a seat, if there is a runner. -/
def bus? (w : World σ μ) (s : Nat) : Option Bus := (w.at? s).map Runner.bus

theorem bus?_seat (w : World σ μ) : w.bus? w.seat = some w.runner.bus := by
  rw [bus?, at?_seat]
  rfl

theorem bus?_turnTo (w : World σ μ) (seat s : Nat) : (w.turnTo seat).bus? s = w.bus? s := by
  rw [bus?, at?_turnTo]
  rfl

theorem bus?_withRunner (w : World σ μ) (r : Runner) (s : Nat) :
    (w.withRunner r).bus? s = if s = w.seat then some r.bus else w.bus? s := by
  unfold bus?
  rw [at?_withRunner]
  split <;> rfl

theorem turnTo_noting (w : World σ μ) (e : Entry μ) (seat : Nat) :
    (w.noting e).turnTo seat = (w.turnTo seat).noting e := by
  unfold turnTo noting
  split
  · rfl
  · dsimp only
    split <;> rfl

/-- The runners are at their seats as in `w₀`, with the same one in front, and `Φ` holds of the bus of `s` and of the
journal. -/
structure Watched (s : Nat) (Φ : Bus → List (Entry μ) → Prop) (w₀ w : World σ μ) : Prop where
  seat : w.seat = w₀.seat
  seats : ∀ t, (w.bus? t).isSome = (w₀.bus? t).isSome
  shows : ∃ b, w.bus? s = some b ∧ Φ b w.journal

namespace Watched
variable {s : Nat} {Φ : Bus → List (Entry μ) → Prop} {w₀ w v : World σ μ}

theorem refl {b : Bus} (hb : w.bus? s = some b) (h : Φ b w.journal) : Watched s Φ w w := ⟨rfl, fun _ => rfl, b, hb, h⟩

theorem rebase (h : Watched s Φ w₀ w) : Watched s Φ w w := ⟨rfl, fun _ => rfl, h.shows⟩

theorem trans {Ψ : Bus → List (Entry μ) → Prop} (h : Watched s Ψ w₀ w) (h' : Watched s Φ w v) : Watched s Φ w₀ v :=
  ⟨h'.seat.trans h.seat, fun t => (h'.seats t).trans (h.seats t), h'.shows⟩

theorem front (h : Watched s Φ w₀ w) (hseat : w.seat = s) : Φ w.runner.bus w.journal := by
  obtain ⟨b, hb, hΦ⟩ := h.shows
  subst hseat
  rw [bus?_seat] at hb
  cases hb
  exact hΦ

/-- Another property to be watched from here on. -/
theorem of_front {Ψ : Bus → List (Entry μ) → Prop} (h : Watched s Ψ w₀ w) (hseat : w.seat = s)
    (hΦ : Φ w.runner.bus w.journal) : Watched s Φ w₀ w :=
  ⟨h.seat, h.seats, w.runner.bus, hseat ▸ bus?_seat w, hΦ⟩

/-- What touches neither buses nor the journal. -/
theorem same (h : Watched s Φ w₀ w) (hseat : v.seat = w.seat) (hbus : ∀ t, v.bus? t = w.bus? t)
    (hjournal : v.journal = w.journal) : Watched s Φ w₀ v :=
  ⟨hseat.trans h.seat, fun t => by rw [hbus, h.seats], by rw [hbus, hjournal]; exact h.shows⟩

theorem withRunner (h : Watched s Φ w₀ w) {r : Runner} (hr : r.bus = w.runner.bus) :
    Watched s Φ w₀ (w.withRunner r) := by
  refine h.same rfl (fun t => ?_) rfl
  rw [bus?_withRunner]
  split
  · next ht => rw [ht, bus?_seat, hr]
  · rfl

theorem noting (h : Watched s Φ w₀ w) {e : Entry μ} (he : ∀ b, Φ b w.journal → Φ b (e :: w.journal)) :
    Watched s Φ w₀ (w.noting e) :=
  have ⟨b, hb, hΦ⟩ := h.shows
  ⟨h.seat, h.seats, b, hb, he b hΦ⟩

theorem isSome_withBus (w : World σ μ) (b : Bus) (t : Nat) : ((w.withBus b).bus? t).isSome = (w.bus? t).isSome := by
  show ((w.withRunner { w.runner with bus := b }).bus? t).isSome = _
  rw [bus?_withRunner]
  split
  · next ht => rw [ht, bus?_seat]; rfl
  · rfl

/-- A change of the bus that is watched. -/
theorem withBus (h : Watched s Φ w₀ w) (hseat : w.seat = s) {b : Bus} (hb : Φ b w.journal) :
    Watched s Φ w₀ (w.withBus b) := by
  refine ⟨h.seat, fun t => (isSome_withBus w b t).trans (h.seats t), b, ?_, hb⟩
  show (w.withRunner { w.runner with bus := b }).bus? s = _
  rw [bus?_withRunner, if_pos hseat.symm]

/-- A change that goes on record. -/
theorem noting_withBus (h : Watched s Φ w₀ w) (hseat : w.seat = s) {e : Entry μ} {b : Bus}
    (hb : Φ b (e :: w.journal)) : Watched s Φ w₀ ((w.noting e).withBus b) := by
  refine ⟨h.seat, fun t => (isSome_withBus _ b t).trans (h.seats t), b, ?_, hb⟩
  rw [← hseat]
  exact bus?_seat _

/-- A change of another one. -/
theorem aside (h : Watched s Φ w₀ w) (hseat : w.seat ≠ s) (b : Bus) : Watched s Φ w₀ (w.withBus b) := by
  refine ⟨h.seat, fun t => (isSome_withBus w b t).trans (h.seats t), ?_⟩
  show ∃ b', (w.withRunner { w.runner with bus := b }).bus? s = some b' ∧ _
  rw [bus?_withRunner, if_neg (Ne.symm hseat)]
  exact h.shows

theorem configured (h : Watched s Φ w₀ w) (c : Config) : Watched s Φ w₀ (w.setRunnerConfig c) := by
  unfold setRunnerConfig
  split
  · exact h.withRunner rfl
  · exact h.same rfl (fun _ => rfl) rfl

theorem turnTo (h : Watched s Φ w₀ w) (seat : Nat) : Watched s Φ (w.turnTo seat) (w.turnTo seat) := by
  refine ⟨rfl, fun _ => rfl, ?_⟩
  rw [bus?_turnTo, journal_turnTo]
  exact h.shows

theorem turnTo_back {seat : Nat} (h : Watched s Φ (w.turnTo seat) v) : Watched s Φ w (v.turnTo w.seat) := by
  have hseats (t : Nat) : (v.bus? t).isSome = (w.bus? t).isSome := by rw [h.seats, bus?_turnTo]
  refine ⟨seat_turnTo ?_, fun t => by rw [bus?_turnTo, hseats], ?_⟩
  · have hfront := hseats w.seat
    rw [bus?_seat] at hfront
    simpa [bus?] using hfront
  · rw [bus?_turnTo, journal_turnTo]
    exact h.shows

end Watched
end World

def Abides (s : Nat) (Φ : Bus → List (Entry μ) → Prop) (x : Play σ μ α) : Prop :=
  ∀ w₀ : World σ μ, Upholds (World.Watched s Φ w₀) (fun _ => True) x

theorem Abides.wp {s : Nat} {Φ : Bus → List (Entry μ) → Prop} {x : Play σ μ α} (hx : Abides s Φ x) {w : World σ μ}
    (hw : World.Watched s Φ w w) : wp x (fun _ => World.Watched s Φ w) (fun _ => World.Watched s Φ w) w :=
  wp_mono (hx w hw) (fun _ _ h => h) fun _ _ h => h.1

structure Host.Abides (host : Host σ μ) (s : Nat) (Φ : Bus → List (Entry μ) → Prop) : Prop where
  read : ∀ h, Parley.Abides s Φ (host.read h)
  write : ∀ h v, Parley.Abides s Φ (host.write h v)
  call : ∀ h args, Parley.Abides s Φ (host.call h args)
  callRaw : ∀ h args, Parley.Abides s Φ (host.callRaw h args)
  handle : ∀ seat h n, Parley.Abides s Φ (host.handle seat h n)

/-- No deed breaks `Φ`, and it does not look at other seats or at what the engine has on record of its own calls. -/
structure Overseen (s : Nat) (Φ : Bus → List (Entry Deed) → Prop) : Prop where
  other : ∀ {b journal}, Φ b journal → ∀ e : Entry Deed, e.isAt s = false → Φ b (e :: journal)
  asked : ∀ {b journal}, Φ b journal → ∀ op, Φ (op.onBus b) (.marked ⟨s, b, op⟩ :: journal)

section
variable {s : Nat} {Φ : Bus → List (Entry Deed) → Prop} (ho : Overseen s Φ) {host : Host σ Deed}
include ho

/-- Publishing at another seat. -/
theorem Overseen.delivering (hh : host.Abides s Φ) {w₀ : World σ Deed} (hseat : w₀.seat ≠ s) :
    Delivering host (World.Watched s Φ w₀) fun _ => True where
  exhausted := trivial
  noting h e he := h.noting fun _ hΦ => ho.other hΦ e (e.isAt_of_isRoutine he s)
  handled {w} h hd kind := h.noting fun _ hΦ => ho.other hΦ _ (by simpa [Entry.isAt, h.seat] using hseat)
  withBus h b := h.aside (by rw [h.seat]; exact hseat) b
  handle seat hd n := hh.handle seat hd n w₀

theorem Overseen.publish (hh : host.Abides s Φ)
    (hfront : ∀ n {w : World σ Deed}, World.Watched s Φ w w → w.seat = s →
      wp (Play.publish host n) (fun _ => World.Watched s Φ w) (fun _ => World.Watched s Φ w) w) (n : Notice) :
    Abides s Φ (Play.publish host n) := by
  intro w₀ w hw
  by_cases hseat : w.seat = s
  · exact wp_mono (hfront n hw.rebase hseat) (fun _ _ h => hw.trans h) fun _ _ h => ⟨hw.trans h, trivial⟩
  · have hseat₀ : w₀.seat ≠ s := hw.seat ▸ hseat
    refine Play.upholds_deliver (ho.delivering hh hseat₀) n (hw.noting fun _ hΦ => ho.other hΦ _ ?_)
    simpa [Entry.isAt] using hseat

theorem Overseen.indifferent (hh : host.Abides s Φ) (hpublish : ∀ n, Abides s Φ (Play.publish host n))
    (w₀ : World σ Deed) : Indifferent host (World.Watched s Φ w₀) where
  own _ _ := trivial
  noting h e he := h.noting fun _ hΦ => ho.other hΦ e (e.isAt_of_isRoutine he s)
  withVars h _ := h.same rfl (fun _ => rfl) rfl
  read hd := hh.read hd w₀
  write hd v := hh.write hd v w₀
  call hd args := hh.call hd args w₀
  callRaw hd args := hh.callRaw hd args w₀
  withFunctions h _ := h.same rfl (fun _ => rfl) rfl
  configured h c := h.configured c
  putNode h _ _ := h.same rfl (fun _ => rfl) rfl
  noNodes h := h.same rfl (fun _ => rfl) rfl
  withRunner h _ hr := h.withRunner hr
  numbered h _ := h.same rfl (fun _ => rfl) rfl
  publish n := hpublish n w₀

/-- An operation that has been declared. -/
theorem Overseen.perform (hh : host.Abides s Φ) (hpublish : ∀ n, Abides s Φ (Play.publish host n)) (op : Operation)
    {w : World σ Deed} (hw : World.Watched s Φ w w) :
    wp (Play.perform host op) (fun _ => World.Watched s Φ w) (fun _ => World.Watched s Φ w)
      (w.noting (.marked ⟨w.seat, w.runner.bus, op⟩)) := by
  have hdeed : World.Watched s Φ w
      ((w.noting (.marked ⟨w.seat, w.runner.bus, op⟩)).withBus (op.onBus w.runner.bus)) := by
    by_cases hseat : w.seat = s
    · subst hseat
      exact hw.noting_withBus rfl (ho.asked (hw.front rfl) op)
    · exact (hw.noting fun _ hΦ => ho.other hΦ _ (by simpa [Entry.isAt] using hseat)).aside hseat _
  -- only four operations are done at once, and publishing is for the handlers
  cases op with
  | subscribe | unsubscribe | clearBus | consume => exact hdeed
  | publish kind data =>
    have hpublish : Abides s Φ (Play.perform host (.publish kind data)) := fun w₀ =>
      .bind (hpublish (.custom kind data) w₀) fun _ => .pure _
    exact wp_mono (hpublish w hdeed) (fun _ _ h => h) fun _ _ h => h.1
  | _ =>
    refine wp_mono ((ho.indifferent hh hpublish w).perform (fun hbus => ?_) hdeed) (fun _ _ h => h) fun _ _ h => h.1
    cases hbus

/-- Code that declares what it does. -/
theorem Overseen.code (hh : host.Abides s Φ) (hpublish : ∀ n, Abides s Φ (Play.publish host n)) (c : Code σ Deed α) :
    Abides s Φ (c.declaring.run fun op => Play.perform host op) := by
  induction c with
  | pure a => exact fun _ => .pure a
  | fail f => exact fun _ => .throw trivial
  | look next ih => exact fun w₀ => .get fun w => ih w w₀
  | keep k next ih => exact fun w₀ => .bind (.modify fun _ hw => hw.same rfl (fun _ => rfl) rfl) fun _ => ih w₀
  | mark m next ih => exact ih
  | ask seat op next ih =>
    intro w₀ w hw
    have hask : wp (Play.onSeat seat (Play.perform host op)) (fun _ => World.Watched s Φ w)
        (fun _ => World.Watched s Φ w) (w.noting (.marked ⟨(w.turnTo seat).seat, (w.turnTo seat).runner.bus, op⟩)) := by
      rw [wp_onSeat, World.turnTo_noting]
      exact wp_mono (ho.perform hh hpublish op (hw.turnTo seat)) (fun _ _ h => h.turnTo_back) fun _ _ h => h.turnTo_back
    exact Code.wp_run_ask.2 (wp_mono hask (fun _ _ h => ih _ w₀ (hw.trans h)) fun _ _ h => ih _ w₀ (hw.trans h))

end

/-- What lasts as the journal grows. -/
theorem Host.Abides.publish {s : Nat} {J : List (Entry Deed) → Prop} {host : Host σ Deed}
    (hh : host.Abides s fun _ => J) (hJ : ∀ e {journal}, J journal → J (e :: journal)) (n : Notice) :
    Parley.Abides s (fun _ => J) (Play.publish host n) := by
  intro w₀
  have hdelivering : Delivering host (World.Watched s (fun _ => J) w₀) fun _ => True := by
    refine ⟨trivial, fun h e _ => h.noting fun _ => hJ e, fun h _ _ => h.noting fun _ => hJ _, fun {w} h b => ?_,
      fun seat hd n => hh.handle seat hd n w₀⟩
    by_cases hseat : w.seat = s
    · exact h.withBus hseat (h.front hseat)
    · exact h.aside hseat b
  exact Play.upholds_publish hdelivering fun h => h.noting fun _ => hJ _

/-- All that a host's declared code does, as long as publishing at the seat that is watched leaves `Φ` intact. -/
theorem Behaviour.abides (b : Behaviour σ Deed) {patience : Nat} {s : Nat} {Φ : Bus → List (Entry Deed) → Prop}
    (ho : Overseen s Φ)
    (hfront : ∀ depth, (Host.ofBehaviour b.declaring patience depth).Abides s Φ → ∀ n {w : World σ Deed},
      World.Watched s Φ w w → w.seat = s → wp (Play.publish (Host.ofBehaviour b.declaring patience depth) n)
        (fun _ => World.Watched s Φ w) (fun _ => World.Watched s Φ w) w) (depth : Nat) :
    (Host.ofBehaviour b.declaring patience depth).Abides s Φ := by
  induction depth with
  | zero =>
    have hfail {α : Type} : Abides s Φ (throw .exhausted : Play σ Deed α) := fun _ => .throw trivial
    exact ⟨fun _ => hfail, fun _ _ => hfail, fun _ _ => hfail, fun _ _ => hfail, fun _ _ _ => hfail⟩
  | succ depth ih =>
    have hcode {α : Type} (c : Code σ Deed α) := ho.code ih (ho.publish ih (hfront depth ih)) c
    exact ⟨fun h => hcode (b.read h), fun h v => hcode (b.write h v), fun h args => hcode (b.call h args),
      fun h args => hcode (b.callRaw h args), fun seat h n => hcode (b.handle seat h n)⟩

theorem Behaviour.abides_journal (b : Behaviour σ Deed) (patience depth s : Nat) {J : List (Entry Deed) → Prop}
    (hJ : ∀ e {journal}, J journal → J (e :: journal)) :
    (Host.ofBehaviour b.declaring patience depth).Abides s fun _ => J :=
  b.abides ⟨fun h e _ => hJ e h, fun h _ => hJ _ h⟩ (fun _ hh n _ hw _ => (hh.publish hJ n).wp hw) depth

end Parley
