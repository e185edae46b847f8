import Parley.Proofs.CallOrder
import Parley.Proofs.Notices

/-! # Host code that runs no session

Discreet host code may look at everything, keep a state, and use variables, functions, scripts and buses as it likes;
it does not start a session, go on with one, or end it, at any seat. Whatever it does, every runner stays where it is,
and tells nothing of its own (`World.Unmoved`). -/

namespace Parley
variable {σ μ : Type}

namespace World

/-- Since `w₀` no runner has moved or told anything. -/
structure Unmoved (w₀ w : World σ μ) : Prop where
  seat : w.seat = w₀.seat
  places : ∀ s, (w.at? s).map Runner.place = (w₀.at? s).map Runner.place
  told : ∀ s, w.told s = w₀.told s

variable {w₀ w w' : World σ μ}

namespace Unmoved

theorem refl (w : World σ μ) : w.Unmoved w := ⟨rfl, fun _ => rfl, fun _ => rfl⟩

theorem trans (h : w₀.Unmoved w) (h' : w.Unmoved w') : w₀.Unmoved w' :=
  ⟨h'.seat.trans h.seat, fun s => (h'.places s).trans (h.places s), fun s => (h'.told s).trans (h.told s)⟩

theorem withRunner (h : w₀.Unmoved w) {r : Runner} (hr : r.place = w.runner.place) : w₀.Unmoved (w.withRunner r) := by
  refine ⟨h.seat, fun s => ?_, h.told⟩
  rw [← h.places, at?_withRunner]
  split
  · next hs => rw [hs, at?_seat]; exact congrArg some hr
  · rfl

theorem noting (h : w₀.Unmoved w) {e : Entry μ} (he : ∀ s, (w.noting e).told s = w.told s) : w₀.Unmoved (w.noting e) :=
  ⟨h.seat, h.places, fun s => (he s).trans (h.told s)⟩

theorem configured (h : w₀.Unmoved w) (c : Config) : w₀.Unmoved (w.setRunnerConfig c) := by
  unfold setRunnerConfig
  split
  · exact h.withRunner rfl
  · exact ⟨h.seat, h.places, h.told⟩

/-- The runner in front is still where it was. -/
theorem place (h : w₀.Unmoved w) : w.runner.place = w₀.runner.place := by
  have hfront := h.places w₀.seat
  rw [at?_seat, ← h.seat, at?_seat] at hfront
  exact Option.some.inj hfront

theorem session (h : w₀.Unmoved w) : w.runner.session = w₀.runner.session := congrArg Place.session h.place

theorem menu (h : w₀.Unmoved w) : w.runner.menu = w₀.runner.menu := congrArg Place.menu h.place

end Unmoved
end World

/-- Moves no runner, and has none tell anything. -/
def Unmoving {α : Type} (x : Play σ μ α) : Prop := ∀ w₀ : World σ μ, Upholds w₀.Unmoved (fun _ => True) x

namespace Unmoving
variable {α : Type} {x : Play σ μ α}

theorem wp (hx : Unmoving x) (w : World σ μ) : wp x (fun _ => w.Unmoved) (fun _ => w.Unmoved) w :=
  wp_mono (hx w (.refl w)) (fun _ _ h => h) fun _ _ h => h.1

theorem of_wp (h : ∀ w : World σ μ, Parley.wp x (fun _ => w.Unmoved) (fun _ => w.Unmoved) w) : Unmoving x :=
  fun _ w hw => wp_mono (h w) (fun _ _ h => hw.trans h) fun _ _ h => ⟨hw.trans h, trivial⟩

theorem onSeat (hx : Unmoving x) (seat : Nat) : Unmoving (Play.onSeat seat x) := by
  refine .of_wp fun w => ?_
  have hback {w' : World σ μ} (h : (w.turnTo seat).Unmoved w') : w.Unmoved (w'.turnTo w.seat) := by
    have hplaces (s : Nat) : (w'.at? s).map Runner.place = (w.at? s).map Runner.place := by
      rw [h.places, World.at?_turnTo]
    refine ⟨World.seat_turnTo ?_, fun s => ?_, fun s => ?_⟩
    · have hfront := congrArg Option.isSome (hplaces w.seat)
      rw [World.at?_seat] at hfront
      simpa using hfront
    · rw [World.at?_turnTo, hplaces]
    · rw [World.told_turnTo, h.told, World.told_turnTo]
  exact wp_onSeat.2 (wp_mono (hx.wp (w.turnTo seat)) (fun _ _ h => hback h) fun _ _ h => hback h)

end Unmoving

structure Host.Discreet (host : Host σ μ) : Prop where
  read : ∀ h, Unmoving (host.read h)
  write : ∀ h v, Unmoving (host.write h v)
  call : ∀ h args, Unmoving (host.call h args)
  callRaw : ∀ h args, Unmoving (host.callRaw h args)
  handle : ∀ seat h n, Unmoving (host.handle seat h n)

section
variable {host : Host σ μ} (hh : host.Discreet)
include hh

theorem Host.Discreet.upkeep (w₀ : World σ μ) : Upkeep host (fun _ => True) w₀.Unmoved fun _ => True where
  own _ _ := trivial
  noting {w} h _ he := h.noting fun s => w.told_quiet s he
  custom {w} h kind data := h.noting fun s => w.told_custom s w.seat kind data
  withVars h _ := ⟨h.seat, h.places, h.told⟩
  withFunctions h _ := ⟨h.seat, h.places, h.told⟩
  withBus h _ := h.withRunner rfl
  configured h c := h.configured c
  putNode h _ _ := ⟨h.seat, h.places, h.told⟩
  noNodes h := ⟨h.seat, h.places, h.told⟩
  read hd := hh.read hd w₀
  write hd v := hh.write hd v w₀
  call hd args := hh.call hd args w₀
  callRaw hd args := hh.callRaw hd args w₀
  handle seat hd n := hh.handle seat hd n w₀

/-- Whatever upholds all that there is an upkeep for. -/
theorem Host.Discreet.unmoving {α : Type} {x : Play σ μ α} (hx : ∀ {N I E}, Upkeep host N I E → Upholds I E x) :
    Unmoving x :=
  fun w₀ => hx (hh.upkeep w₀)

theorem Play.unmoving_perform {op : Operation} (hop : op.aboutSession = false) : Unmoving (perform host op) :=
  fun w₀ => upholds_perform (hh.upkeep w₀) op.brings_true fun hsession => by rw [hop] at hsession; cases hsession

theorem Play.unmoving_nextContent : Unmoving (nextContent host) := by
  intro w₀
  have hlimit (limit : Nat) : Upholds w₀.Unmoved (fun _ => True) (failLimit limit : Play σ μ Lookahead) :=
    .runner fun r => (Upholds.ofExcept fun _ _ => trivial).bind fun _ => upholds_failOn (hh.upkeep w₀) .runner rfl
  exact upholds_nextContent (hh.upkeep w₀) hlimit

end

namespace Code
variable {α : Type}

/-- Asks for nothing that is about a session. -/
def Discreet : Code σ μ α → Prop
  | pure _ | fail _ => True
  | look next => ∀ w, (next w).Discreet
  | keep _ next | mark _ next => next.Discreet
  | ask _ op next => op.aboutSession = false ∧ ∀ a, (next a).Discreet

theorem Discreet.unmoving {perform : Operation → Play σ μ Answer}
    (hp : ∀ op, op.aboutSession = false → Unmoving (perform op)) {c : Code σ μ α} (hc : c.Discreet) :
    Unmoving (c.run perform) := by
  induction c with
  | pure a => exact fun _ => .pure a
  | fail f => exact fun _ => .throw trivial
  | look next ih => exact fun w₀ w hw => ih w (hc w) w₀ hw
  | keep s next ih => exact fun w₀ => .bind (.modify fun w hw => ⟨hw.seat, hw.places, hw.told⟩) fun _ => ih hc w₀
  | mark m next ih => exact fun w₀ => .bind (.modify fun w hw => hw.noting fun s => w.told_marked s m) fun _ => ih hc w₀
  | ask seat op next ih =>
    refine fun w₀ w hw => wp_run_ask.2 ?_
    have hask := (hp op hc.1).onSeat seat w₀ hw
    exact wp_mono hask (fun _ _ h => ih _ (hc.2 _) w₀ h) fun _ _ h => ih _ (hc.2 _) w₀ h.1

end Code

structure Behaviour.Discreet (b : Behaviour σ μ) : Prop where
  read : ∀ h, (b.read h).Discreet
  write : ∀ h v, (b.write h v).Discreet
  call : ∀ h args, (b.call h args).Discreet
  callRaw : ∀ h args, (b.callRaw h args).Discreet
  handle : ∀ seat h n, (b.handle seat h n).Discreet

theorem Behaviour.Discreet.host {b : Behaviour σ μ} (hb : b.Discreet) (patience depth : Nat) :
    (Host.ofBehaviour b patience depth).Discreet := by
  induction depth with
  | zero =>
    have hfail {α : Type} : Unmoving (throw .exhausted : Play σ μ α) := fun _ => .throw trivial
    exact ⟨fun _ => hfail, fun _ _ => hfail, fun _ _ => hfail, fun _ _ => hfail, fun _ _ _ => hfail⟩
  | succ depth ih =>
    have hp (op : Operation) (hop : op.aboutSession = false) := Play.unmoving_perform ih hop
    exact ⟨fun h => (hb.read h).unmoving hp, fun h v => (hb.write h v).unmoving hp,
      fun h args => (hb.call h args).unmoving hp, fun h args => (hb.callRaw h args).unmoving hp,
      fun seat h n => (hb.handle seat h n).unmoving hp⟩

end Parley
