import Parley.Proofs.Aloof
import Parley.Proofs.HostOrder

/-! # Reserved code

Host code that looks at nothing but the outline of a world, keeps a state, makes marks and asks for nothing leaves
runners alone. -/

namespace Parley
variable {σ μ : Type}

namespace Code
variable {α : Type}

/-- Looks at nothing that the outline hides, and asks for nothing. -/
def Reserved : Code σ μ α → Prop
  | pure _ | fail _ => True
  | look next => (∀ w w', w.outline = w'.outline → next w = next w') ∧ ∀ w, (next w).Reserved
  | keep _ next => next.Reserved
  | mark _ next => next.Reserved
  | ask .. => False

theorem Reserved.aloof {c : Code σ μ α} (hc : c.Reserved) (perform : Operation → Play σ μ Answer) :
    Aloof (c.run perform) := by
  induction c with
  | pure a => exact fun w w' h => .ok a ⟨h, .refl w, .refl w'⟩
  | fail f => exact fun w w' h => .error f ⟨h, .refl w, .refl w'⟩
  | look next ih =>
    intro w w' h
    show Same _ ((next w).run perform w) ((next w').run perform w')
    rw [← hc.1 w w' h]
    exact ih w (hc.2 w) h
  | keep s next ih =>
    intro w w' h
    have hkept : ({ w with host := s } : World σ μ).outline = ({ w' with host := s } : World σ μ).outline :=
      congrArg (fun o : World σ μ => { o with host := s }) h
    exact (ih hc hkept).mono fun _ _ ⟨ho, hv, hv'⟩ => ⟨ho, ⟨hv.place, hv.busy, hv.shared, hv.own, hv.shown⟩,
      ⟨hv'.place, hv'.busy, hv'.shared, hv'.own, hv'.shown⟩⟩
  | mark m next ih =>
    intro w w' h
    have hmarked : (w.noting (.marked m)).outline = (w'.noting (.marked m)).outline := by
      rw [World.outline_noting w rfl, World.outline_noting w' rfl, h]
    have huntouched (u : World σ μ) : u.Untouched (u.noting (.marked m)) := ⟨rfl, rfl, rfl, rfl, u.shown_noting (by simp)⟩
    exact (ih hc hmarked).mono fun _ _ ⟨ho, hv, hv'⟩ => ⟨ho, (huntouched w).trans hv, (huntouched w').trans hv'⟩
  | ask => exact hc.elim

end Code

structure Behaviour.Reserved (b : Behaviour σ μ) : Prop where
  read : ∀ h, (b.read h).Reserved
  write : ∀ h v, (b.write h v).Reserved
  call : ∀ h args, (b.call h args).Reserved
  callRaw : ∀ h args, (b.callRaw h args).Reserved
  handle : ∀ seat h n, (b.handle seat h n).Reserved

theorem Behaviour.Reserved.aloof {b : Behaviour σ μ} (hb : b.Reserved) (patience depth : Nat) :
    (Host.ofBehaviour b patience depth).Aloof := by
  cases depth with
  | zero =>
    have hfail {α : Type} : Aloof (throw .exhausted : Play σ μ α) := fun w w' h => .error _ ⟨h, .refl w, .refl w'⟩
    exact ⟨fun _ => hfail, fun _ _ => hfail, fun _ _ => hfail, fun _ _ => hfail, fun _ _ _ => hfail⟩
  | succ depth =>
    exact ⟨fun h => (hb.read h).aloof _, fun h v => (hb.write h v).aloof _, fun h args => (hb.call h args).aloof _,
      fun h args => (hb.callRaw h args).aloof _, fun seat h n => (hb.handle seat h n).aloof _⟩

/-- A host that marks every notice that it handles, and has no other code. -/
def Behaviour.attentive (m : μ) :
    Behaviour σ μ := { silent with handle := fun _ _ _ => .mark m (.pure ()) }

theorem Behaviour.reserved_attentive (m : μ) : (attentive m : Behaviour σ μ).Reserved :=
  ⟨fun _ => trivial, fun _ _ => trivial, fun _ _ => trivial, fun _ _ => trivial, fun _ _ _ => trivial⟩

end Parley
