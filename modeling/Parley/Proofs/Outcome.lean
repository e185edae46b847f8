import Parley.Engine.Step

/-! # Weakest preconditions

`wp x Q E w`: from the world `w`, `x` either answers and leaves `Q` behind, or fails and leaves `E` behind.
A fault does not undo what was done before it, so both cases are about the world in which `x` ends. -/

namespace Parley
variable {σ μ α β : Type}

/-- The world in which a run ends. -/
def after (x : Play σ μ α) (w : World σ μ) : World σ μ :=
  match x w with
  | .ok _ w' | .error _ w' => w'

def wp (x : Play σ μ α) (Q : α → World σ μ → Prop) (E : Fault → World σ μ → Prop) (w : World σ μ) :
    Prop :=
  match x w with
  | .ok a w' => Q a w'
  | .error f w' => E f w'

section
variable {Q Q' : α → World σ μ → Prop} {E E' : Fault → World σ μ → Prop} {w : World σ μ}

theorem wp_ok {x : Play σ μ α} {a : α} {w' : World σ μ} (hx : x w = .ok a w') : wp x Q E w ↔ Q a w' := by
  rw [wp, hx]

theorem wp_error {x : Play σ μ α} {f : Fault} {w' : World σ μ} (hx : x w = .error f w') :
    wp x Q E w ↔ E f w' := by
  rw [wp, hx]

theorem run_bind_ok {x : Play σ μ α} {f : α → Play σ μ β} {a : α} {w' : World σ μ} (hx : x w = .ok a w') :
    (x >>= f) w = f a w' := by
  change EStateM.bind x f w = _
  rw [EStateM.bind, hx]

theorem run_get (w : World σ μ) : (get : Play σ μ (World σ μ)) w = .ok w w := rfl

theorem run_bind_error {x : Play σ μ α} {f : α → Play σ μ β} {e : Fault} {w' : World σ μ}
    (hx : x w = .error e w') :
    (x >>= f) w = .error e w' := by
  change EStateM.bind x f w = _
  rw [EStateM.bind, hx]

theorem run_bind_congr {x y : Play σ μ α} {w' : World σ μ} (h : x w = y w') (f : α → Play σ μ β) :
    (x >>= f) w = (y >>= f) w' := by
  change EStateM.bind x f w = EStateM.bind y f w'
  rw [EStateM.bind, EStateM.bind, h]

theorem wp_pure (a : α) : wp (pure a : Play σ μ α) Q E w ↔ Q a w := Iff.rfl

theorem wp_bind {Q : β → World σ μ → Prop} (x : Play σ μ α) (f : α → Play σ μ β) :
    wp (x >>= f) Q E w ↔ wp x (fun a => wp (f a) Q E) E w := by
  change wp (EStateM.bind x f) Q E w ↔ _
  unfold wp EStateM.bind
  cases x w <;> rfl

theorem wp_mono {x : Play σ μ α} (h : wp x Q E w) (hQ : ∀ a w', Q a w' → Q' a w')
    (hE : ∀ f w', E f w' → E' f w') : wp x Q' E' w := by
  unfold wp at h ⊢
  cases hx : x w <;> rw [hx] at h
  · exact hQ _ _ h
  · exact hE _ _ h

theorem wp_after {x : Play σ μ α} {P : World σ μ → Prop} (h : wp x (fun _ => P) (fun _ => P) w) :
    P (after x w) := by
  unfold wp at h; unfold after
  cases hx : x w <;> rw [hx] at h <;> exact h

theorem wp_of_after {x : Play σ μ α} {P : World σ μ → Prop} (h : P (after x w)) : wp x (fun _ => P) (fun _ => P) w := by
  unfold after at h; unfold wp
  cases hx : x w <;> rw [hx] at h <;> exact h

theorem wp_ite {c : Prop} [Decidable c] {x y : Play σ μ α} :
    wp (if c then x else y) Q E w ↔ if c then wp x Q E w else wp y Q E w := by
  split <;> rfl

theorem wp_get {Q : World σ μ → World σ μ → Prop} : wp get Q E w ↔ Q w w := Iff.rfl

theorem wp_runner {Q : Runner → World σ μ → Prop} : wp Play.runner Q E w ↔ Q w.runner w := Iff.rfl

theorem wp_runnerConfig {Q : Config → World σ μ → Prop} :
    wp Play.runnerConfig Q E w ↔ Q w.runnerConfig w := Iff.rfl

theorem wp_ensuring {x : Play σ μ α} {f : World σ μ → World σ μ} :
    wp (x.ensuring f) Q E w ↔ wp x (fun a w' => Q a (f w')) (fun e w' => E e (f w')) w := by
  unfold wp Play.ensuring
  cases x w <;> rfl

theorem wp_onSeat {x : Play σ μ α} {seat : Nat} :
    wp (Play.onSeat seat x) Q E w ↔
      wp x (fun a w' => Q a (w'.turnTo w.seat)) (fun e w' => E e (w'.turnTo w.seat)) (w.turnTo seat) :=
  wp_ensuring

end

/-- The world with the runner in front changed. -/
def World.withRunner (w : World σ μ) (r : Runner) : World σ μ := { w with runner := r }

end Parley
