import Parley.Proofs.HostOrder

/-! # Runners at rest are well placed

What the order of a world says about a single runner, spelled out: `Runner.WellPlaced`. It holds of every
runner that runs a session and no step, not only between the calls of the host but also whenever host code
that the engine has called gets to look (`Code.reporting`). -/

namespace Parley
variable {σ : Type}

structure Runner.WellPlaced (r : Runner) : Prop where
  /-- The outermost frame is a node, and it is the only one. -/
  node : ∃ inner n i, r.stack = inner ++ [⟨.node n, i⟩] ∧ ∀ f ∈ inner, ∀ m, f.container ≠ .node m
  /-- Every other frame is a child of the frame below it. -/
  child : ∀ i f g, r.stack[i]? = some f → r.stack[i + 1]? = some g → g.Holds r.memo f.container
  within : ∀ f ∈ r.stack, f.Within r.memo
  distinct : (stackKeys r.stack).Nodup
  /-- A branch has been chosen for each condition below the innermost frame. -/
  chosen : ∀ f ∈ r.stack.tail, ∀ c, f.container = .condition c → ∃ b, r.memo.lookup c.key = some b
  remembered : ∀ entry ∈ r.memo, entry.1 ∈ stackKeys r.stack

namespace Stacked
variable {m : Memo} {n : Node} {stack : List Frame}

theorem holds (h : Stacked m n stack) {i : Nat} {f g : Frame} (hf : stack[i]? = some f)
    (hg : stack[i + 1]? = some g) :
    g.Holds m f.container := by
  induction h generalizing i with
  | node => simp at hg
  | child hchild _ _ ih =>
    cases i with
    | zero => cases hf; cases hg; exact hchild
    | succ i => exact ih hf hg

theorem chosen (h : Stacked m n stack) :
    ∀ f ∈ stack.tail, ∀ c, f.container = .condition c → ∃ b, m.lookup c.key = some b := by
  induction h with
  | node => simp
  | @child f g below hchild _ _ ih =>
    refine List.forall_mem_cons.2 ⟨fun c hc => ?_, ih⟩
    have hitems : ∃ items, g.items m = some items := by
      cases hf : f.container with
      | node => rw [hf] at hchild; exact hchild.elim
      | choice => rw [hf] at hchild; exact ⟨_, hchild.choose_spec.1⟩
      | condition => rw [hf] at hchild; exact ⟨_, hchild.choose_spec.choose_spec.1⟩
    obtain ⟨items, hitems⟩ := hitems
    rw [Frame.items, hc] at hitems
    obtain ⟨b, hb, -⟩ := Option.bind_eq_some_iff.1 hitems
    exact ⟨b, hb⟩

end Stacked

theorem Place.Stands.runner_wellPlaced {r : Runner} (h : r.place.Stands) : r.WellPlaced := by
  obtain ⟨n, hn, -⟩ := h
  obtain ⟨inner, i, hs, hinner⟩ := hn.stacked.node_below
  refine ⟨⟨inner, n, i, hs, hinner⟩, fun i f g => hn.stacked.holds, hn.stacked.within, ?_, hn.stacked.chosen,
    hn.remembered⟩
  have hnodup := (agenda_perm r.memo r.stack).nodup_iff.1 (hn.stacked.nodup hn.nodup)
  exact (List.nodup_append.1 hnodup).1

/-- What the host sees of the runners: the one at each seat. -/
abbrev Seating := Nat → Option Runner

def Seating.WellPlaced (s : Seating) : Prop := ∀ seat r, s seat = some r → r.IsResting → r.WellPlaced

theorem World.InOrder.seating_wellPlaced {μ : Type} {P : μ → Prop} {w : World σ μ} (h : w.InOrder P) :
    Seating.WellPlaced w.at? :=
  fun seat r hr hrest => (h.stands seat r hr hrest).runner_wellPlaced

/-- Puts what it sees on record before it goes on. -/
def Code.witnessed {α : Type} (c : Code σ Seating α) : Code σ Seating α := .look fun w => .mark w.at? c

/-- The same code, which puts on record what it can see whenever it has got control, and nothing else. -/
def Code.reporting {α : Type} : Code σ Seating α → Code σ Seating α
  | .pure a => .pure a
  | .fail f => .fail f
  | .look next => .look fun w => (next w).reporting
  | .keep s next => .keep s next.reporting
  | .mark _ next => next.reporting
  | .ask seat op next => .ask seat op fun a => (next a).reporting.witnessed

def Behaviour.reporting (b : Behaviour σ Seating) : Behaviour σ Seating where
  read h := (b.read h).reporting.witnessed
  write h v := (b.write h v).reporting.witnessed
  call h args := (b.call h args).reporting.witnessed
  callRaw h args := (b.callRaw h args).reporting.witnessed
  handle seat h n := (b.handle seat h n).reporting.witnessed
  owns := b.owns

theorem Code.vouches_witnessed {α : Type} {c : Code σ Seating α} (h : c.Vouches Seating.WellPlaced) :
    c.witnessed.Vouches Seating.WellPlaced :=
  fun _ hw => ⟨hw.seating_wellPlaced, h⟩

theorem Code.vouches_reporting {α : Type} (c : Code σ Seating α) :
    c.reporting.Vouches Seating.WellPlaced := by
  induction c with
  | pure | fail => trivial
  | look next ih => exact fun w _ => ih w
  | keep s next ih => exact ih
  | mark m next ih => exact ih
  | ask seat op next ih => exact fun a => Code.vouches_witnessed (ih a)

theorem Behaviour.vouches_reporting (b : Behaviour σ Seating) : b.reporting.Vouches Seating.WellPlaced :=
  ⟨fun _ => Code.vouches_witnessed (Code.vouches_reporting _), fun _ _ => Code.vouches_witnessed (Code.vouches_reporting _),
    fun _ _ => Code.vouches_witnessed (Code.vouches_reporting _),
    fun _ _ => Code.vouches_witnessed (Code.vouches_reporting _),
    fun _ _ _ => Code.vouches_witnessed (Code.vouches_reporting _)⟩

/-- Whatever the host's code does, and in whatever order it makes its calls: each runner that rests is well
placed, now and whenever host code has looked. -/
theorem Reachable.wellPlaced {b : Behaviour σ Seating} {patience depth : Nat} {w : World σ Seating}
    (h : Reachable (Host.ofBehaviour b.reporting patience depth) w) {seen : Seating}
    (hseen : seen = w.at? ∨ .marked seen ∈ w.journal) {seat : Nat} {r : Runner} (hr : seen seat = some r)
    (hrest : r.IsResting) : r.WellPlaced := by
  have horder := h.inOrder (b.vouches_reporting.tends patience depth)
  rcases hseen with rfl | hmark
  · exact horder.seating_wellPlaced seat r hr hrest
  · exact horder.marks seen hmark seat r hr hrest

/-- A script whose first line stands in a condition within a condition. -/
def nestedScript : String :=
  ":: start\nif true\n    if true\n        A: hi\n        B: hi\n    endif\nendif\n"

theorem Reachable.wellPlaced_nested :
    ∃ w : World Unit Seating, Reachable (Host.ofBehaviour Behaviour.silent.reporting 0 1) w ∧
      ∃ r, w.at? w.seat = some r ∧ r.IsResting ∧ r.stack.length = 3 ∧ r.WellPlaced := by
  let host : Host Unit Seating := Host.ofBehaviour Behaviour.silent.reporting 0 1
  let w := after (Play.perform host (.start none 0 false)) (after (Play.perform host (.register nestedScript))
    { host := () })
  have hw : Reachable host w := ((Reachable.opened (.alone {} ())).called _).called _
  have hrest : w.runner.IsResting := ⟨by decide +kernel, by decide +kernel⟩
  exact ⟨w, hw, w.runner, w.at?_seat, hrest, by decide +kernel, Reachable.wellPlaced hw (.inl rfl) w.at?_seat hrest⟩

end Parley
