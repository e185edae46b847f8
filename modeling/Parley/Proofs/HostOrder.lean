import Parley.Proofs.CallOrder

/-! # Host code keeps order

Host code asks for calls and does nothing else to runners and nodes, so it keeps order as soon as the calls
do, as long as its marks are as they should be in the worlds that it gets to see (`Code.Vouches`). A world is
`Reachable` if calls lead to it from one that has runners without a session and no nodes. -/

namespace Parley
variable {σ μ : Type} {P : μ → Prop}

namespace World
variable {w w' : World σ μ}

theorem nodes_turnTo (w : World σ μ) (seat : Nat) : (w.turnTo seat).nodes = w.nodes := by
  unfold turnTo
  split
  · rfl
  · split <;> rfl

theorem journal_turnTo (w : World σ μ) (seat : Nat) : (w.turnTo seat).journal = w.journal := by
  unfold turnTo
  split
  · rfl
  · split <;> rfl

theorem InOrder.turnTo (h : w.InOrder P) (seat : Nat) : (w.turnTo seat).InOrder P := by
  refine ⟨?_, fun s r hr => ?_, fun m hm => ?_⟩
  · rw [nodes_turnTo]; exact h.parsed
  · rw [at?_turnTo] at hr; exact h.stands s r hr
  · rw [journal_turnTo] at hm; exact h.marks m hm

/-- A call at another seat, seen from this one. -/
theorem Tends.turnTo_back {seat : Nat} (ht : (w.turnTo seat).Tends P w') :
    w.Tends P (w'.turnTo w.seat) := by
  have hseats (s : Nat) : (w'.at? s).isSome = (w.at? s).isSome := by rw [ht.seats, at?_turnTo]
  refine ⟨ht.order.turnTo _, seat_turnTo ?_, fun s => ?_, fun s r hr hb => ?_⟩
  · rw [hseats, at?_seat]; rfl
  · rw [at?_turnTo]; exact hseats s
  · rw [at?_turnTo]
    exact ht.busy s r (by rw [at?_turnTo]; exact hr) hb

end World

theorem Tending.onSeat {α : Type} {x : Play σ μ α} (hx : Tending P x) (seat : Nat) :
    Tending P (Play.onSeat seat x) := by
  refine .of_wp fun w hw => wp_onSeat.2 ?_
  exact wp_mono (hx.wp (hw.turnTo seat)) (fun _ _ h => h.turnTo_back) fun _ _ h => h.turnTo_back

namespace Code
variable {α : Type}

/-- In a world in order the code makes only marks with `P`. -/
def Vouches (P : μ → Prop) : Code σ μ α → Prop
  | pure _ | fail _ => True
  | look next => ∀ w : World σ μ, w.InOrder P → (next w).Vouches P
  | keep _ next => next.Vouches P
  | mark m next => P m ∧ next.Vouches P
  | ask _ _ next => ∀ a, (next a).Vouches P

/-- Any code vouches for nothing. -/
theorem vouches_true (c : Code σ μ α) : c.Vouches fun _ => True := by
  induction c with
  | pure | fail => trivial
  | look next ih => exact fun w _ => ih w
  | keep s next ih => exact ih
  | mark m next ih => exact ⟨trivial, ih⟩
  | ask seat op next ih => exact ih

theorem wp_run_ask {perform : Operation → Play σ μ Answer} {seat : Nat} {op : Operation}
    {next : Except Fault Answer → Code σ μ α} {Q : α → World σ μ → Prop} {E : Fault → World σ μ → Prop} {w : World σ μ} :
    wp ((ask seat op next).run perform) Q E w ↔ wp (Play.onSeat seat (perform op))
      (fun a => wp ((next (.ok a)).run perform) Q E) (fun f => wp ((next (.error f)).run perform) Q E) w := by
  rewrite [run]
  unfold wp
  dsimp only
  cases Play.onSeat seat (perform op) w <;> rfl

theorem tending_run {perform : Operation → Play σ μ Answer} (hp : ∀ op, Tending P (perform op))
    {c : Code σ μ α} (hc : c.Vouches P) : Tending P (c.run perform) := by
  induction c with
  | pure a => exact .pure a
  | fail f => exact .throw f
  | look next ih =>
    refine .of_wp fun w hw => ?_
    exact (ih w (hc w hw)).wp hw
  | keep s next ih =>
    have hkeep : Tending P (modify fun w => { w with host := s } : Play σ μ Unit) :=
      .aside (fun _ => rfl) (fun _ _ => rfl) (fun _ => rfl) fun _ => rfl
    exact hkeep.bind fun _ => ih hc
  | mark m next ih =>
    have hmark : Tending P (Play.note (.marked m) : Play σ μ Unit) :=
      .modify fun w hw => ⟨⟨hw.parsed, hw.stands, fun m' hm => by
        rcases List.mem_cons.1 hm with hm | hm
        · cases hm; exact hc.1
        · exact hw.marks m' hm⟩, rfl, fun _ => rfl, hw.tends.busy⟩
    exact hmark.bind fun _ => ih hc.2
  | ask seat op next ih =>
    refine .of_wp fun w hw => wp_run_ask.2 ?_
    have hnext {w' : World σ μ} (h : w.Tends P w') (a : Except Fault Answer) :
        wp ((next a).run perform) (fun _ => w.Tends P) (fun _ => w.Tends P) w' :=
      wp_mono ((ih a (hc a)).wp h.order) (fun _ _ h' => h.trans h') fun _ _ h' => h.trans h'
    exact wp_mono (((hp op).onSeat seat).wp hw) (fun _ _ h => hnext h _) fun _ _ h => hnext h _

end Code

/-- All the code of a host vouches. -/
structure Behaviour.Vouches (P : μ → Prop) (b : Behaviour σ μ) : Prop where
  read : ∀ h, (b.read h).Vouches P
  write : ∀ h v, (b.write h v).Vouches P
  call : ∀ h args, (b.call h args).Vouches P
  callRaw : ∀ h args, (b.callRaw h args).Vouches P
  handle : ∀ seat h n, (b.handle seat h n).Vouches P

theorem Behaviour.vouches_true (b : Behaviour σ μ) : b.Vouches fun _ => True :=
  ⟨fun _ => Code.vouches_true _, fun _ _ => Code.vouches_true _, fun _ _ => Code.vouches_true _,
    fun _ _ => Code.vouches_true _, fun _ _ _ => Code.vouches_true _⟩

theorem Behaviour.Vouches.tends {b : Behaviour σ μ} (hb : b.Vouches P) (patience depth : Nat) :
    (Host.ofBehaviour b patience depth).Tends P := by
  induction depth with
  | zero => exact ⟨fun _ => .throw _, fun _ _ => .throw _, fun _ _ => .throw _, fun _ _ => .throw _, fun _ _ _ => .throw _⟩
  | succ depth ih =>
    have hp (op : Operation) := Play.tending_perform ih op
    exact ⟨fun h => Code.tending_run hp (hb.read h), fun h v => Code.tending_run hp (hb.write h v),
      fun h args => Code.tending_run hp (hb.call h args), fun h args => Code.tending_run hp (hb.callRaw h args),
      fun seat h n => Code.tending_run hp (hb.handle seat h n)⟩

/-- All that the host does is to run code. -/
def Host.RunsCode (host : Host σ μ) : Prop :=
  ∃ (b : Behaviour σ μ) (patience depth : Nat), host = Host.ofBehaviour b patience depth

theorem Host.RunsCode.tends {host : Host σ μ} (h : host.RunsCode) : host.Tends fun _ => True := by
  obtain ⟨b, patience, depth, rfl⟩ := h
  exact b.vouches_true.tends patience depth

/-- Runners with configurations and buses and nothing else, and no nodes. -/
structure World.Fresh (w : World σ μ) : Prop where
  nodes : w.nodes = {}
  journal : w.journal = []
  runners : ∀ seat r, w.at? seat = some r → r = { config := r.config, bus := r.bus }

/-- A world with one runner, which shares the configuration. -/
theorem World.Fresh.alone (config : Config) (s : σ) : ({ config, host := s } : World σ μ).Fresh := by
  refine ⟨rfl, rfl, fun seat r hr => ?_⟩
  unfold World.at? at hr
  split at hr <;> cases hr
  rfl

theorem World.Fresh.inOrder {w : World σ μ} (h : w.Fresh) : w.InOrder P := by
  refine ⟨fun name n hn => ?_, fun seat r hr hrest => ?_, fun m hm => ?_⟩
  · rw [h.nodes] at hn; cases hn
  · have := hrest.1
    rw [h.runners seat r hr] at this
    cases this
  · rw [h.journal] at hm; cases hm

/-- Calls lead here, each from the world that the one before has left, whether it went well or failed. The
host may turn to another runner in between, and change its own state. -/
inductive Reachable (host : Host σ μ) : World σ μ → Prop
  | opened {w : World σ μ} (h : w.Fresh) : Reachable host w
  | called {w : World σ μ} (op : Operation) (h : Reachable host w) : Reachable host (after (Play.perform host op) w)
  | turned {w : World σ μ} (seat : Nat) (h : Reachable host w) : Reachable host (w.turnTo seat)
  | kept {w : World σ μ} (s : σ) (h : Reachable host w) : Reachable host { w with host := s }

/-- A host that has no code. -/
def Behaviour.silent : Behaviour σ μ where
  read _ := .fail .exhausted
  write _ _ := .fail .exhausted
  call _ _ := .fail .exhausted
  callRaw _ _ := .fail .exhausted
  handle _ _ _ := .fail .exhausted
  owns _ _ := false

theorem Reachable.inOrder {host : Host σ μ} (hh : host.Tends P) {w : World σ μ} (h : Reachable host w) :
    w.InOrder P := by
  induction h with
  | opened h => exact h.inOrder
  | called op _ ih => exact ((Play.tending_perform hh op).after ih).order
  | turned seat _ ih => exact ih.turnTo seat
  | kept s _ ih => exact (ih.tends.kept s).order

end Parley
