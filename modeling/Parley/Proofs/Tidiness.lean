import Parley.Proofs.HostOrder
import Parley.Proofs.Queries

/-! # Tidy worlds

A runner is `Tidy` if it has nothing left once its session is gone, and if its stack is rooted in a node while the
session lasts. In a tidy world all runners are, at any time, also in the middle of a step; besides, the queries in the
table and on the runners have `p`, and the host's marks have `P`. `Tidying` calls and host code lead from tidy worlds to
tidy worlds, as calls may do, and do not fail with an internal fault. Everything that is not about a session is tidying
as soon as host code is. -/

namespace Parley
variable {σ μ : Type}

/-- The outermost frame is in a node, and all queries have `p`. -/
structure Rooted (p : Expr → Prop) (stack : List Frame) : Prop where
  root : ∃ n i, stack.getLast? = some ⟨.node n, i⟩
  queries : ∀ f ∈ stack, ∀ e ∈ f.container.queries, p e

namespace Rooted
variable {p : Expr → Prop} {stack below : List Frame} {f g : Frame}

theorem ne_nil (h : Rooted p stack) : stack ≠ [] := by
  rintro rfl
  obtain ⟨n, i, hroot⟩ := h.root
  cases hroot

theorem enter {n : Node} (hn : ∀ e ∈ contentQueries n.content, p e) (i : Nat) : Rooted p [⟨.node n, i⟩] :=
  ⟨⟨n, i, rfl⟩, by simpa [Container.queries] using hn⟩

theorem skip (h : Rooted p (f :: below)) (count : Nat) : Rooted p (f.skip count :: below) := by
  obtain ⟨hf, hbelow⟩ := List.forall_mem_cons.1 h.queries
  refine ⟨?_, List.forall_mem_cons.2 ⟨hf, hbelow⟩⟩
  obtain ⟨n, i, hroot⟩ := h.root
  cases below with
  | nil => cases hroot; exact ⟨n, i + count, rfl⟩
  | cons g below => exact ⟨n, i, by rwa [List.getLast?_cons_cons] at hroot ⊢⟩

theorem push (h : Rooted p stack) {c : Container} (hc : ∀ e ∈ c.queries, p e) : Rooted p (⟨c, 0⟩ :: stack) := by
  refine ⟨?_, List.forall_mem_cons.2 ⟨hc, h.queries⟩⟩
  obtain ⟨n, i, hroot⟩ := h.root
  cases stack with
  | nil => cases hroot
  | cons f below => exact ⟨n, i, by rwa [List.getLast?_cons_cons]⟩

theorem pop (h : Rooted p (f :: g :: below)) : Rooted p (g :: below) := by
  refine ⟨?_, (List.forall_mem_cons.1 h.queries).2⟩
  obtain ⟨n, i, hroot⟩ := h.root
  exact ⟨n, i, by rwa [List.getLast?_cons_cons] at hroot⟩

end Rooted

structure Runner.Tidy (p : Expr → Prop) (r : Runner) : Prop where
  ended : r.session = none → r.place = ⟨[], [], [], none, none⟩
  rooted : r.session.isSome → Rooted p r.stack
  menu : ∀ c ∈ r.menu, ∀ e ∈ contentQueries c.content, p e

namespace Runner.Tidy
variable {p : Expr → Prop} {r r' : Runner}

theorem congr (h : r.Tidy p) (hr : r'.place = r.place) : r'.Tidy p := by
  simp only [place, Place.mk.injEq] at hr
  obtain ⟨hstack, hmemo, hmenu, hsession, hwait⟩ := hr
  refine ⟨fun hs => ?_, fun hs => ?_, fun c hc => h.menu c (hmenu ▸ hc)⟩
  · have hended := h.ended (hsession ▸ hs)
    rwa [place, ← hstack, ← hmemo, ← hmenu, ← hsession, ← hwait] at hended
  · rw [hstack]; exact h.rooted (hsession ▸ hs)

theorem reset (p : Expr → Prop) (r : Runner) : r.reset.Tidy p :=
  ⟨fun _ => rfl, fun h => (by cases h), fun _ hc => (by cases hc)⟩

theorem of_live (hs : r.session.isSome) (hstack : Rooted p r.stack)
    (hmenu : ∀ c ∈ r.menu, ∀ e ∈ contentQueries c.content, p e) : r.Tidy p :=
  ⟨fun h => (by rw [h] at hs; cases hs), fun _ => hstack, hmenu⟩

theorem stack_nil (h : r.Tidy p) (hs : r.session = none) : r.stack = [] := congrArg Place.stack (h.ended hs)

theorem menu_nil (h : r.Tidy p) (hs : r.session = none) : r.menu = [] := congrArg Place.menu (h.ended hs)

/-- Without a session there is no frame to move on. -/
theorem skip (h : r.Tidy p) (count : Nat) : (r.skip count).Tidy p := by
  cases hstack : r.stack with
  | nil => rwa [Runner.skip, hstack]
  | cons f below =>
    rw [Runner.skip_cons hstack]
    cases hs : r.session with
    | none => rw [h.stack_nil hs] at hstack; cases hstack
    | some id =>
      have hrooted : Rooted p (f :: below) := hstack ▸ h.rooted (by simp [hs])
      exact of_live (by simp) (hrooted.skip count) h.menu

theorem withoutWait (h : r.Tidy p) : Tidy p { r with wait := none } :=
  ⟨fun hs => congrArg (fun q : Place => { q with wait := none }) (h.ended hs), h.rooted, h.menu⟩

theorem currentNode (h : r.Tidy p) : ∃ name, r.currentNode = .ok name := by
  cases hs : r.session with
  | none => exact ⟨none, by rw [Runner.currentNode, h.stack_nil hs]; rfl⟩
  | some id =>
    obtain ⟨n, i, hroot⟩ := (h.rooted (by simp [hs])).root
    exact ⟨some n.name, by rw [Runner.currentNode, hroot]⟩

end Runner.Tidy

/-- The queries of the node have `p`. -/
def Node.Asks (p : Expr → Prop) (n : Node) : Prop := ∀ e ∈ contentQueries n.content, p e

namespace World

structure Tidy (p : Expr → Prop) (P : μ → Prop) (w : World σ μ) : Prop where
  nodes : ∀ name n, w.nodes.get? name = some n → n.Asks p
  runners : ∀ seat r, w.at? seat = some r → r.Tidy p
  marks : ∀ m, .marked m ∈ w.journal → P m

namespace Tidy
variable {p : Expr → Prop} {P Q : μ → Prop} {w w' : World σ μ}

theorem front (h : w.Tidy p P) : w.runner.Tidy p := h.runners w.seat w.runner w.at?_seat

theorem mono (h : w.Tidy p P) (hPQ : ∀ m, P m → Q m) : w.Tidy p Q :=
  ⟨h.nodes, h.runners, fun m hm => hPQ m (h.marks m hm)⟩

theorem aside (h : w.Tidy p P) (hat : ∀ s, w'.at? s = w.at? s) (hnodes : w'.nodes = w.nodes)
    (hmarks : ∀ m, .marked m ∈ w'.journal → .marked m ∈ w.journal) : w'.Tidy p P := by
  refine ⟨?_, fun s r hr => h.runners s r (hat s ▸ hr), fun m hm => h.marks m (hmarks m hm)⟩
  rw [hnodes]
  exact h.nodes

theorem noting (h : w.Tidy p P) {e : Entry μ} (he : ∀ m, e ≠ .marked m) : (w.noting e).Tidy p P :=
  h.aside (fun _ => rfl) rfl fun m hm => (List.mem_cons.1 hm).resolve_left (he m).symm

theorem kept (h : w.Tidy p P) (s : σ) : Tidy p P { w with host := s } := h.aside (fun _ => rfl) rfl fun _ hm => hm

theorem marking (h : w.Tidy p P) {m : μ} (hm : P m) : (w.noting (.marked m)).Tidy p P := by
  refine ⟨h.nodes, h.runners, fun m' hm' => ?_⟩
  rcases List.mem_cons.1 hm' with hm' | hm'
  · cases hm'; exact hm
  · exact h.marks m' hm'

theorem withRunner (h : w.Tidy p P) {r : Runner} (hr : r.Tidy p) : (w.withRunner r).Tidy p P := by
  refine ⟨h.nodes, fun s r' hr' => ?_, h.marks⟩
  rw [at?_withRunner] at hr'
  split at hr'
  · cases hr'; exact hr
  · exact h.runners s r' hr'

theorem configured (h : w.Tidy p P) (c : Config) : (w.setRunnerConfig c).Tidy p P := by
  unfold setRunnerConfig
  split
  · exact h.withRunner (h.front.congr rfl)
  · exact h.aside (fun _ => rfl) rfl fun _ hm => hm

theorem putNode (h : w.Tidy p P) {n : Node} (hn : n.Asks p) :
    Tidy p P { w with nodes := w.nodes.put n.name n } := by
  refine ⟨fun name m hm => ?_, h.runners, h.marks⟩
  rw [Table.get?_put] at hm
  split at hm
  · cases hm; exact hn
  · exact h.nodes name m hm

theorem turnTo (h : w.Tidy p P) (seat : Nat) : (w.turnTo seat).Tidy p P := by
  refine h.aside (w.at?_turnTo seat) (w.nodes_turnTo seat) fun m hm => ?_
  rwa [journal_turnTo] at hm

end Tidy

theorem Fresh.tidy {p : Expr → Prop} {P : μ → Prop} {w : World σ μ} (h : w.Fresh) : w.Tidy p P := by
  refine ⟨fun name n hn => ?_, fun seat r hr => ?_, fun m hm => ?_⟩
  · rw [h.nodes] at hn; cases hn
  · rw [h.runners seat r hr]
    exact ⟨fun _ => rfl, fun hs => (by cases hs), fun _ hc => (by cases hc)⟩
  · rw [h.journal] at hm; cases hm

end World

/-- Any fault but an internal one. -/
def Fault.IsOrdinary (f : Fault) : Prop := f.isInternal = false

/-- Leads from tidy worlds to tidy worlds as calls may do, and fails with ordinary faults, or with any that have `E`. -/
def Tidying {α : Type} (p : Expr → Prop) (P : μ → Prop) (x : Play σ μ α) (E : Fault → Prop := Fault.IsOrdinary) :
    Prop :=
  ∀ w₀ : World σ μ, Upholds (fun w => w₀.Tends (fun _ => True) w ∧ w.Tidy p P) E x

namespace Tidying
variable {α β : Type} {p : Expr → Prop} {P : μ → Prop} {E E' : Fault → Prop} {x : Play σ μ α} {w : World σ μ}

/-- Tending apart, only the tidiness of the worlds in between is left to show. -/
theorem of_tending (ht : Tending (fun _ => True) x)
    (h : ∀ w : World σ μ, w.InOrder (fun _ => True) → w.Tidy p P →
      wp x (fun _ w' => w'.Tidy p P) (fun f w' => w'.Tidy p P ∧ E f) w) : Tidying p P x E := by
  rintro w₀ w ⟨hw, htidy⟩
  have ht := ht.wp hw.order
  have h := h w hw.order htidy
  unfold wp at *
  cases hx : x w <;> rw [hx] at ht h
  · exact ⟨hw.trans ht, h⟩
  · exact ⟨⟨hw.trans ht, h.1⟩, h.2⟩

theorem wp (hx : Tidying p P x E) (hw : w.InOrder fun _ => True) (h : w.Tidy p P) :
    wp x (fun _ w' => w.Tends (fun _ => True) w' ∧ w'.Tidy p P)
      (fun f w' => (w.Tends (fun _ => True) w' ∧ w'.Tidy p P) ∧ E f) w :=
  hx w ⟨hw.tends, h⟩

theorem pure (a : α) : Tidying p P (pure a : Play σ μ α) E := fun _ => .pure a

theorem bind {f : α → Play σ μ β} (hx : Tidying p P x E) (hf : ∀ a, Tidying p P (f a) E) :
    Tidying p P (x >>= f) E :=
  fun w₀ => (hx w₀).bind fun a => hf a w₀

theorem ite {c : Prop} [Decidable c] {y : Play σ μ α} (hx : Tidying p P x E) (hy : Tidying p P y E) :
    Tidying p P (if c then x else y) E :=
  fun w₀ => .ite (hx w₀) (hy w₀)

theorem runner {f : Runner → Play σ μ α} (hf : ∀ r, Tidying p P (f r) E) :
    Tidying p P (Play.runner >>= f) E :=
  fun w₀ => .runner fun r => hf r w₀

end Tidying

/-- Host code that leaves tidy worlds. What a handler fails with goes no further, so it may be anything. -/
structure Host.Tidies (p : Expr → Prop) (P : μ → Prop) (host : Host σ μ) : Prop where
  tends : host.Tends fun _ => True
  read : ∀ h, Tidying p P (host.read h)
  write : ∀ h v, Tidying p P (host.write h v)
  call : ∀ h args, Tidying p P (host.call h args)
  callRaw : ∀ h args, Tidying p P (host.callRaw h args)
  handle : ∀ seat h n, Tidying p P (host.handle seat h n) fun _ => True

theorem Host.Tidies.upkeep {p : Expr → Prop} {P : μ → Prop} {host : Host σ μ} (hh : host.Tidies p P)
    (w₀ : World σ μ) :
    Upkeep host (fun n => n.Parsed ∧ n.Asks p) (fun w => w₀.Tends (fun _ => True) w ∧ w.Tidy p P)
      Fault.IsOrdinary := by
  have hk := hh.tends.upkeep w₀
  refine ⟨fun _ hf => hf, fun {w} h e he => ⟨hk.noting h.1 e he, h.2.noting (Entry.ne_marked he)⟩,
    fun {w} h kind data => ⟨hk.custom h.1 kind data, h.2.noting (Entry.published_ne_marked _ _)⟩, fun {w} h vs => ⟨hk.withVars h.1 vs, ?_⟩,
    fun {w} h fs => ⟨hk.withFunctions h.1 fs, ?_⟩, fun {w} h b => ⟨hk.withBus h.1 b, ?_⟩,
    fun {w} h c => ⟨hk.configured h.1 c, h.2.configured c⟩, fun {w} h n hn => ⟨hk.putNode h.1 n hn.1, h.2.putNode hn.2⟩,
    fun {w} h => ⟨hk.noNodes h.1, ?_⟩, fun hd => hh.read hd w₀, fun hd v => hh.write hd v w₀,
    fun hd args => hh.call hd args w₀, fun hd args => hh.callRaw hd args w₀, fun seat hd n => hh.handle seat hd n w₀⟩
  · exact h.2.aside (fun _ => rfl) rfl fun _ hm => hm
  · exact h.2.aside (fun _ => rfl) rfl fun _ hm => hm
  · exact h.2.withRunner (h.2.front.congr rfl)
  · exact ⟨fun _ _ hn => (by cases hn), h.2.runners, h.2.marks⟩

end Parley
