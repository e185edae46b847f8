import Parley.Proofs.Placement
import Parley.Proofs.Outcome
import Parley.Proofs.Agreement

/-! # Guards

`contentGuarded p` says of every guard in a tree that it has `p`; what has `p` in a node has it in every frame
of a stack in the node (`Stacked.guarded`). A computation is `Answering` among some worlds if it comes to the same
answer in all of them, leaves what the engine goes by as it was, and stays among them. A node is `Steady` if its
guards are; then so is all that the engine finds out on its way through the node. -/

namespace Parley

mutual

/-- The guards inside have `p`; each comes with the name that a fault gives it. -/
def Content.Guarded (p : String → Expr → Prop) : Content → Prop
  | .line _ | .command .. => True
  | .choice ⟨_, guard, content, _⟩ => (∀ e, guard = some e → p "choice condition" e) ∧ contentGuarded p content
  | .condition ⟨test, thenBranch, elifs, elseBranch, _, _⟩ =>
    p "if condition" test ∧ contentGuarded p thenBranch ∧ branchGuarded p elifs ∧
      match elseBranch with
      | some content => contentGuarded p content
      | none => True

def contentGuarded (p : String → Expr → Prop) : List Content → Prop
  | [] => True
  | c :: rest => c.Guarded p ∧ contentGuarded p rest

def branchGuarded (p : String → Expr → Prop) : List Branch → Prop
  | [] => True
  | ⟨test, content, _⟩ :: rest => p "elif condition" test ∧ contentGuarded p content ∧ branchGuarded p rest

end

def Container.Guarded (p : String → Expr → Prop) : Container → Prop
  | .node n => contentGuarded p n.content
  | .choice c => contentGuarded p c.content
  | .condition c => (Content.condition c).Guarded p

section
variable {p : String → Expr → Prop}

theorem contentGuarded_iff {items : List Content} :
    contentGuarded p items ↔ ∀ c ∈ items, c.Guarded p := by
  induction items with
  | nil => exact ⟨fun _ => by simp, fun _ => trivial⟩
  | cons c rest ih => rw [List.forall_mem_cons, ← ih]; rfl

theorem branchGuarded_iff {elifs : List Branch} :
    branchGuarded p elifs ↔ ∀ b ∈ elifs, p "elif condition" b.test ∧ contentGuarded p b.content := by
  induction elifs with
  | nil => exact ⟨fun _ => by simp, fun _ => trivial⟩
  | cons b rest ih =>
    obtain ⟨test, content, pos⟩ := b
    rw [List.forall_mem_cons, ← ih, and_assoc]; rfl

mutual

theorem Content.Guarded.mono {q : String → Expr → Prop} (h : ∀ what e, p what e → q what e) :
    {c : Content} → c.Guarded p → c.Guarded q
  | .line _, _ | .command .., _ => trivial
  | .choice ⟨_, _, _, _⟩, hc => ⟨fun e he => h _ e (hc.1 e he), contentGuarded_mono h hc.2⟩
  | .condition ⟨_, _, _, some _, _, _⟩, hc =>
    ⟨h _ _ hc.1, contentGuarded_mono h hc.2.1, branchGuarded_mono h hc.2.2.1, contentGuarded_mono h hc.2.2.2⟩
  | .condition ⟨_, _, _, none, _, _⟩, hc =>
    ⟨h _ _ hc.1, contentGuarded_mono h hc.2.1, branchGuarded_mono h hc.2.2.1, trivial⟩

theorem contentGuarded_mono {q : String → Expr → Prop} (h : ∀ what e, p what e → q what e) :
    {items : List Content} → contentGuarded p items → contentGuarded q items
  | [], _ => trivial
  | _ :: _, hi => ⟨hi.1.mono h, contentGuarded_mono h hi.2⟩

theorem branchGuarded_mono {q : String → Expr → Prop} (h : ∀ what e, p what e → q what e) :
    {elifs : List Branch} → branchGuarded p elifs → branchGuarded q elifs
  | [], _ => trivial
  | ⟨_, _, _⟩ :: _, hb => ⟨h _ _ hb.1, contentGuarded_mono h hb.2.1, branchGuarded_mono h hb.2.2⟩

end

theorem Container.Guarded.mono {q : String → Expr → Prop} (h : ∀ what e, p what e → q what e)
    {c : Container} (hc : c.Guarded p) : c.Guarded q := by
  cases c with
  | node | choice => exact contentGuarded_mono h hc
  | condition => exact Content.Guarded.mono h hc

mutual

instance Content.decidableGuarded [∀ what e, Decidable (p what e)] :
    (c : Content) → Decidable (c.Guarded p)
  | .line _ | .command .. => .isTrue trivial
  | .choice ⟨_, none, content, _⟩ =>
    have := decidableContentGuarded content
    decidable_of_iff (contentGuarded p content) ⟨fun h => ⟨by simp, h⟩, fun h => h.2⟩
  | .choice ⟨_, some e, content, _⟩ =>
    have := decidableContentGuarded content
    decidable_of_iff (p "choice condition" e ∧ contentGuarded p content)
      ⟨fun h => ⟨by rintro _ ⟨⟩; exact h.1, h.2⟩, fun h => ⟨h.1 e rfl, h.2⟩⟩
  | .condition ⟨test, thenBranch, elifs, some elseBranch, _, _⟩ =>
    have := decidableContentGuarded thenBranch
    have := decidableBranchGuarded elifs
    have := decidableContentGuarded elseBranch
    inferInstanceAs (Decidable (p "if condition" test ∧ contentGuarded p thenBranch ∧ branchGuarded p elifs ∧
      contentGuarded p elseBranch))
  | .condition ⟨test, thenBranch, elifs, none, _, _⟩ =>
    have := decidableContentGuarded thenBranch
    have := decidableBranchGuarded elifs
    inferInstanceAs (Decidable (p "if condition" test ∧ contentGuarded p thenBranch ∧ branchGuarded p elifs ∧ True))

instance decidableContentGuarded [∀ what e, Decidable (p what e)] :
    (items : List Content) → Decidable (contentGuarded p items)
  | [] => .isTrue trivial
  | c :: rest =>
    have := c.decidableGuarded
    have := decidableContentGuarded rest
    inferInstanceAs (Decidable (c.Guarded p ∧ contentGuarded p rest))

instance decidableBranchGuarded [∀ what e, Decidable (p what e)] :
    (elifs : List Branch) → Decidable (branchGuarded p elifs)
  | [] => .isTrue trivial
  | ⟨test, content, _⟩ :: rest =>
    have := decidableContentGuarded content
    have := decidableBranchGuarded rest
    inferInstanceAs (Decidable (p "elif condition" test ∧ contentGuarded p content ∧ branchGuarded p rest))

end

instance Container.decidableGuarded [∀ what e, Decidable (p what e)] :
    (c : Container) → Decidable (c.Guarded p)
  | .node n => decidableContentGuarded n.content
  | .choice c => decidableContentGuarded c.content
  | .condition c => Content.decidableGuarded (.condition c)

theorem guarded_condition {c : Condition} (h : (Content.condition c).Guarded p) :
    p "if condition" c.test ∧ contentGuarded p c.thenBranch ∧ branchGuarded p c.elifs ∧
      ∀ items, c.elseBranch = some items → contentGuarded p items := by
  obtain ⟨test, thenBranch, elifs, _ | elseBranch, key, pos⟩ := c
  · exact ⟨h.1, h.2.1, h.2.2.1, fun items he => by cases he⟩
  · exact ⟨h.1, h.2.1, h.2.2.1, fun items he => by cases he; exact h.2.2.2⟩

theorem guarded_choice {c : Choice} (h : (Content.choice c).Guarded p) :
    (∀ e, c.guard = some e → p "choice condition" e) ∧ contentGuarded p c.content := by
  cases c; exact h

theorem Condition.guarded_contentIn {c : Condition} {b : Branching} {items : List Content}
    (h : (Content.condition c).Guarded p) (hb : c.contentIn b = some items) : contentGuarded p items := by
  obtain ⟨-, hthen, helifs, helse⟩ := guarded_condition h
  cases b with
  | thenBranch => cases hb; exact hthen
  | elifBranch i =>
    obtain ⟨branch, hmem, rfl⟩ := Option.map_eq_some_iff.1 hb
    exact (branchGuarded_iff.1 helifs branch (List.mem_of_getElem? hmem)).2
  | elseBranch => exact helse items hb
  | none => cases hb

theorem Frame.guarded_items {m : Memo} {f : Frame} {items : List Content} (h : f.container.Guarded p)
    (hitems : f.items m = some items) : contentGuarded p items := by
  obtain ⟨container, i⟩ := f
  cases container with
  | node n => cases hitems; exact h
  | choice c => cases hitems; exact h
  | condition c =>
    obtain ⟨b, -, hb⟩ := Option.bind_eq_some_iff.1 hitems
    exact Condition.guarded_contentIn h hb

/-- A child of a frame is guarded as the frame is. -/
theorem Frame.Holds.guarded {m : Memo} {f g : Frame} (h : g.Holds m f.container)
    (hg : g.container.Guarded p) :
    f.container.Guarded p := by
  obtain ⟨container, i⟩ := f
  cases container with
  | node n => exact h.elim
  | choice c =>
    obtain ⟨items, hitems, i, -, hc, -⟩ := h
    exact (guarded_choice (contentGuarded_iff.1 (Frame.guarded_items hg hitems) _ (List.mem_of_getElem? hc))).2
  | condition c =>
    obtain ⟨items, i, hitems, -, hc⟩ := h
    exact contentGuarded_iff.1 (Frame.guarded_items hg hitems) _ (List.mem_of_getElem? hc)

theorem Stacked.guarded {m : Memo} {n : Node} {stack : List Frame} (h : Stacked m n stack)
    (hn : contentGuarded p n.content) : ∀ f ∈ stack, f.container.Guarded p := by
  induction h with
  | node => simpa [Container.Guarded] using hn
  | child hchild _ _ ih =>
    exact List.forall_mem_cons.2 ⟨hchild.guarded (ih _ List.mem_cons_self), ih⟩

end

variable {σ μ : Type}

/-- What was published, and where; the latest notice first. -/
def World.published (w : World σ μ) : List (Nat × Notice) :=
  w.journal.filterMap fun
    | .published seat notice => some (seat, notice)
    | _ => none

/-- The result of a computation that answers or fails in a world. -/
def Except.inWorld {α : Type} : Except Fault α → World σ μ → EStateM.Result Fault (World σ μ) α
  | .ok a, w => .ok a w
  | .error f, w => .error f w

theorem Except.inWorld_ok {α : Type} {x : Except Fault α} {w v : World σ μ} {a : α}
    (h : Except.inWorld x w = .ok a v) :
    x = .ok a ∧ w = v := by
  cases x <;> cases h
  exact ⟨rfl, rfl⟩

/-- What a computation has answered, if it has. -/
def answer? {α : Type} : EStateM.Result Fault (World σ μ) α → Option α
  | .ok a _ => some a
  | .error .. => none

theorem ok_of_answer {α : Type} {x : Play σ μ α} {w : World σ μ} {a : α} (h : answer? (x w) = some a) :
    x w = .ok a (after x w) := by
  unfold after
  cases hx : x w <;> rw [hx] at h <;> cases h
  rfl

/-- All that the engine goes by is as it was. -/
structure World.Alike (w w' : World σ μ) : Prop where
  runner : w'.runner = w.runner
  vars : w'.vars = w.vars
  config : w'.config = w.config
  published : w'.published = w.published

theorem World.Alike.refl (w : World σ μ) : w.Alike w := ⟨rfl, rfl, rfl, rfl⟩

theorem World.Alike.trans {w w' w'' : World σ μ} (h : w.Alike w') (h' : w'.Alike w'') : w.Alike w'' :=
  ⟨h'.runner.trans h.runner, h'.vars.trans h.vars, h'.config.trans h.config, h'.published.trans h.published⟩

theorem World.Alike.runnerConfig {w w' : World σ μ} (h : w.Alike w') :
    w'.runnerConfig = w.runnerConfig := by
  unfold World.runnerConfig; rw [h.runner, h.config]

/-- Comes to the same answer in all worlds of `S`, each time in a world of `S` that is alike. -/
def Answering {α : Type} (S : World σ μ → Prop) (x : Play σ μ α) : Prop :=
  ∃ a : Except Fault α, ∀ w, S w → ∃ w', x w = Except.inWorld a w' ∧ S w' ∧ w.Alike w'

namespace Answering
variable {α β : Type} {S : World σ μ → Prop} {x : Play σ μ α}

theorem pure (a : α) : Answering S (pure a : Play σ μ α) := ⟨.ok a, fun w hw => ⟨w, rfl, hw, .refl w⟩⟩

theorem of_eq {y : Play σ μ α} (hx : Answering S x) (h : ∀ w, S w → y w = x w) : Answering S y := by
  obtain ⟨a, ha⟩ := hx
  exact ⟨a, fun w hw => by rw [h w hw]; exact ha w hw⟩

theorem bind {f : α → Play σ μ β} (hx : Answering S x) (hf : ∀ a, Answering S (f a)) :
    Answering S (x >>= f) := by
  obtain ⟨a, ha⟩ := hx
  cases a with
  | error e =>
    refine ⟨.error e, fun w hw => ?_⟩
    obtain ⟨w', hx, hS, ha⟩ := ha w hw
    exact ⟨w', run_bind_error hx, hS, ha⟩
  | ok a =>
    obtain ⟨b, hb⟩ := hf a
    refine ⟨b, fun w hw => ?_⟩
    obtain ⟨w', hx, hS, ha⟩ := ha w hw
    obtain ⟨w'', hf, hS', ha'⟩ := hb w' hS
    exact ⟨w'', (run_bind_ok hx).trans hf, hS', ha.trans ha'⟩

end Answering

/-- Among the worlds of `S`, which do not depend on how far the runner in front is, the guards of the node have
an answer each. -/
structure Steady (host : Host σ μ) (S : World σ μ → Prop) (n : Node) : Prop where
  moved : ∀ {w : World σ μ} {r : Runner}, S w → r.config = w.runner.config → r.bus = w.runner.bus → S (w.withRunner r)
  logged : ∀ {w : World σ μ} (r : LogRecord), S w → S (w.noting (.logged r))
  guards : contentGuarded (fun what e => Answering S (Play.test host what e)) n.content

namespace Play
variable {host : Host σ μ} {S : World σ μ → Prop}

theorem answering_selectElif {elifs : List Branch} (i : Nat)
    (h : branchGuarded (fun what e => Answering S (test host what e)) elifs) :
    Answering S (selectElif host i elifs) := by
  induction elifs generalizing i with
  | nil => exact .pure _
  | cons b rest ih =>
    obtain ⟨hb, hrest⟩ := List.forall_mem_cons.1 (branchGuarded_iff.1 h)
    refine .bind hb.1 fun isTrue => ?_
    split
    · exact .pure _
    · exact ih _ (branchGuarded_iff.2 hrest)

theorem answering_selectBranch {c : Condition}
    (h : (Content.condition c).Guarded fun what e => Answering S (test host what e)) :
    Answering S (selectBranch host c) := by
  obtain ⟨htest, -, helifs, -⟩ := guarded_condition h
  refine .bind htest fun isTrue => ?_
  split
  · exact .pure _
  · refine .bind (answering_selectElif 0 helifs) fun i => ?_
    split <;> exact .pure _

theorem answering_collectChoices {items : List Content}
    (h : contentGuarded (fun what e => Answering S (test host what e)) items) :
    Answering S (collectChoices host items) := by
  induction items with
  | nil => exact .pure _
  | cons item rest ih =>
    cases item with
    | choice c =>
      have hrest (isLive : Bool) : Answering S (do
          let later ← collectChoices host rest
          return (if isLive then c :: later.1 else later.1, later.2 + 1)) := .bind (ih h.2) fun _ => .pure _
      unfold collectChoices
      split
      · exact .bind (.pure true) hrest
      · next e he => exact .bind ((guarded_choice h.1).1 e he) hrest
    | line | condition | command => exact .pure _

end Play
end Parley
