import Parley.Engine.Step

/-! # What a step asks for with its frame in hand

The tests of conditions, the guards of choices and the durations of waits: `queries`. A step that has evaluated one of
them goes on to write to its frame, its menu or its memo without another look at the session, while texts, arguments
and assigned values come last, or before such a look. The queries of whatever a frame leads to are among those of its
container. -/

namespace Parley

mutual

def Content.queries : Content → List Expr
  | .line _ => []
  | .choice ⟨_, guard, content, _⟩ => guard.toList ++ contentQueries content
  | .condition ⟨test, thenBranch, elifs, elseBranch, _, _⟩ =>
    test :: contentQueries thenBranch ++ branchQueries elifs ++
      match elseBranch with
      | some content => contentQueries content
      | none => []
  | .command (.wait e) _ => [e]
  | .command .. => []

def contentQueries : List Content → List Expr
  | [] => []
  | c :: rest => c.queries ++ contentQueries rest

def branchQueries : List Branch → List Expr
  | [] => []
  | ⟨test, content, _⟩ :: rest => test :: contentQueries content ++ branchQueries rest

end

def Container.queries : Container → List Expr
  | .node n => contentQueries n.content
  | .choice c => contentQueries c.content
  | .condition c => (Content.condition c).queries

theorem mem_contentQueries {items : List Content} {e : Expr} :
    e ∈ contentQueries items ↔ ∃ c ∈ items, e ∈ c.queries := by
  induction items with
  | nil => simp [contentQueries]
  | cons c rest ih => simp [contentQueries, ih]

theorem mem_branchQueries {elifs : List Branch} {e : Expr} :
    e ∈ branchQueries elifs ↔ ∃ b ∈ elifs, e = b.test ∨ e ∈ contentQueries b.content := by
  induction elifs with
  | nil => simp [branchQueries]
  | cons b rest ih =>
    obtain ⟨test, content, pos⟩ := b
    simp [branchQueries, ih, or_assoc]

theorem mem_queries_choice {c : Choice} {e : Expr} :
    e ∈ (Content.choice c).queries ↔ c.guard = some e ∨ e ∈ contentQueries c.content := by
  cases c
  simp [Content.queries]

theorem mem_queries_condition {c : Condition} {e : Expr} :
    e ∈ (Content.condition c).queries ↔ e = c.test ∨ e ∈ contentQueries c.thenBranch ∨ e ∈ branchQueries c.elifs ∨
      ∃ items, c.elseBranch = some items ∧ e ∈ contentQueries items := by
  obtain ⟨test, thenBranch, elifs, _ | elseBranch, key, pos⟩ := c <;> simp [Content.queries]

theorem Condition.queries_contentIn {c : Condition} {b : Branching} {items : List Content}
    (h : c.contentIn b = some items) : ∀ e ∈ contentQueries items, e ∈ (Content.condition c).queries := by
  intro e he
  rw [mem_queries_condition]
  cases b with
  | thenBranch => cases h; exact .inr (.inl he)
  | elifBranch i =>
    obtain ⟨branch, hbranch, rfl⟩ := Option.map_eq_some_iff.1 h
    exact .inr (.inr (.inl (mem_branchQueries.2 ⟨branch, List.mem_of_getElem? hbranch, .inr he⟩)))
  | elseBranch => exact .inr (.inr (.inr ⟨items, h, he⟩))
  | none => cases h

end Parley
