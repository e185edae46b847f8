import Parley.Syntax.Content

/-! # The keys of the conditions in a tree

`contentKeys` lists the keys of all conditions of a content list in reading order, a condition
before what is in its branches. A condition's own key and the keys below it (`Condition.inner`) make
up one stretch of the list of any content that holds the condition. -/

namespace Parley

mutual

def Content.keys : Content → List ConditionKey
  | .line _ | .command .. => []
  | .choice ⟨_, _, content, _⟩ => contentKeys content
  | .condition ⟨_, thenBranch, elifs, elseBranch, key, _⟩ =>
    key :: (contentKeys thenBranch ++ (branchKeys elifs ++
      match elseBranch with
      | some content => contentKeys content
      | none => []))

def contentKeys : List Content → List ConditionKey
  | [] => []
  | c :: rest => c.keys ++ contentKeys rest

def branchKeys : List Branch → List ConditionKey
  | [] => []
  | ⟨_, content, _⟩ :: rest => contentKeys content ++ branchKeys rest

end

/-- The keys of the conditions in the branches of a condition. -/
def Condition.inner (c : Condition) : List ConditionKey :=
  contentKeys c.thenBranch ++ (branchKeys c.elifs ++ (c.elseBranch.elim [] contentKeys))

theorem keys_condition (c : Condition) : (Content.condition c).keys = c.key :: c.inner := by
  obtain ⟨test, thenBranch, elifs, _ | elseBranch, key, pos⟩ := c <;> rfl

theorem keys_choice (c : Choice) : (Content.choice c).keys = contentKeys c.content := by
  cases c; rfl

theorem contentKeys_cons (c : Content) (rest : List Content) :
    contentKeys (c :: rest) = c.keys ++ contentKeys rest := rfl

theorem contentKeys_append (a b : List Content) :
    contentKeys (a ++ b) = contentKeys a ++ contentKeys b := by
  induction a with
  | nil => rfl
  | cons c rest ih => rw [List.cons_append, contentKeys_cons, ih, contentKeys_cons, List.append_assoc]

/-- What comes before a place and what comes from it on. -/
theorem contentKeys_take_drop (items : List Content) (i : Nat) :
    contentKeys (items.take i) ++ contentKeys (items.drop i) = contentKeys items := by
  rw [← contentKeys_append, List.take_append_drop]

theorem contentKeys_drop_sublist (items : List Content) (i : Nat) :
    (contentKeys (items.drop i)).Sublist (contentKeys items) := by
  rw [← contentKeys_take_drop items i]; exact List.sublist_append_right _ _

theorem keys_sublist {c : Content} {items : List Content} (h : c ∈ items) :
    c.keys.Sublist (contentKeys items) := by
  obtain ⟨before, after, rfl⟩ := List.append_of_mem h
  rw [contentKeys_append, contentKeys_cons]
  exact (List.sublist_append_left _ _).trans (List.sublist_append_right _ _)

/-- The keys of an item, beside those from a later place on. -/
theorem keys_append_drop_sublist {items : List Content} {i j : Nat} {c : Content}
    (hi : items[i]? = some c) (hij : i < j) :
    (c.keys ++ contentKeys (items.drop j)).Sublist (contentKeys items) := by
  have hmem : c ∈ items.take j :=
    List.mem_of_getElem? (i := i) (by rw [List.getElem?_take_of_lt hij, hi])
  rw [← contentKeys_take_drop items j]
  exact (keys_sublist hmem).append (List.Sublist.refl _)

theorem branchKeys_sublist {b : Branch} {elifs : List Branch} (h : b ∈ elifs) :
    (contentKeys b.content).Sublist (branchKeys elifs) := by
  induction elifs with
  | nil => simp at h
  | cons a rest ih =>
    obtain ⟨test, content, pos⟩ := a
    rcases List.mem_cons.1 h with rfl | h
    · exact List.sublist_append_left _ _
    · exact (ih h).trans (List.sublist_append_right _ _)

end Parley
