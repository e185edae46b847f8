/-! # Tables

A table holds one entry for each of its names, in the order in which the names were first written.
What a name gives after a write or an erasure is said by `get?_put` and `get?_erase`, and the order
of the names by `names_put`. -/

namespace Parley

/-- A look-up sees the entries whose keys pass a filter. -/
theorem lookup_filter {κ α : Type} [BEq κ] [LawfulBEq κ] (p : κ → Bool) (entries : List (κ × α)) (key : κ) :
    (entries.filter fun entry => p entry.1).lookup key = if p key then entries.lookup key else none := by
  induction entries with
  | nil => simp
  | cons entry rest ih =>
    obtain ⟨k, value⟩ := entry
    rw [List.filter_cons, List.lookup_cons]
    by_cases hk : (key == k) = true
    · obtain rfl := eq_of_beq hk
      by_cases hp : p key
      · simp [hp]
      · rw [if_neg hp, ih]; simp [hp]
    · by_cases hp : p k <;> simp [hp, hk, ih, List.lookup_cons]

structure Table (α : Type) where
  entries : List (String × α)
  distinct : (entries.map Prod.fst).Nodup

namespace Table
variable {α : Type}

instance : EmptyCollection (Table α) := ⟨⟨[], List.nodup_nil⟩⟩

/-- Writes an entry; a name that is there keeps its place. -/
def putIn (name : String) (value : α) : List (String × α) → List (String × α)
  | [] => [(name, value)]
  | entry :: rest =>
    if entry.1 = name then (name, value) :: rest else entry :: putIn name value rest

theorem mem_names_putIn {name other : String} {value : α} {entries : List (String × α)} :
    other ∈ (putIn name value entries).map Prod.fst ↔
      other = name ∨ other ∈ entries.map Prod.fst := by
  induction entries with
  | nil => simp [putIn]
  | cons entry rest ih =>
    unfold putIn
    split
    · next h => simp [h]
    · simp only [List.map_cons, List.mem_cons, ih]
      exact ⟨fun h => h.elim (fun h => .inr (.inl h)) (fun h => h.imp id .inr),
        fun h => h.elim (fun h => .inr (.inl h)) (fun h => h.elim .inl fun h => .inr (.inr h))⟩

theorem nodup_putIn {name : String} {value : α} {entries : List (String × α)}
    (h : (entries.map Prod.fst).Nodup) : ((putIn name value entries).map Prod.fst).Nodup := by
  induction entries with
  | nil => simp [putIn]
  | cons entry rest ih =>
    unfold putIn
    simp only [List.map_cons, List.nodup_cons] at h
    split
    · next he =>
      subst he
      simpa using h
    · next he =>
      simp only [List.map_cons, List.nodup_cons, mem_names_putIn, not_or]
      exact ⟨⟨he, h.1⟩, ih h.2⟩

def put (t : Table α) (name : String) (value : α) : Table α :=
  ⟨putIn name value t.entries, nodup_putIn t.distinct⟩

def erase (t : Table α) (name : String) : Table α :=
  ⟨t.entries.filter fun entry => entry.1 != name,
    t.distinct.sublist (List.filter_sublist.map Prod.fst)⟩

def get? (t : Table α) (name : String) : Option α := t.entries.lookup name

def has (t : Table α) (name : String) : Bool := (t.get? name).isSome

def names (t : Table α) : List String := t.entries.map Prod.fst

theorem lookup_entry (key other : String) (value : α) (rest : List (String × α)) :
    ((key, value) :: rest).lookup other =
      if other = key then some value else rest.lookup other := by
  rw [List.lookup_cons]
  by_cases h : other = key
  · subst h
    simp
  · rw [show (other == key) = false from beq_false_of_ne h, if_neg h]

theorem lookup_putIn (name other : String) (value : α) (entries : List (String × α)) :
    (putIn name value entries).lookup other =
      if other = name then some value else entries.lookup other := by
  induction entries with
  | nil => exact lookup_entry name other value []
  | cons entry rest ih =>
    obtain ⟨key, old⟩ := entry
    unfold putIn
    rw [lookup_entry]
    split
    · next hk =>
      rw [lookup_entry, ← hk]
      split <;> rfl
    · next hk =>
      rw [lookup_entry, ih]
      by_cases h : other = key
      · rw [if_pos h, if_pos h, if_neg (h ▸ hk)]
      · rw [if_neg h, if_neg h]

/-- A write shows under its own name and under no other. -/
theorem get?_put (t : Table α) (name other : String) (value : α) :
    (t.put name value).get? other = if other = name then some value else t.get? other :=
  lookup_putIn name other value t.entries

theorem lookup_filter_ne (name other : String) (entries : List (String × α)) :
    (entries.filter fun entry => entry.1 != name).lookup other =
      if other = name then none else entries.lookup other := by
  rw [lookup_filter fun key => key != name]
  by_cases h : other = name <;> simp [h]

theorem get?_erase (t : Table α) (name other : String) :
    (t.erase name).get? other = if other = name then none else t.get? other :=
  lookup_filter_ne name other t.entries

/-- A name keeps its place when it is written again; a new one comes last. -/
theorem map_fst_putIn (name : String) (value : α) (entries : List (String × α)) :
    (putIn name value entries).map Prod.fst =
      if name ∈ entries.map Prod.fst then entries.map Prod.fst
      else entries.map Prod.fst ++ [name] := by
  induction entries with
  | nil => simp [putIn]
  | cons entry rest ih =>
    unfold putIn
    split
    · next h => simp [h]
    · next h =>
      rw [List.map_cons, List.map_cons, ih]
      by_cases hm : name ∈ rest.map Prod.fst
      · rw [if_pos hm, if_pos (List.mem_cons_of_mem _ hm)]
      · rw [if_neg hm, if_neg (by simpa [hm] using fun e => h e.symm)]
        rfl

theorem names_put (t : Table α) (name : String) (value : α) :
    (t.put name value).names = if name ∈ t.names then t.names else t.names ++ [name] :=
  map_fst_putIn name value t.entries

/-- The entries in the order of their names. -/
def sorted (t : Table α) : List (String × α) :=
  t.entries.mergeSort fun a b => decide (a.1 ≤ b.1)

def ofList (entries : List (String × α)) : Table α :=
  entries.foldl (fun t entry => t.put entry.1 entry.2) {}

end Table
end Parley
