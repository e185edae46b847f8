import Parley.Table
import Mathlib.Data.List.Nodup
import Mathlib.Data.String.Basic

/-! # Tables as a whole

What a table holds after many writes, and what it holds in the order of its names. -/

namespace Parley

theorem lookup_eq_some_iff_mem {α : Type} {entries : List (String × α)} (h : (entries.map Prod.fst).Nodup)
    {name : String} {value : α} : entries.lookup name = some value ↔ (name, value) ∈ entries := by
  induction entries with
  | nil => simp
  | cons e rest ih =>
    obtain ⟨key, old⟩ := e
    rw [List.map_cons, List.nodup_cons] at h
    rw [Table.lookup_entry, List.mem_cons, Prod.mk.injEq]
    split
    · next hk =>
      obtain rfl := hk
      have hmem : (name, value) ∉ rest := fun hm => h.1 (List.mem_map.mpr ⟨_, hm, rfl⟩)
      simp [hmem, eq_comm]
    · next hk => simp [hk, ih h.2]

theorem lookup_eq_none_iff_not_mem {α : Type} {entries : List (String × α)} {name : String} :
    entries.lookup name = none ↔ name ∉ entries.map Prod.fst := by
  simp only [List.lookup_eq_none_iff, List.mem_map, not_exists, not_and, bne_iff_ne]
  exact ⟨fun h e he hn => h e he hn.symm, fun h e he hn => h e he hn.symm⟩

namespace Table
variable {α : Type}

/-- Writes one entry after the other. -/
def putAll (t : Table α) (entries : List (String × α)) : Table α :=
  entries.foldl (fun t e => t.put e.1 e.2) t

theorem get?_eq_some_iff {t : Table α} {name : String} {value : α} :
    t.get? name = some value ↔ (name, value) ∈ t.entries :=
  lookup_eq_some_iff_mem t.distinct

theorem get?_eq_none_iff {t : Table α} {name : String} : t.get? name = none ↔ name ∉ t.names :=
  lookup_eq_none_iff_not_mem

theorem get?_putAll {entries : List (String × α)} (h : (entries.map Prod.fst).Nodup) (t : Table α) (name : String) :
    (t.putAll entries).get? name = (entries.lookup name).or (t.get? name) := by
  induction entries generalizing t with
  | nil => rfl
  | cons e rest ih =>
    obtain ⟨key, value⟩ := e
    rw [List.map_cons, List.nodup_cons] at h
    change ((t.put key value).putAll rest).get? name = _
    rw [ih h.2, get?_put, lookup_entry]
    split
    · next hk =>
      have : rest.lookup name = none := lookup_eq_none_iff_not_mem.mpr (hk ▸ h.1)
      rw [this]
      rfl
    · rfl

theorem erase_of_get?_eq_none {t : Table α} {name : String} (h : t.get? name = none) : t.erase name = t := by
  have hentries : (t.erase name).entries = t.entries := by
    refine List.filter_eq_self.mpr fun e he => bne_iff_ne.mpr fun hname => ?_
    exact get?_eq_none_iff.mp h (List.mem_map.mpr ⟨e, he, hname⟩)
  obtain ⟨entries, distinct⟩ := t
  exact Table.mk.injEq .. ▸ hentries

theorem get?_ofList_eq_none {entries : List (String × α)} {name : String} (h : ∀ e ∈ entries, e.1 ≠ name) :
    (ofList entries).get? name = none := by
  suffices ∀ t : Table α, t.get? name = none → (t.putAll entries).get? name = none from this {} rfl
  induction entries with
  | nil => exact fun _ ht => ht
  | cons e rest ih =>
    refine fun t ht => ih (fun e he => h e (List.mem_cons_of_mem _ he)) _ ?_
    rw [get?_put, if_neg (Ne.symm (h e (List.mem_cons_self ..))), ht]

theorem putIn_of_not_mem {name : String} {value : α} {entries : List (String × α)}
    (h : name ∉ entries.map Prod.fst) : putIn name value entries = entries ++ [(name, value)] := by
  induction entries with
  | nil => rfl
  | cons e rest ih =>
    rw [List.map_cons, List.mem_cons, not_or] at h
    rw [putIn, if_neg (Ne.symm h.1), ih h.2]
    rfl

/-- New names come behind the old ones, in their order. -/
theorem entries_putAll {entries : List (String × α)} {t : Table α} (h : (t.names ++ entries.map Prod.fst).Nodup) :
    (t.putAll entries).entries = t.entries ++ entries := by
  induction entries generalizing t with
  | nil => rw [List.append_nil]; rfl
  | cons e rest ih =>
    have hnew : e.1 ∉ t.names := fun hm => (List.nodup_append'.mp h).2.2 hm (List.mem_cons_self ..)
    have hput : (t.put e.1 e.2).entries = t.entries ++ [e] := putIn_of_not_mem hnew
    have hnames : (t.put e.1 e.2).names = t.names ++ [e.1] := by rw [names_put, if_neg hnew]
    change ((t.put e.1 e.2).putAll rest).entries = _
    rw [ih (by simpa [hnames] using h), hput, List.append_assoc]
    rfl

theorem sorted_perm (t : Table α) : t.sorted.Perm t.entries := List.mergeSort_perm ..

theorem nodup_sorted (t : Table α) : (t.sorted.map Prod.fst).Nodup :=
  (t.sorted_perm.map Prod.fst).nodup_iff.mpr t.distinct

theorem mem_sorted {t : Table α} {name : String} {value : α} :
    (name, value) ∈ t.sorted ↔ t.get? name = some value := by
  rw [t.sorted_perm.mem_iff, get?_eq_some_iff]

theorem mem_names_sorted {t : Table α} {name : String} : name ∈ t.sorted.map Prod.fst ↔ name ∈ t.names :=
  (t.sorted_perm.map Prod.fst).mem_iff

theorem sorted_pairwise (t : Table α) : t.sorted.Pairwise fun a b => a.1 ≤ b.1 := by
  refine (List.pairwise_mergeSort ?_ ?_ t.entries).imp fun h => of_decide_eq_true h
  · intro a b c hab hbc
    exact decide_eq_true (le_trans (of_decide_eq_true hab) (of_decide_eq_true hbc))
  · intro a b
    simpa using le_total a.1 b.1

theorem sorted_of_pairwise {t : Table α} (h : t.entries.Pairwise fun a b => a.1 ≤ b.1) : t.sorted = t.entries :=
  List.mergeSort_of_pairwise (h.imp fun h => decide_eq_true h)

end Table
end Parley
