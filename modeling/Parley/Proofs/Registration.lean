import Parley.Engine.Load
import Parley.Proofs.Outcome

/-! # Scripts in the node table

Registering writes the nodes of a script into the table one by one (`Table.putNodes`) or, where names may not be taken
twice, fails before it writes any. Next to the table only the journal changes. -/

namespace Parley

/-- No name is taken exactly where the old and the new names are all different. -/
theorem takenName?_eq_none_iff {taken names : List String} (htaken : taken.Nodup) :
    takenName? taken names = none ↔ (taken ++ names).Nodup := by
  induction names generalizing taken with
  | nil => simpa [takenName?] using htaken
  | cons name names ih =>
    unfold takenName?
    by_cases hmem : name ∈ taken
    · rw [if_pos (List.contains_iff_mem.2 hmem)]
      refine ⟨nofun, fun h => ?_⟩
      exact absurd rfl ((List.nodup_append.1 h).2.2 name hmem name List.mem_cons_self)
    · rw [if_neg (by simpa using hmem), ih (List.nodup_cons.2 ⟨hmem, htaken⟩)]
      exact List.perm_middle.nodup_iff.symm

theorem eraseDups_of_nodup {names : List String} (h : names.Nodup) : names.eraseDups = names := by
  induction names with
  | nil => rfl
  | cons name names ih =>
    obtain ⟨hname, hnames⟩ := List.nodup_cons.1 h
    have hother : ∀ other ∈ names, (!other == name) = true := fun other hmem => by
      simpa using ne_of_mem_of_not_mem hmem hname
    rw [List.eraseDups_cons, List.filter_eq_self.2 hother, ih hnames]

namespace Table

theorem nodup_names {α : Type} (t : Table α) : t.names.Nodup := t.distinct

theorem putIn_of_fresh {α : Type} {name : String} {value : α} {entries : List (String × α)}
    (h : name ∉ entries.map Prod.fst) : putIn name value entries = entries ++ [(name, value)] := by
  induction entries with
  | nil => rfl
  | cons entry rest ih =>
    obtain ⟨hne, hrest⟩ := List.ne_and_not_mem_of_not_mem_cons h
    unfold putIn
    rw [if_neg (Ne.symm hne), ih hrest]
    rfl

/-- The table with these nodes written into it. -/
def putNodes (t : Table Node) (ns : List Node) : Table Node := ns.foldl (fun t n => t.put n.name n) t

variable (t : Table Node) (ns : List Node)

theorem putNodes_append (more : List Node) : t.putNodes (ns ++ more) = (t.putNodes ns).putNodes more :=
  List.foldl_append

/-- Of nodes with one name the last one stays. -/
theorem get?_putNodes (name : String) :
    (t.putNodes ns).get? name = (ns.reverse.find? fun n => n.name == name).or (t.get? name) := by
  induction ns generalizing t with
  | nil => rfl
  | cons n ns ih =>
    refine (ih (t.put n.name n)).trans ?_
    rw [get?_put, List.reverse_cons, List.find?_append, Option.or_assoc]
    by_cases hn : n.name = name
    · simp [hn]
    · simp [hn, Ne.symm hn]

/-- A name stands where it was first written. -/
theorem names_putNodes : (t.putNodes ns).names = (t.names ++ ns.map Node.name).eraseDups := by
  induction ns generalizing t with
  | nil =>
    rw [List.map_nil, List.append_nil, eraseDups_of_nodup t.nodup_names]
    rfl
  | cons n ns ih =>
    refine (ih (t.put n.name n)).trans ?_
    rw [names_put, List.map_cons]
    split
    · next hmem => simp [List.eraseDups_append, List.removeAll, hmem]
    · rw [List.append_assoc]
      rfl

/-- Nodes with new names only come behind the others. -/
theorem entries_putNodes (h : (t.names ++ ns.map Node.name).Nodup) :
    (t.putNodes ns).entries = t.entries ++ ns.map fun n => (n.name, n) := by
  induction ns generalizing t with
  | nil => exact (List.append_nil _).symm
  | cons n ns ih =>
    have hfresh : n.name ∉ t.names := fun hmem =>
      (List.nodup_append.1 h).2.2 _ hmem _ (List.mem_cons_self ..) rfl
    have hput : (t.put n.name n).entries = t.entries ++ [(n.name, n)] := putIn_of_fresh hfresh
    have hnames : (t.put n.name n).names = t.names ++ [n.name] := by rw [names_put, if_neg hfresh]
    rw [List.map_cons, List.append_cons] at h
    refine (ih (t.put n.name n) (hnames ▸ h)).trans ?_
    rw [hput, List.append_assoc]
    rfl

end Table

namespace Play
variable {σ μ : Type}

theorem addNodes_run (ns : List Node) (w : World σ μ) :
    ∃ journal, addNodes ns w = .ok () { w with nodes := w.nodes.putNodes ns, journal } := by
  induction ns generalizing w with
  | nil => exact ⟨w.journal, rfl⟩
  | cons n ns ih =>
    have hstep : ∃ journal, addNodes (n :: ns) w = addNodes ns { w with nodes := w.nodes.put n.name n, journal } := by
      rw [addNodes, run_bind_ok (rfl : (get : Play σ μ (World σ μ)) w = .ok w w)]
      split <;> exact ⟨_, rfl⟩
    obtain ⟨journal, hstep⟩ := hstep
    obtain ⟨journal', hrest⟩ := ih { w with nodes := w.nodes.put n.name n, journal }
    exact ⟨journal', hstep.trans hrest⟩

/-- A script is registered as a whole, or a name of it is taken and the table stays as it is. -/
theorem register_run (s : Script) (w : World σ μ) : ∃ journal,
    (register s w = .ok s.names { w with nodes := w.nodes.putNodes s.nodes, journal } ∧
      (w.config.overrides = false → (w.nodes.names ++ s.names).Nodup)) ∨
    ∃ name, register s w = .error (.duplicateNode name) { w with journal } ∧ w.config.overrides = false ∧
      takenName? w.nodes.names s.names = some name := by
  have hget : (get : Play σ μ (World σ μ)) w = .ok w w := rfl
  obtain ⟨journal, hadd⟩ := addNodes_run s.nodes w
  have hnames : (addNodes s.nodes >>= fun _ => return s.names : Play σ μ (List String)) w =
      .ok s.names { w with nodes := w.nodes.putNodes s.nodes, journal } := by
    rw [run_bind_ok hadd]
    rfl
  unfold register
  rw [run_bind_ok hget]
  cases hover : w.config.overrides with
  | true => exact ⟨journal, .inl ⟨hnames, nofun⟩⟩
  | false =>
    cases htaken : takenName? w.nodes.names s.names with
    | none => exact ⟨journal, .inl ⟨hnames, fun _ => (takenName?_eq_none_iff w.nodes.nodup_names).1 htaken⟩⟩
    | some name => exact ⟨_, .inr ⟨name, rfl, rfl, rfl⟩⟩

/-- Parsing writes records into the journal and comes to what the parser comes to. -/
theorem parse_run (source : String) (w : World σ μ) : ∃ journal,
    parse source w = match (parseScript source).result with
      | .ok s => .ok s { w with journal }
      | .error e => .error (.source e) { w with journal } := by
  have hnotes (records : List LogRecord) (w : World σ μ) : ∃ journal,
      (records.forM fun r => (note (.logged r) : Play σ μ Unit)) w = .ok () { w with journal } := by
    induction records generalizing w with
    | nil => exact ⟨w.journal, rfl⟩
    | cons r records ih => exact ih { w with journal := .logged r :: w.journal }
  obtain ⟨journal, hnotes⟩ := hnotes (parseScript source).records w
  refine ⟨journal, ?_⟩
  refine (run_bind_ok hnotes).trans ?_
  cases (parseScript source).result <;> rfl

end Play
end Parley
