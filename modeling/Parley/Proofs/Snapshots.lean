import Parley.Engine.Variables
import Parley.Proofs.Agreement
import Parley.Proofs.Outcome
import Parley.Proofs.NativeForms
import Parley.Proofs.Tables
import Mathlib.Data.List.Forall2

/-! # Snapshots of the variables

An import finds every fault before it writes: the form of the data, the conversion of each value, the names
that are read-only. So an `Objection` leaves nothing behind but a line in the log, and without one everything is
written in the order of the data, the setters of bound names called one by one (`Served`). What is exported
meets no objection, and comes back as it was. -/

namespace Parley

/-! ### What may be imported -/

namespace Native

def IsScalar : Native → Prop
  | .list _ | .map _ => False
  | _ => True

/-- A flat map of scalars. -/
def IsSnapshot : Native → Prop
  | .map entries => ∀ e ∈ entries, e.2.IsScalar
  | _ => False

/-- The names of a map; nothing else has any. -/
def names : Native → List String
  | .map entries => entries.map Prod.fst
  | _ => []

end Native

theorem snapshotEntries?_map (entries : List (String × Native)) [Decidable (Native.map entries).IsSnapshot] :
    snapshotEntries? (.map entries) = if (Native.map entries).IsSnapshot then some entries else none := by
  rw [snapshotEntries?]
  refine if_congr (List.all_eq_true.trans (forall₂_congr fun e _ => ?_)) rfl rfl
  obtain ⟨_, x⟩ := e
  cases x <;> simp [Native.IsScalar]

theorem snapshotEntries?_eq_none {data : Native} : snapshotEntries? data = none ↔ ¬ data.IsSnapshot := by
  classical
  cases data with
  | map entries =>
    rw [snapshotEntries?_map]
    split
    · next h => simpa using h
    · next h => simpa using h
  | _ => exact ⟨fun _ h => h, fun _ => rfl⟩

theorem snapshotEntries?_eq_some {data : Native} {entries : List (String × Native)} :
    snapshotEntries? data = some entries ↔ data = .map entries ∧ data.IsSnapshot := by
  classical
  cases data with
  | map entries' =>
    rw [snapshotEntries?_map]
    split
    · next h => simp [h]
    · next h => simp [h]
  | _ => exact ⟨nofun, nofun⟩

/-- The same names in the same order, each value converted. -/
def Converted : List (String × Native) → List (String × Value) → Prop :=
  List.Forall₂ fun e v => e.1 = v.1 ∧ Value.ofNative e.2 = .ok v.2

theorem Converted.names {entries : List (String × Native)} {values : List (String × Value)}
    (h : Converted entries values) : values.map Prod.fst = entries.map Prod.fst := by
  induction h with
  | nil => rfl
  | cons he _ ih => rw [List.map_cons, List.map_cons, ih, he.1]

/-- Some integer has no number near it. -/
def TooLarge (entries : List (String × Native)) : Prop :=
  ∃ name n, (name, Native.integer n) ∈ entries ∧ Binary64.ofInt? n = none

theorem Value.ofNative_of_isScalar {x : Native} (h : x.IsScalar) :
    (∃ v, ofNative x = .ok v) ∨ ∃ n, x = .integer n ∧ Binary64.ofInt? n = none ∧ ofNative x = .error .overflow := by
  cases x with
  | integer n =>
    cases hn : Binary64.ofInt? n with
    | none => exact .inr ⟨n, rfl, hn, by rw [ofNative, hn]⟩
    | some y => exact .inl ⟨number y, by rw [ofNative, hn]⟩
  | list _ => exact h.elim
  | map _ => exact h.elim
  | _ => exact .inl ⟨_, rfl⟩

theorem Converted.not_tooLarge {entries : List (String × Native)} {values : List (String × Value)}
    (h : Converted entries values) : ¬ TooLarge entries := by
  rintro ⟨name, n, hmem, hn⟩
  obtain ⟨i, hi, hget⟩ := List.mem_iff_getElem.mp hmem
  have := (List.forall₂_iff_get.mp h).2 i hi ((List.Forall₂.length_eq h) ▸ hi)
  rw [List.get_eq_getElem, hget, Value.ofNative, hn] at this
  cases this.2

namespace Variables

def IsReadOnly (vs : Variables) (name : String) : Prop := ∃ v, vs.host.get? name = some v ∧ v.write = none

end Variables

/-- What an import answers to data that it does not take: the first fault, by kind and then in the order of the data. -/
inductive Objection (vs : Variables) : Native → Fault → Prop
  | form {data} (h : ¬ data.IsSnapshot) : Objection vs data .snapshot
  | overflow {entries} (hflat : (Native.map entries).IsSnapshot) (hbig : TooLarge entries) :
    Objection vs (.map entries) .overflow
  | readOnly {before : List (String × Native)} {name x rest}
    (hflat : (Native.map (before ++ (name, x) :: rest)).IsSnapshot) (hfit : ¬ TooLarge (before ++ (name, x) :: rest))
    (hbefore : ∀ e ∈ before, ¬ vs.IsReadOnly e.1) (hro : vs.IsReadOnly name) :
    Objection vs (.map (before ++ (name, x) :: rest)) (.readOnly name)

/-! ### Setters -/

/-- The setters bound to these names answer, and leave the registry as it is. -/
def Obliging {σ μ : Type} (host : Host σ μ) (vs : Variables) (names : List String) : Prop :=
  ∀ name ∈ names, ∀ v code, vs.host.get? name = some v → v.write = some code →
    ∀ (x : Native) (w : World σ μ), ∃ w', host.write code x w = .ok () w' ∧ w'.vars = w.vars

/-- The setters that a write of these values calls, each with the native form of its value. -/
def Variables.settings (vs : Variables) (values : List (String × Value)) : List (String × Handle × Native) :=
  values.filterMap fun e =>
    ((vs.host.get? e.1).bind HostVariable.write).map fun code => (e.1, code, e.2.toNative)

def World.withScript {σ μ : Type} (w : World σ μ) (script : Table Value) : World σ μ :=
  w.withVars { w.vars with script }

/-- The world comes from one to the other by these calls of setters, in this order, each noted when it is made;
between them only script variables are written. -/
inductive Served {σ μ : Type} (host : Host σ μ) :
    List (String × Handle × Native) → World σ μ → World σ μ → Prop
  | done {w : World σ μ} (script : Table Value) : Served host [] w (w.withScript script)
  | call {name code x calls} {w w₁ w₂ : World σ μ} (script : Table Value)
    (hx : host.write code x ((w.withScript script).noting (.wrote name x)) = .ok () w₁) (h : Served host calls w₁ w₂) :
    Served host ((name, code, x) :: calls) w w₂

/-- What is written before the first call changes nothing of that. -/
theorem Served.putting {σ μ : Type} {host : Host σ μ} {calls : List (String × Handle × Native)} {w w' : World σ μ}
    {script : Table Value} (h : Served host calls (w.withScript script) w') : Served host calls w w' := by
  cases h with
  | done s => exact .done (w := w) s
  | call s hx h => exact .call (w := w) s hx h

namespace Play
variable {σ μ : Type} {host : Host σ μ} {w : World σ μ}

/-! ### The checks of an import -/

theorem run_convertEntries {entries : List (String × Native)} {values : List (String × Value)}
    (h : Converted entries values) (w : World σ μ) : convertEntries entries w = .ok values w := by
  induction h with
  | nil => rfl
  | @cons e v entries values he _ ih =>
    obtain ⟨name, x⟩ := e
    obtain ⟨name', value⟩ := v
    obtain ⟨rfl, hv⟩ := he
    have hconvert : (convert x : Play σ μ Value) w = .ok value w := by rw [convert, hv]; rfl
    rw [convertEntries, run_bind_ok hconvert, run_bind_ok ih]
    rfl

theorem convertEntries_of_isScalar {entries : List (String × Native)} (h : ∀ e ∈ entries, e.2.IsScalar) :
    (∃ values, Converted entries values) ∨
      TooLarge entries ∧ ∀ w : World σ μ, convertEntries entries w = .error .overflow w := by
  induction entries with
  | nil => exact .inl ⟨[], .nil⟩
  | cons e rest ih =>
    obtain ⟨name, x⟩ := e
    rcases Value.ofNative_of_isScalar (h _ (List.mem_cons_self ..)) with ⟨v, hv⟩ | ⟨n, rfl, hn, hv⟩
    · rcases ih fun e he => h e (List.mem_cons_of_mem _ he) with ⟨values, hvalues⟩ | ⟨⟨other, n, hmem, hn⟩, hrun⟩
      · exact .inl ⟨(name, v) :: values, .cons ⟨rfl, hv⟩ hvalues⟩
      · refine .inr ⟨⟨other, n, List.mem_cons_of_mem _ hmem, hn⟩, fun w => ?_⟩
        have hconvert : (convert x : Play σ μ Value) w = .ok v w := by rw [convert, hv]; rfl
        rw [convertEntries, run_bind_ok hconvert, run_bind_error (hrun w)]
    · refine .inr ⟨⟨name, n, List.mem_cons_self .., hn⟩, fun w => ?_⟩
      have hconvert : (convert (.integer n) : Play σ μ Value) w = .error .overflow w := by rw [convert, hv]; rfl
      rw [convertEntries, run_bind_error hconvert]

theorem isReadOnly_iff {vs : Variables} {name : String} :
    ((vs.host.get? name).any fun v => v.write.isNone) = true ↔ vs.IsReadOnly name := by
  simp [Variables.IsReadOnly, Option.any_eq_true]

theorem run_requireWritable {names : List String} (h : ∀ name ∈ names, ¬ w.vars.IsReadOnly name) :
    (requireWritable names : Play σ μ Unit) w = .ok () w := by
  have hnone : (names.find? fun name => (w.vars.host.get? name).any fun v => v.write.isNone) = none :=
    List.find?_eq_none.mpr fun name hn => isReadOnly_iff.not.mpr (h name hn)
  rw [requireWritable, run_bind_ok (run_get w), hnone]
  rfl

theorem run_requireWritable_readOnly {before rest : List String} {name : String}
    (hbefore : ∀ name ∈ before, ¬ w.vars.IsReadOnly name) (hro : w.vars.IsReadOnly name) :
    (requireWritable (before ++ name :: rest) : Play σ μ Unit) w =
      .error (.readOnly name) (w.noting
        (.logged ⟨.error, .vars, s!"Variable snapshot writes read-only variable '{name}'"⟩)) := by
  have hfind : ((before ++ name :: rest).find? fun name => (w.vars.host.get? name).any fun v => v.write.isNone) =
      some name := by
    refine List.find?_eq_some_iff_append.mpr ⟨isReadOnly_iff.mpr hro, before, rest, rfl, fun n hn => ?_⟩
    rw [Bool.not_eq_true', ← Bool.not_eq_true]
    exact isReadOnly_iff.not.mpr (hbefore n hn)
  rw [requireWritable, run_bind_ok (run_get w), hfind]
  rfl

/-! ### The writes of an import -/

theorem run_setVariable_free {name : String} (h : w.vars.host.get? name = none) (value : Value) :
    setVariable host name value w = .ok () (w.withScript (w.vars.script.put name value)) := by
  rw [setVariable, run_bind_ok (run_get w), h]
  rfl

theorem run_setVariable_bound {name : String} {v : HostVariable} {code : Handle} (hv : w.vars.host.get? name = some v)
    (hc : v.write = some code) (value : Value) :
    setVariable host name value w = host.write code value.toNative (w.noting (.wrote name value.toNative)) := by
  rw [setVariable, run_bind_ok (run_get w), hv]
  dsimp only
  rw [hc]
  rfl

/-- Without a read-only name all values are written, each where its name belongs. -/
theorem run_setVariables {values : List (String × Value)} (hset : Obliging host w.vars (values.map Prod.fst))
    (hro : ∀ name ∈ values.map Prod.fst, ¬ w.vars.IsReadOnly name) :
    ∃ w', setVariables host values w = .ok () w' ∧ Served host (w.vars.settings values) w w' ∧
      w'.vars = { w.vars with
        script := w.vars.script.putAll (values.filter fun e => (w.vars.host.get? e.1).isNone) } := by
  induction values generalizing w with
  | nil => exact ⟨w, rfl, .done (w := w) w.vars.script, rfl⟩
  | cons e rest ih =>
    obtain ⟨name, value⟩ := e
    rw [List.map_cons] at hset hro
    have hset' : Obliging host w.vars (rest.map Prod.fst) := fun other hm => hset other (List.mem_cons_of_mem _ hm)
    have hro' : ∀ name ∈ rest.map Prod.fst, ¬ w.vars.IsReadOnly name := fun other hm => hro other (List.mem_cons_of_mem _ hm)
    rw [setVariables]
    cases hv : w.vars.host.get? name with
    | none =>
      obtain ⟨w', hrun, hserved, hvars⟩ := ih (w := w.withScript (w.vars.script.put name value)) hset' hro'
      refine ⟨w', ?_, ?_, ?_⟩
      · rw [run_bind_ok (run_setVariable_free hv value), hrun]
      · rw [Variables.settings, List.filterMap_cons_none (by rw [hv]; rfl)]
        exact hserved.putting
      · rw [hvars, List.filter_cons_of_pos (by rw [hv]; rfl)]
        rfl
    | some v =>
      have hwrite : v.write ≠ none := fun hnone => hro name (List.mem_cons_self ..) ⟨v, hv, hnone⟩
      obtain ⟨code, hc⟩ := Option.ne_none_iff_exists'.mp hwrite
      obtain ⟨w₁, hx, hw₁⟩ := hset name (List.mem_cons_self ..) v code hv hc value.toNative
        (w.noting (.wrote name value.toNative))
      replace hw₁ : w₁.vars = w.vars := hw₁
      obtain ⟨w', hrun, hserved, hvars⟩ := ih (w := w₁) (hw₁ ▸ hset') (hw₁ ▸ hro')
      rw [hw₁] at hserved hvars
      refine ⟨w', ?_, ?_, ?_⟩
      · rw [run_bind_ok (by rw [run_setVariable_bound hv hc value, hx]), hrun]
      · rw [Variables.settings, List.filterMap_cons_some (b := (name, code, value.toNative)) (by simp [hv, hc])]
        exact .call (w := w) w.vars.script hx hserved
      · rw [hvars, List.filter_cons_of_neg (by simp [hv])]

/-! ### The whole import -/

theorem importVariables_eq {data : Native} {entries : List (String × Native)} {values : List (String × Value)}
    (hdata : snapshotEntries? data = some entries) (hvalues : Converted entries values) (w : World σ μ) :
    importVariables host data w = (do
      requireWritable (values.map Prod.fst)
      setVariables host values
      log .debug .vars s!"Imported {values.length} variables" : Play σ μ Unit) w := by
  rw [importVariables, hdata]
  exact run_bind_ok (run_convertEntries hvalues w)

/-- An import that is refused writes nothing and calls no setter, whatever the host. -/
theorem run_importVariables_refused {data : Native} {f : Fault} (h : Objection w.vars data f) :
    ∃ lines : List LogRecord, ∀ host : Host σ μ,
      importVariables host data w = .error f { w with journal := lines.map .logged ++ w.journal } := by
  cases h with
  | form h =>
    refine ⟨[⟨.error, .vars, "Invalid variable snapshot"⟩], fun host => ?_⟩
    rw [importVariables, snapshotEntries?_eq_none.mpr h]
    rfl
  | @overflow entries hflat hbig =>
    refine ⟨[], fun host => ?_⟩
    obtain ⟨values, hvalues⟩ | ⟨_, hrun⟩ := convertEntries_of_isScalar (σ := σ) (μ := μ) hflat
    · exact absurd hbig hvalues.not_tooLarge
    · rw [importVariables, snapshotEntries?_eq_some.mpr ⟨rfl, hflat⟩]
      exact run_bind_error (hrun w)
  | @readOnly before name x rest hflat hfit hbefore hro =>
    refine ⟨[⟨.error, .vars, s!"Variable snapshot writes read-only variable '{name}'"⟩], fun host => ?_⟩
    obtain ⟨values, hvalues⟩ | ⟨hbig, _⟩ := convertEntries_of_isScalar (σ := σ) (μ := μ) hflat
    · rw [importVariables_eq (snapshotEntries?_eq_some.mpr ⟨rfl, hflat⟩) hvalues, hvalues.names, List.map_append,
        List.map_cons]
      refine run_bind_error (run_requireWritable_readOnly (fun other hm => ?_) hro)
      obtain ⟨e, he, rfl⟩ := List.mem_map.mp hm
      exact hbefore e he
    · exact absurd hbig hfit

end Play

/-- Data meets an objection or can be written. -/
theorem objection_or_converted (vs : Variables) (data : Native) :
    (∃ f, Objection vs data f) ∨ ∃ entries values, data = .map entries ∧ data.IsSnapshot ∧ Converted entries values ∧
      ∀ name ∈ values.map Prod.fst, ¬ vs.IsReadOnly name := by
  by_cases hflat : data.IsSnapshot
  swap
  · exact .inl ⟨_, .form hflat⟩
  cases data with
  | map entries =>
    obtain ⟨values, hvalues⟩ | ⟨hbig, _⟩ := Play.convertEntries_of_isScalar (σ := Unit) (μ := Unit) hflat
    swap
    · exact .inl ⟨_, .overflow hflat hbig⟩
    cases hfind : entries.find? fun e => (vs.host.get? e.1).any fun v => v.write.isNone with
    | none =>
      refine .inr ⟨entries, values, rfl, hflat, hvalues, fun name hn => ?_⟩
      rw [hvalues.names] at hn
      obtain ⟨e, he, rfl⟩ := List.mem_map.mp hn
      exact Play.isReadOnly_iff.not.mp (List.find?_eq_none.mp hfind e he)
    | some e =>
      obtain ⟨hro, before, rest, rfl, hbefore⟩ := List.find?_eq_some_iff_append.mp hfind
      refine .inl ⟨_, .readOnly hflat hvalues.not_tooLarge (fun e he => ?_) (Play.isReadOnly_iff.mp hro)⟩
      have := hbefore e he
      rw [Bool.not_eq_true', ← Bool.not_eq_true] at this
      exact Play.isReadOnly_iff.not.mp this
  | _ => exact hflat.elim

/-- What an import of these values does. Each bound name has its setter called once, in the order of the data; each
other name becomes a script variable; nothing else in the registry changes. -/
structure Imported {σ μ : Type} (host : Host σ μ) (values : List (String × Value)) (w w' : World σ μ) : Prop where
  served : ∃ w₁, Served host (w.vars.settings values) w w₁ ∧
    w' = w₁.noting (.logged ⟨.debug, .vars, s!"Imported {values.length} variables"⟩)
  settings : (w.vars.settings values).map Prod.fst = (values.map Prod.fst).filter w.vars.host.has
  bindings : w'.vars.host = w.vars.host
  written : ∀ e ∈ values, w.vars.host.has e.1 = false → w'.vars.script.get? e.1 = some e.2
  kept : ∀ name, name ∉ values.map Prod.fst ∨ w.vars.host.has name → w'.vars.script.get? name = w.vars.script.get? name

theorem Variables.map_fst_settings {vs : Variables} {values : List (String × Value)}
    (hro : ∀ name ∈ values.map Prod.fst, ¬ vs.IsReadOnly name) :
    (vs.settings values).map Prod.fst = (values.map Prod.fst).filter vs.host.has := by
  induction values with
  | nil => rfl
  | cons e rest ih =>
    obtain ⟨name, value⟩ := e
    have ih := ih fun other hm => hro other (List.mem_cons_of_mem _ hm)
    rw [settings] at ih
    rw [List.map_cons, settings]
    cases hv : vs.host.get? name with
    | none =>
      rw [List.filterMap_cons_none (by simp [hv]), ih, List.filter_cons_of_neg (by simp [Table.has, hv])]
    | some v =>
      obtain ⟨code, hc⟩ := Option.ne_none_iff_exists'.mp fun hnone => hro name (List.mem_cons_self ..) ⟨v, hv, hnone⟩
      rw [List.filterMap_cons_some (b := (name, code, value.toNative)) (by simp [hv, hc]), List.map_cons, ih,
        List.filter_cons_of_pos (by simp [Table.has, hv])]

section
variable {σ μ : Type} {host : Host σ μ} {w : World σ μ}

theorem Imported.of_vars {values : List (String × Value)} {w₁ : World σ μ} (hn : (values.map Prod.fst).Nodup)
    (hro : ∀ name ∈ values.map Prod.fst, ¬ w.vars.IsReadOnly name) (hserved : Served host (w.vars.settings values) w w₁)
    (hvars : w₁.vars = { w.vars with
      script := w.vars.script.putAll (values.filter fun e => (w.vars.host.get? e.1).isNone) }) :
    Imported host values w
      (w₁.noting (.logged ⟨.debug, .vars, s!"Imported {values.length} variables"⟩)) := by
  have hn' : ((values.filter fun e => (w.vars.host.get? e.1).isNone).map Prod.fst).Nodup :=
    hn.sublist (List.filter_sublist.map Prod.fst)
  have hscript : ∀ name, w₁.vars.script.get? name =
      ((values.filter fun e => (w.vars.host.get? e.1).isNone).lookup name).or (w.vars.script.get? name) := by
    intro name
    rw [hvars]
    exact Table.get?_putAll hn' _ name
  refine ⟨⟨w₁, hserved, rfl⟩, Variables.map_fst_settings hro, (congrArg Variables.host hvars :), ?_, ?_⟩
  · intro e he hfree
    have hmem : (e.1, e.2) ∈ values.filter fun e => (w.vars.host.get? e.1).isNone :=
      List.mem_filter.mpr ⟨he, by simpa [Table.has] using hfree⟩
    refine (hscript e.1).trans ?_
    rw [(lookup_eq_some_iff_mem hn').mpr hmem]
    rfl
  · intro name hname
    refine (hscript name).trans ?_
    rw [lookup_filter fun name => (w.vars.host.get? name).isNone]
    rcases hname with hname | hname
    · rw [lookup_eq_none_iff_not_mem.mpr hname, ite_self]
      rfl
    · rw [if_neg (by simpa [Table.has, Option.isSome_iff_ne_none] using hname)]
      rfl

/-- Data without an objection is written as a whole, if the setters it needs answer. -/
theorem run_importVariables {entries : List (String × Native)} {values : List (String × Value)}
    (hflat : (Native.map entries).IsSnapshot) (hvalues : Converted entries values)
    (hset : Obliging host w.vars (entries.map Prod.fst)) (hn : (entries.map Prod.fst).Nodup)
    (hro : ∀ name ∈ values.map Prod.fst, ¬ w.vars.IsReadOnly name) :
    ∃ w', Play.importVariables host (.map entries) w = .ok () w' ∧ Imported host values w w' := by
  rw [← hvalues.names] at hset hn
  obtain ⟨w₁, hrun, hserved, hvars⟩ := Play.run_setVariables hset hro
  refine ⟨_, ?_, .of_vars hn hro hserved hvars⟩
  rw [Play.importVariables_eq (snapshotEntries?_eq_some.mpr ⟨rfl, hflat⟩) hvalues,
    run_bind_ok (Play.run_requireWritable hro), run_bind_ok hrun]
  rfl

/-- A host that keeps what its setters are given, the latest first. -/
def ledger : Host (List (Handle × Native)) Unit where
  read _ := throw .exhausted
  write code x := modify fun w => { w with host := (code, x) :: w.host }
  call _ _ := throw .exhausted
  callRaw _ _ := throw .exhausted
  handle _ _ _ := throw .exhausted
  owns _ _ := false
  patience := 0

/-- One name of the host can be written, another cannot. -/
def household : World (List (Handle × Native)) Unit :=
  { vars := {
      script := .ofList [("mood", .null), ("hint", .string "door")]
      host := .ofList [("gold", ⟨0, some 1, ""⟩), ("rank", ⟨2, none, ""⟩)] }
    host := [] }

theorem obliging_ledger (names : List String) : Obliging ledger household.vars names :=
  fun _ _ _ _ _ _ _ _ => ⟨_, rfl, rfl⟩

def tidings : Native := .map [("mood", .string "calm"), ("gold", .boolean true), ("met", .none)]

theorem Value.isScalar_toNative (v : Value) : v.toNative.IsScalar := by
  unfold Value.toNative
  split
  · split <;> trivial
  all_goals trivial

namespace Variables

/-- What an import of the exported variables writes. -/
def restored (vs : Variables) : List (String × Value) := vs.script.sorted.map fun e => (e.1, e.2.plainZero)

theorem names_restored (vs : Variables) : vs.restored.map Prod.fst = vs.script.sorted.map Prod.fst := by
  rw [restored, List.map_map]
  rfl

theorem lookup_restored (vs : Variables) (name : String) :
    vs.restored.lookup name = (vs.script.get? name).map Value.plainZero := by
  have hn : (vs.restored.map Prod.fst).Nodup := vs.names_restored ▸ vs.script.nodup_sorted
  cases hv : vs.script.get? name with
  | none =>
    refine lookup_eq_none_iff_not_mem.mpr fun hm => ?_
    rw [names_restored, Table.mem_names_sorted] at hm
    exact Table.get?_eq_none_iff.mp hv hm
  | some v =>
    exact (lookup_eq_some_iff_mem hn).mpr (List.mem_map_of_mem (Table.mem_sorted.mpr hv))

theorem isSnapshot_exported (vs : Variables) : (Native.map vs.exported).IsSnapshot := by
  intro e he
  obtain ⟨⟨name, v⟩, _, rfl⟩ := List.mem_map.mp he
  exact v.isScalar_toNative

theorem converted_exported (vs : Variables) : Converted vs.exported vs.restored := by
  rw [exported, restored, Converted, List.forall₂_map_left_iff, List.forall₂_map_right_iff, List.forall₂_same]
  exact fun e _ => ⟨rfl, Value.ofNative_toNative e.2⟩

/-- Restored into an empty registry, the variables are exported as before. -/
theorem exported_putAll_restored (vs : Variables) (bound : Table HostVariable) :
    Variables.exported ⟨Table.putAll {} vs.restored, bound⟩ = vs.exported := by
  have hentries : (Table.putAll {} vs.restored).entries = vs.restored :=
    Table.entries_putAll (t := {}) (vs.names_restored ▸ vs.script.nodup_sorted)
  have hsorted : (Table.putAll {} vs.restored).sorted = vs.restored := by
    rw [Table.sorted_of_pairwise, hentries]
    rw [hentries, restored, List.pairwise_map]
    exact vs.script.sorted_pairwise
  rw [exported, hsorted, restored, List.map_map, exported]
  exact List.map_congr_left fun e _ => congrArg (Prod.mk e.1) (Value.toNative_plainZero e.2)

end Variables

theorem Play.run_setVariables_free {values : List (String × Value)}
    (h : ∀ name ∈ values.map Prod.fst, w.vars.host.get? name = none) :
    Play.setVariables host values w = .ok () (w.withScript (w.vars.script.putAll values)) := by
  induction values generalizing w with
  | nil => rfl
  | cons e rest ih =>
    rw [List.map_cons] at h
    rw [Play.setVariables, run_bind_ok (run_setVariable_free (h e.1 (List.mem_cons_self ..)) e.2)]
    exact ih (w := w.withScript (w.vars.script.put e.1 e.2)) fun name hm => h name (List.mem_cons_of_mem _ hm)

/-- Exported variables go into any registry that binds none of their names, and no setter is called. -/
theorem run_importVariables_exported {vs : Variables} (hfree : ∀ name ∈ vs.script.names, w.vars.host.get? name = none) :
    Play.importVariables host (.map vs.exported) w = .ok () ((w.withScript (w.vars.script.putAll vs.restored)).noting
      (.logged ⟨.debug, .vars, s!"Imported {vs.restored.length} variables"⟩)) := by
  have hfree' : ∀ name ∈ vs.restored.map Prod.fst, w.vars.host.get? name = none := by
    intro name hm
    rw [vs.names_restored, Table.mem_names_sorted] at hm
    exact hfree name hm
  have hro : ∀ name ∈ vs.restored.map Prod.fst, ¬ w.vars.IsReadOnly name := by
    rintro name hm ⟨v, hv, _⟩
    rw [hfree' name hm] at hv
    cases hv
  rw [Play.importVariables_eq (snapshotEntries?_eq_some.mpr ⟨rfl, vs.isSnapshot_exported⟩) vs.converted_exported,
    run_bind_ok (Play.run_requireWritable hro), run_bind_ok (Play.run_setVariables_free hfree')]
  rfl

theorem Play.run_getVariable_free {name : String} {v : Value} (hfree : w.vars.host.get? name = none)
    (hv : w.vars.script.get? name = some v) : Play.getVariable host name w = .ok v (w.noting (.read name)) := by
  have hnote : (note (.read name) : Play σ μ Unit) w = .ok () (w.noting (.read name)) := rfl
  have hfree' : (w.noting (.read name)).vars.host.get? name = none := hfree
  have hv' : (w.noting (.read name)).vars.script.get? name = some v := hv
  rw [Play.getVariable, run_bind_ok hnote, run_bind_ok (run_get _), hfree']
  dsimp only
  rw [hv']
  rfl

/-- Saving and restoring loses nothing: an export goes into any registry that binds none of its names, every variable
is back with its type and value, nothing else changes, and a second export says the same as the first. -/
theorem importVariables_exported {r : Variables}
    (hfree : ∀ name ∈ r.script.names, w.vars.host.has name = false) :
    ∃ w', Play.importVariables host (.map r.exported) w = .ok () w' ∧
      (∀ name v, r.script.get? name = some v → ∃ v', Play.getVariable host name w' = .ok v' (w'.noting (.read name)) ∧
        v'.typeName = v.typeName ∧ (v ≠ .number .nan → v.equals v') ∧ (v = .number .nan → v' = .number .nan)) ∧
      (∀ name, name ∉ r.script.names → w'.vars.script.get? name = w.vars.script.get? name) ∧
      w'.vars.host = w.vars.host ∧ w'.host = w.host ∧
      ∀ (σ' μ' : Type) (other : Host σ' μ') (z : World σ' μ'), z.vars = {} →
        ∃ z', Play.importVariables other (.map w'.vars.exported) z = .ok () z' ∧ z'.vars.exported = w'.vars.exported := by
  have hfree' : ∀ name ∈ r.script.names, w.vars.host.get? name = none := fun name hm => by
    simpa [Table.has] using hfree name hm
  have hget : ∀ name, (w.vars.script.putAll r.restored).get? name =
      ((r.script.get? name).map Value.plainZero).or (w.vars.script.get? name) := fun name => by
    rw [Table.get?_putAll (r.names_restored ▸ r.script.nodup_sorted), r.lookup_restored]
  refine ⟨_, run_importVariables_exported hfree', fun name v hv => ⟨v.plainZero, ?_, ?_⟩, fun name hname => ?_, rfl, rfl,
    fun _ _ other z hz => ⟨_, run_importVariables_exported ?_, ?_⟩⟩
  · have hname : name ∈ r.script.names := by
      by_contra hname
      rw [Table.get?_eq_none_iff.mpr hname] at hv
      cases hv
    exact Play.run_getVariable_free (hfree' name hname) ((hget name).trans (by rw [hv]; rfl))
  · exact ⟨v.typeName_plainZero, Value.equals_plainZero, fun h => by rw [h]; rfl⟩
  · exact (hget name).trans (by rw [Table.get?_eq_none_iff.mpr hname]; rfl)
  · intro name _
    rw [hz]
    rfl
  · change Variables.exported ⟨z.vars.script.putAll _, z.vars.host⟩ = _
    rw [hz]
    exact Variables.exported_putAll_restored _ _

/-- Values of every type, among them those that are easily mistaken for others. -/
def keepsakes : Variables where
  script := .ofList [("luck", .number .nan), ("debt", .number (.infinite true)), ("met", .boolean true),
    ("gift", .null), ("name", .string "true")]

theorem importVariables_exported_keepsakes :
    (∀ name ∈ keepsakes.script.names, household.vars.host.has name = false) ∧
      ∃ w', Play.importVariables ledger (.map keepsakes.exported) household = .ok () w' ∧ w'.host = [] ∧
        w'.vars.script.get? "hint" = some (.string "door") ∧
        ∃ v, Play.getVariable ledger "luck" w' = .ok v (w'.noting (.read "luck")) ∧ v = .number .nan := by
  have hfree : ∀ name ∈ keepsakes.script.names, household.vars.host.has name = false := by decide
  obtain ⟨w', hrun, hback, hkept, _, hhost, _⟩ := @importVariables_exported _ _ ledger household _ hfree
  obtain ⟨v, hget, _, _, hnan⟩ := hback "luck" (.number .nan) rfl
  exact ⟨hfree, w', hrun, hhost, hkept "hint" (by decide), v, hget, hnan rfl⟩

end
end Parley
