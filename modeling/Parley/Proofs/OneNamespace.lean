import Parley.Proofs.HostOrder
import Parley.Proofs.Snapshots
import Parley.Proofs.Upkeep

/-! # One namespace

No name is a script variable and a host variable at once. Setting, importing, clearing and unbinding keep that as they
stand, binding because it drops the script variable of the name; restoring replaces the script variables without a look
at the bindings, so it keeps it only if none of the names is bound (`Glimpse.Apart`). Getters and setters may call the
registry again, to any depth; what they see of it and what they restore is put on record (`Code.glimpsing`). -/

namespace Parley

/-! ### The registry alone -/

namespace Variables

def OneNamespace (vs : Variables) : Prop := ∀ name, vs.script.get? name = none ∨ vs.host.get? name = none

namespace OneNamespace
variable {vs : Variables}

theorem empty : OneNamespace {} := fun _ => .inl rfl

theorem put (h : vs.OneNamespace) {name : String} (hfree : vs.host.get? name = none) (v : Value) :
    OneNamespace { vs with script := vs.script.put name v } := by
  intro other
  rw [Table.get?_put]
  split
  · next hname => exact .inr (hname ▸ hfree)
  · exact h other

theorem unbind (h : vs.OneNamespace) (name : String) : OneNamespace { vs with host := vs.host.erase name } := by
  intro other
  rw [Table.get?_erase]
  split
  · exact .inr rfl
  · exact h other

/-- A name that is bound is no script variable any more. -/
theorem bind (h : vs.OneNamespace) (name : String) (v : HostVariable) :
    OneNamespace ⟨vs.script.erase name, vs.host.put name v⟩ := by
  intro other
  rw [Table.get?_erase, Table.get?_put]
  split
  · exact .inl rfl
  · exact h other

theorem clear (vs : Variables) : OneNamespace { vs with script := {} } := fun _ => .inl rfl

theorem restore {values : List (String × Value)} (h : ∀ e ∈ values, vs.host.get? e.1 = none) :
    OneNamespace { vs with script := .ofList values } := by
  intro name
  by_cases hname : ∃ e ∈ values, e.1 = name
  · obtain ⟨e, he, rfl⟩ := hname
    exact .inr (h e he)
  · exact .inl (Table.get?_ofList_eq_none fun e he hn => hname ⟨e, he, hn⟩)

theorem free (h : vs.OneNamespace) {name : String} (hname : name ∈ vs.script.names) : vs.host.get? name = none :=
  (h name).resolve_left fun hnone => Table.get?_eq_none_iff.mp hnone hname

end OneNamespace
end Variables

/-! ### What is put on record -/

namespace Operation

def isRegistry : Operation → Bool
  | .setVariable .. | .getVariable _ | .importVariables _ | .restoreVariables _ | .clearVariables
  | .bindVariable .. | .unbindVariable _ => true
  | _ => false

/-- The values that are to take the place of the script variables. -/
def restoring : Operation → List (String × Value)
  | .restoreVariables values => values
  | _ => []

end Operation

/-- The registry before a call, and what the call is about to restore. -/
structure Glimpse where
  vars : Variables
  restoring : List (String × Value)

/-- Nothing that is bound is about to be restored. -/
def Glimpse.Apart (g : Glimpse) : Prop := ∀ e ∈ g.restoring, g.vars.host.get? e.1 = none

section
variable {σ μ α : Type}

/-- The same code, which puts the registry on record before each of its calls, and nothing else. -/
def Code.glimpsing : Code σ Glimpse α → Code σ Glimpse α
  | .pure a => .pure a
  | .fail f => .fail f
  | .look next => .look fun w => (next w).glimpsing
  | .keep s next => .keep s next.glimpsing
  | .mark _ next => next.glimpsing
  | .ask seat op next => .look fun w => .mark ⟨w.vars, op.restoring⟩ (.ask seat op fun a => (next a).glimpsing)

def Behaviour.glimpsing (b : Behaviour σ Glimpse) : Behaviour σ Glimpse where
  read h := (b.read h).glimpsing
  write h v := (b.write h v).glimpsing
  call h args := (b.call h args).glimpsing
  callRaw h args := (b.callRaw h args).glimpsing
  handle seat h n := (b.handle seat h n).glimpsing
  owns := b.owns

/-- All calls that the code makes are to the registry. -/
def Code.CallsRegistry : Code σ μ α → Prop
  | .pure _ | .fail _ => True
  | .look next => ∀ w, (next w).CallsRegistry
  | .keep _ next | .mark _ next => next.CallsRegistry
  | .ask _ op next => op.isRegistry ∧ ∀ a, (next a).CallsRegistry

/-- The getters and setters of a host call nothing but the registry. -/
structure Behaviour.CallsRegistry (b : Behaviour σ μ) : Prop where
  read : ∀ h, (b.read h).CallsRegistry
  write : ∀ h v, (b.write h v).CallsRegistry

end

theorem World.vars_turnTo {σ μ : Type} (w : World σ μ) (seat : Nat) : (w.turnTo seat).vars = w.vars := by
  unfold turnTo
  split
  · rfl
  · split <;> rfl

/-- As long as nothing bound has been restored, every registry on record has had one namespace. -/
def World.NamesApart {σ : Type} (w : World σ Glimpse) : Prop :=
  (∀ g, .marked g ∈ w.journal → g.Apart) →
    w.vars.OneNamespace ∧ ∀ g, .marked g ∈ w.journal → g.vars.OneNamespace

namespace World.NamesApart
variable {σ : Type} {w : World σ Glimpse}

theorem noting (h : w.NamesApart) {e : Entry Glimpse} (he : e.isRoutine) : (w.noting e).NamesApart := by
  have hmarks : ∀ g, .marked g ∈ e :: w.journal ↔ .marked g ∈ w.journal := fun g => by
    rw [List.mem_cons, or_iff_right]
    rintro rfl
    cases he
  intro happart
  obtain ⟨hvars, hseen⟩ := h fun g hg => happart g ((hmarks g).mpr hg)
  exact ⟨hvars, fun g hg => hseen g ((hmarks g).mp hg)⟩

theorem withVars (h : w.NamesApart) {vs : Variables}
    (hvs : (∀ g, .marked g ∈ w.journal → g.Apart) → w.vars.OneNamespace → vs.OneNamespace) :
    (w.withVars vs).NamesApart :=
  fun happart => ⟨hvs happart (h happart).1, (h happart).2⟩

theorem marking (h : w.NamesApart) (values : List (String × Value)) :
    (w.noting (.marked ⟨w.vars, values⟩)).NamesApart := by
  intro happart
  obtain ⟨hvars, hseen⟩ := h fun g hg => happart g (List.mem_cons_of_mem _ hg)
  refine ⟨hvars, fun g hg => ?_⟩
  rcases List.mem_cons.mp hg with hg | hg
  · cases hg
    exact hvars
  · exact hseen g hg

theorem logging (h : w.NamesApart) (lines : List LogRecord) :
    World.NamesApart { w with journal := lines.map .logged ++ w.journal } := by
  induction lines with
  | nil => exact h
  | cons line lines ih => exact ih.noting (e := .logged line) rfl

theorem turnTo (h : w.NamesApart) (seat : Nat) : (w.turnTo seat).NamesApart := by
  unfold World.NamesApart
  rw [w.vars_turnTo, w.journal_turnTo]
  exact h

end World.NamesApart

/-! ### One call -/

namespace Play
variable {σ : Type} {host : Host σ Glimpse}

/-- Leads from worlds with names apart to such worlds, also where it fails. -/
abbrev KeepsApart {α : Type} (x : Play σ Glimpse α) : Prop := Upholds World.NamesApart (fun _ => True) x

theorem keepsApart_log (level : LogLevel) (channel : LogChannel) (message : String) :
    KeepsApart (log level channel message : Play σ Glimpse Unit) :=
  .modify fun _ hw => hw.noting rfl

theorem keepsApart_failOn {α : Type} (channel : LogChannel) (f : Fault) :
    KeepsApart (failOn channel f : Play σ Glimpse α) :=
  (keepsApart_log ..).bind fun _ => .throw trivial

theorem keepsApart_convert (x : Native) : KeepsApart (convert x : Play σ Glimpse Value) := by
  unfold convert
  split
  · exact .pure _
  · exact .throw trivial

theorem keepsApart_convertEntries (entries : List (String × Native)) :
    KeepsApart (convertEntries entries : Play σ Glimpse (List (String × Value))) := by
  induction entries with
  | nil => exact .pure _
  | cons e rest ih => exact (keepsApart_convert _).bind fun _ => ih.bind fun _ => .pure _

theorem keepsApart_getVariable (hread : ∀ h, KeepsApart (host.read h)) (name : String) :
    KeepsApart (getVariable host name) := by
  refine .bind (.modify fun _ hw => hw.noting rfl) fun _ => .get fun w => ?_
  dsimp only
  split
  · exact (hread _).bind fun x => keepsApart_convert x
  · split
    · exact .pure _
    · exact keepsApart_failOn ..

section
variable (hwrite : ∀ h x, KeepsApart (host.write h x))
include hwrite

theorem keepsApart_setVariable (name : String) (value : Value) : KeepsApart (setVariable host name value) := by
  intro w hw
  rw [setVariable, wp_bind, wp_get]
  cases hv : w.vars.host.get? name with
  | none => exact hw.withVars fun _ h => h.put hv value
  | some v =>
    dsimp only
    cases v.write with
    | none => exact keepsApart_failOn _ _ hw
    | some code => exact (Upholds.modify fun _ hw => hw.noting rfl).bind (fun _ => hwrite code value.toNative) hw

theorem keepsApart_setVariables (values : List (String × Value)) : KeepsApart (setVariables host values) := by
  induction values with
  | nil => exact .pure _
  | cons e rest ih => exact (keepsApart_setVariable hwrite ..).bind fun _ => ih

theorem keepsApart_importVariables (data : Native) : KeepsApart (importVariables host data) := by
  unfold importVariables
  split
  · exact (keepsApart_log ..).bind fun _ => .throw trivial
  · refine (keepsApart_convertEntries _).bind fun values => .bind (.get fun w => ?_) fun _ =>
      (keepsApart_setVariables hwrite values).bind fun _ => keepsApart_log ..
    dsimp only
    split
    · exact .pure _
    · exact (keepsApart_log ..).bind fun _ => .throw trivial

end

theorem run_bindVariable {σ μ : Type} (name : String) (v : HostVariable) (w : World σ μ) :
    ∃ lines : List LogRecord, (bindVariable name v : Play σ μ Unit) w = .ok () { w with
      vars := ⟨w.vars.script.erase name, w.vars.host.put name v⟩, journal := lines.map .logged ++ w.journal } := by
  rw [bindVariable, run_bind_ok (run_get w)]
  by_cases hs : w.vars.script.has name
  · rw [if_pos hs]
    by_cases hh : w.vars.host.has name
    · rw [if_pos hh]
      exact ⟨[_, _], rfl⟩
    · rw [if_neg hh]
      exact ⟨[_], rfl⟩
  · have herase : w.vars.script.erase name = w.vars.script :=
      Table.erase_of_get?_eq_none (by simpa [Table.has] using hs)
    rw [if_neg hs, herase]
    by_cases hh : w.vars.host.has name
    · rw [if_pos hh]
      exact ⟨[_], rfl⟩
    · rw [if_neg hh]
      exact ⟨[], rfl⟩

theorem keepsApart_bindVariable (name : String) (v : HostVariable) :
    KeepsApart (bindVariable name v : Play σ Glimpse Unit) := by
  intro w hw
  obtain ⟨lines, hrun⟩ := run_bindVariable name v w
  refine (wp_ok hrun).mpr ?_
  exact (hw.withVars fun _ h => h.bind name v).logging lines

/-- A call to the registry, once it is on record. -/
theorem wp_perform_registry (hread : ∀ h, KeepsApart (host.read h)) (hwrite : ∀ h x, KeepsApart (host.write h x))
    {op : Operation} (hop : op.isRegistry) {w : World σ Glimpse} (hw : w.NamesApart)
    (hmark : .marked ⟨w.vars, op.restoring⟩ ∈ w.journal) :
    wp (perform host op) (fun _ => World.NamesApart) (fun _ => World.NamesApart) w := by
  have hdone {x : Play σ Glimpse Unit} (hx : KeepsApart x) : KeepsApart (do x; return Answer.done : Play σ Glimpse Answer) :=
    hx.bind fun _ => .pure _
  have hwp {x : Play σ Glimpse Answer} (hx : KeepsApart x) : wp x (fun _ => World.NamesApart) (fun _ => World.NamesApart) w :=
    wp_mono (hx hw) (fun _ _ h => h) fun _ _ h => h.1
  cases op with
  | setVariable name x => exact hwp (hdone ((keepsApart_convert x).bind fun v => keepsApart_setVariable hwrite name v))
  | getVariable name => exact hwp ((keepsApart_getVariable hread name).bind fun _ => .pure _)
  | importVariables data => exact hwp (hdone (keepsApart_importVariables hwrite data))
  | clearVariables => exact hwp (hdone (.modify fun _ hw => hw.withVars fun _ _ => .clear _))
  | bindVariable name v => exact hwp (hdone (keepsApart_bindVariable name v))
  | unbindVariable name => exact hwp (hdone (.modify fun _ hw => hw.withVars fun _ h => h.unbind name))
  | restoreVariables values => exact hw.withVars fun happart _ => .restore (happart _ hmark)
  | _ => cases hop

end Play

/-! ### Any code -/

section
variable {σ : Type}

open Play in
theorem Code.keepsApart_run {α : Type} {host : Host σ Glimpse} (hread : ∀ h, KeepsApart (host.read h))
    (hwrite : ∀ h x, KeepsApart (host.write h x)) {c : Code σ Glimpse α} (hc : c.CallsRegistry) :
    KeepsApart (c.glimpsing.run (perform host)) := by
  induction c with
  | pure a => exact .pure a
  | fail f => exact .throw trivial
  | look next ih => exact .get fun w => ih w (hc w)
  | keep s next ih => exact .bind (.modify fun _ hw => hw) fun _ => ih hc
  | mark m next ih => exact ih hc
  | ask seat op next ih =>
    obtain ⟨hop, hc⟩ := hc
    intro w hw
    let w' : World σ Glimpse := w.noting (.marked ⟨w.vars, op.restoring⟩)
    have hmark : .marked ⟨(w'.turnTo seat).vars, op.restoring⟩ ∈ (w'.turnTo seat).journal := by
      rw [w'.vars_turnTo, w'.journal_turnTo]
      exact List.mem_cons_self ..
    change wp ((Code.ask seat op fun a => (next a).glimpsing).run (perform host)) _ _ w'
    rw [Code.wp_run_ask, wp_onSeat]
    exact wp_mono (wp_perform_registry hread hwrite hop ((hw.marking op.restoring).turnTo seat) hmark)
      (fun a _ h => ih (.ok a) (hc _) (h.turnTo _)) fun f _ h => ih (.error f) (hc _) (h.turnTo _)

open Play in
theorem Behaviour.keepsApart {b : Behaviour σ Glimpse} (hb : b.CallsRegistry) (patience depth : Nat) :
    (∀ h, KeepsApart ((Host.ofBehaviour b.glimpsing patience depth).read h)) ∧
      ∀ h x, KeepsApart ((Host.ofBehaviour b.glimpsing patience depth).write h x) := by
  induction depth with
  | zero => exact ⟨fun _ => .throw trivial, fun _ _ => .throw trivial⟩
  | succ depth ih =>
    exact ⟨fun h => Code.keepsApart_run ih.1 ih.2 (hb.read h), fun h x => Code.keepsApart_run ih.1 ih.2 (hb.write h x)⟩

/-- What one namespace is good for: whatever is exported is a variable of the script alone, is read as it was exported,
and goes back in without a fault or a setter. -/
theorem Variables.OneNamespace.exports {μ : Type} {host : Host σ μ} {w : World σ μ} (h : w.vars.OneNamespace) :
    (∀ e ∈ w.vars.exported, w.vars.host.has e.1 = false ∧
      ∃ v, Play.getVariable host e.1 w = .ok v (w.noting (.read e.1)) ∧ v.toNative = e.2) ∧
      ∃ line, Play.importVariables host (.map w.vars.exported) w =
        .ok () ((w.withScript (w.vars.script.putAll w.vars.restored)).noting (.logged line)) := by
  refine ⟨fun e he => ?_, _, run_importVariables_exported fun name hname => h.free hname⟩
  obtain ⟨⟨name, v⟩, hmem, rfl⟩ := List.mem_map.mp he
  have hv : w.vars.script.get? name = some v := Table.mem_sorted.mp hmem
  have hfree : w.vars.host.get? name = none := h.free (Table.mem_names_sorted.mp (List.mem_map_of_mem hmem))
  exact ⟨by rw [Table.has, hfree]; rfl, v, Play.run_getVariable_free hfree hv, rfl⟩

/-- Script and host variables share one namespace, in every registry that any code reaches from an empty one by calls
to the registry, with getters and setters that call it too, as long as nothing that is bound is restored. -/
theorem Behaviour.one_namespace (b : Behaviour σ Glimpse) (patience depth : Nat) (c : Code σ Glimpse Unit)
    (hb : b.CallsRegistry) (hc : c.CallsRegistry) {w : World σ Glimpse} (hempty : w.vars = {}) (hfresh : w.journal = []) :
    let host := Host.ofBehaviour b.glimpsing patience depth
    let w' := after (c.glimpsing.run (Play.perform host)) w
    (∀ g, .marked g ∈ w'.journal → g.Apart) →
      (∀ vs, (vs = w'.vars ∨ ∃ g, .marked g ∈ w'.journal ∧ vs = g.vars) → vs.OneNamespace) ∧
      (∀ e ∈ w'.vars.exported, w'.vars.host.has e.1 = false ∧
        ∃ v, Play.getVariable host e.1 w' = .ok v (w'.noting (.read e.1)) ∧ v.toNative = e.2) ∧
      ∃ line, Play.importVariables host (.map w'.vars.exported) w' =
        .ok () ((w'.withScript (w'.vars.script.putAll w'.vars.restored)).noting (.logged line)) := by
  intro host w' happart
  obtain ⟨hread, hwrite⟩ := b.keepsApart hb patience depth
  have hw : w.NamesApart := fun _ => ⟨hempty ▸ .empty, by rw [hfresh]; nofun⟩
  have hw' : w'.NamesApart :=
    wp_after (wp_mono (Code.keepsApart_run hread hwrite hc hw) (fun _ _ h => h) fun _ _ h => h.1)
  obtain ⟨hvars, hseen⟩ := hw' happart
  refine ⟨?_, hvars.exports⟩
  rintro vs (rfl | ⟨g, hg, rfl⟩)
  · exact hvars
  · exact hseen g hg

/-- The records of a journal, looked through one by one. -/
theorem apart_of_all {journal : List (Entry Glimpse)} (h : (journal.all fun e => match e with
    | .marked g => g.restoring.all fun e => (g.vars.host.get? e.1).isNone
    | _ => true) = true) : ∀ g, .marked g ∈ journal → g.Apart := by
  intro g hg e he
  have := List.all_eq_true.mp (List.all_eq_true.mp h _ hg) e he
  exact Option.isNone_iff_eq_none.mp this

/-- The setter of one name binds another one. -/
def Behaviour.bindsOn : Behaviour Unit Glimpse :=
  { Behaviour.silent with write := fun _ _ => .ask 0 (.bindVariable "luck" ⟨1, some 1, ""⟩) fun _ => .pure () }

/-- Restores, shadows what was restored, and writes through what it has bound. -/
def shadowing : Code Unit Glimpse Unit :=
  .ask 0 (.restoreVariables [("gold", .null), ("luck", .null), ("mood", .string "calm")]) fun _ =>
    .ask 0 (.bindVariable "gold" ⟨0, some 0, ""⟩) fun _ => .ask 0 (.setVariable "gold" (.boolean true)) fun _ => .pure ()

theorem Behaviour.one_namespace_shadowing :
    let w := after (shadowing.glimpsing.run (Play.perform (.ofBehaviour Behaviour.bindsOn.glimpsing 0 2))) { host := () }
    (∀ g, .marked g ∈ w.journal → g.Apart) ∧ w.vars.host.names = ["gold", "luck"] ∧
      w.vars.exported.map Prod.fst = ["mood"] ∧ w.vars.OneNamespace := by
  intro w
  have happart : ∀ g, .marked g ∈ w.journal → g.Apart := apart_of_all (by decide +kernel)
  have hb : Behaviour.bindsOn.CallsRegistry := ⟨fun _ => trivial, fun _ _ => ⟨rfl, fun _ => trivial⟩⟩
  have hc : shadowing.CallsRegistry := ⟨rfl, fun _ => ⟨rfl, fun _ => ⟨rfl, fun _ => trivial⟩⟩⟩
  exact ⟨happart, by decide +kernel, by decide +kernel, (Behaviour.one_namespace _ 0 2 _ hb hc rfl rfl happart).1 _ (.inl rfl)⟩

/-- Restoring a name that is bound leaves it in both places: it is exported though the host has it, and the export
cannot be imported. -/
theorem stale_shadow :
    let host : Host Unit Unit := .ofBehaviour Behaviour.silent 0 1
    let w := after (Play.perform host (.restoreVariables [("gold", .string "old")]))
      (after (Play.perform host (.bindVariable "gold" ⟨0, none, ""⟩)) { host := () })
    ¬ w.vars.OneNamespace ∧ w.vars.exported = [("gold", .string "old")] ∧ w.vars.host.has "gold" ∧
      ∃ w', Play.importVariables host (.map w.vars.exported) w = .error (.readOnly "gold") w' := by
  intro host w
  have hentries : w.vars.script.entries = [("gold", .string "old")] := rfl
  have hexported : w.vars.exported = [("gold", .string "old")] := by
    rw [Variables.exported, Table.sorted, hentries, List.mergeSort_singleton]
    rfl
  refine ⟨fun h => ?_, hexported, rfl, ?_⟩
  · rcases h "gold" with h | h <;> cases h
  · rw [hexported]
    exact ⟨_, rfl⟩

end
end Parley
