import Parley.Proofs.Finishing
import Parley.Proofs.Registration

/-! # Loading sources one after another

A source that cannot be taken in is reported and leaves no trace in the node table, and every other one is taken in
whole. That no load fails rests on what the parser can come to (`parseScript_faults`), and the rest on what registering
writes (`Play.register_run`). -/

namespace Parley

/-- Why a source is kept out of a table. -/
inductive KeptOut (overrides : Bool) (t : Table Node) (source : String) : Fault → Prop
  | lexing {e : LexError} (h : (parseScript source).result = .error (.lex e)) :
    KeptOut overrides t source (.source (.lex e))
  | parsing {e : ParseError} (h : (parseScript source).result = .error (.parse e)) :
    KeptOut overrides t source (.source (.parse e))
  | registering {s : Script} {name : String} (h : (parseScript source).result = .ok s) (hover : overrides = false)
    (htaken : takenName? t.names s.names = some name) : KeptOut overrides t source (.duplicateNode name)

/-- Sources with their origins, loaded one after another: the reports, the scripts that are taken in, and the table at
the end. -/
inductive LoadedInTurn (overrides : Bool) :
    Table Node → List (String × String) → List LoadReport → List Script → Table Node → Prop
  | nil {t : Table Node} : LoadedInTurn overrides t [] [] [] t
  | taken {t t' : Table Node} {source origin : String} {s : Script} {sources : List (String × String)}
    {reports : List LoadReport} {scripts : List Script} (h : (parseScript source).result = .ok s)
    (hfresh : overrides = false → (t.names ++ s.names).Nodup)
    (hrest : LoadedInTurn overrides (t.putNodes s.nodes) sources reports scripts t') :
    LoadedInTurn overrides t ((source, origin) :: sources) (⟨[origin], s.names, []⟩ :: reports) (s :: scripts) t'
  | keptOut {t t' : Table Node} {source origin : String} {f : Fault} {sources : List (String × String)}
    {reports : List LoadReport} {scripts : List Script} (h : KeptOut overrides t source f)
    (hrest : LoadedInTurn overrides t sources reports scripts t') :
    LoadedInTurn overrides t ((source, origin) :: sources) (⟨[], [], [(origin, f)]⟩ :: reports) scripts t'

namespace Play
variable {σ μ : Type}

/-- Loads sources with their origins, one after another. -/
def loadTexts : List (String × String) → Play σ μ (List LoadReport)
  | [] => return []
  | (source, origin) :: rest => do
    let report ← loadText source origin
    return report :: (← loadTexts rest)

def registerAll (scripts : List Script) : Play σ μ Unit := scripts.forM fun s => discard (register s)

variable {source : String} {w v : World σ μ}

theorem loadText_of_ok {names : List String} (h : parseAndRegister source w = .ok names v) (origin : String) :
    ∃ journal, loadText source origin w = .ok ⟨[origin], names, []⟩ { v with journal } := by
  refine ⟨.logged ⟨.debug, .loader, s!"Loaded {names.length} nodes from {origin}"⟩ :: v.journal, ?_⟩
  unfold loadText
  change EStateM.bind (EStateM.tryCatch (parseAndRegister source >>= _) _) _ w = _
  unfold EStateM.bind EStateM.tryCatch
  rw [run_bind_ok h]
  rfl

theorem loadText_of_error {f : Fault} (h : parseAndRegister source w = .error f v) (hf : f.isOfScript = true)
    (origin : String) : ∃ journal, loadText source origin w = .ok ⟨[], [], [(origin, f)]⟩ { v with journal } := by
  refine ⟨.logged ⟨.error, .loader, s!"Failed to load {origin}: {f.message}"⟩ :: v.journal, ?_⟩
  unfold loadText
  change EStateM.bind (EStateM.tryCatch (parseAndRegister source >>= _) _) _ w = _
  unfold EStateM.bind EStateM.tryCatch
  rw [run_bind_error h]
  dsimp only
  rw [hf]
  rfl

/-- A source is taken in as a whole, or not at all. -/
theorem parseAndRegister_run (source : String) (w : World σ μ) : ∃ journal,
    (∃ s, (parseScript source).result = .ok s ∧ (w.config.overrides = false → (w.nodes.names ++ s.names).Nodup) ∧
      parseAndRegister source w = .ok s.names { w with nodes := w.nodes.putNodes s.nodes, journal }) ∨
    ∃ f, KeptOut w.config.overrides w.nodes source f ∧ f.isOfScript = true ∧
      parseAndRegister source w = .error f { w with journal } := by
  obtain ⟨parsed, hparse⟩ := parse_run source w
  cases hresult : (parseScript source).result with
  | error e =>
    rw [hresult] at hparse
    have hload : parseAndRegister source w = .error (.source e) { w with journal := parsed } := run_bind_error hparse
    rcases parseScript_faults hresult with ⟨lexed, rfl⟩ | ⟨line, column, expected, found, rfl⟩
    · exact ⟨parsed, .inr ⟨_, .lexing hresult, rfl, hload⟩⟩
    · exact ⟨parsed, .inr ⟨_, .parsing hresult, rfl, hload⟩⟩
  | ok s =>
    rw [hresult] at hparse
    obtain ⟨journal, ⟨hregister, hfresh⟩ | ⟨name, hregister, hover, htaken⟩⟩ :=
      register_run s { w with journal := parsed }
    · exact ⟨journal, .inl ⟨s, rfl, hfresh, (run_bind_ok (f := register) hparse).trans hregister⟩⟩
    · have hload := (run_bind_ok (f := register) hparse).trans hregister
      exact ⟨journal, .inr ⟨_, .registering hresult hover htaken, rfl, hload⟩⟩

/-- A load is done whatever the source is: it takes in the whole script, or nothing. -/
theorem loadText_run (source origin : String) (w : World σ μ) : ∃ journal,
    (∃ s, (parseScript source).result = .ok s ∧ (w.config.overrides = false → (w.nodes.names ++ s.names).Nodup) ∧
      loadText source origin w = .ok ⟨[origin], s.names, []⟩ { w with nodes := w.nodes.putNodes s.nodes, journal }) ∨
    ∃ f, KeptOut w.config.overrides w.nodes source f ∧
      loadText source origin w = .ok ⟨[], [], [(origin, f)]⟩ { w with journal } := by
  obtain ⟨_, ⟨s, hs, hfresh, hrun⟩ | ⟨f, hf, hscript, hrun⟩⟩ := parseAndRegister_run source w
  · obtain ⟨journal, hload⟩ := loadText_of_ok hrun origin
    exact ⟨journal, .inl ⟨s, hs, hfresh, hload⟩⟩
  · obtain ⟨journal, hload⟩ := loadText_of_error hrun hscript origin
    exact ⟨journal, .inr ⟨f, hf, hload⟩⟩

theorem loadTexts_run (sources : List (String × String)) (w : World σ μ) : ∃ reports scripts t journal,
    loadTexts sources w = .ok reports { w with nodes := t, journal } ∧
      LoadedInTurn w.config.overrides w.nodes sources reports scripts t := by
  induction sources generalizing w with
  | nil => exact ⟨[], [], w.nodes, w.journal, rfl, .nil⟩
  | cons source sources ih =>
    obtain ⟨source, origin⟩ := source
    have hcons {report : LoadReport} {v v' : World σ μ} {reports : List LoadReport}
        (hload : loadText source origin w = .ok report v) (hrest : loadTexts sources v = .ok reports v') :
        loadTexts ((source, origin) :: sources) w = .ok (report :: reports) v' := by
      unfold loadTexts
      rw [run_bind_ok hload, run_bind_ok hrest]
      rfl
    obtain ⟨journal, ⟨s, hs, hfresh, hload⟩ | ⟨f, hf, hload⟩⟩ := loadText_run source origin w
    · obtain ⟨reports, scripts, t, journal', hrest, hturn⟩ := ih { w with nodes := w.nodes.putNodes s.nodes, journal }
      exact ⟨_, s :: scripts, t, journal', hcons hload hrest, .taken hs hfresh hturn⟩
    · obtain ⟨reports, scripts, t, journal', hrest, hturn⟩ := ih { w with journal }
      exact ⟨_, scripts, t, journal', hcons hload hrest, .keptOut hf hturn⟩

end Play

namespace LoadedInTurn
variable {overrides : Bool} {t t' : Table Node} {sources : List (String × String)} {reports : List LoadReport}
  {scripts : List Script}

/-- The table is that of the scripts taken in, and of nothing else. -/
theorem nodes (h : LoadedInTurn overrides t sources reports scripts t') :
    t' = t.putNodes (scripts.flatMap Script.nodes) := by
  induction h with
  | nil => rfl
  | taken _ _ _ ih => rw [ih, List.flatMap_cons, Table.putNodes_append]
  | keptOut _ _ ih => exact ih

theorem nodup (h : LoadedInTurn overrides t sources reports scripts t') (hover : overrides = false) :
    (t.names ++ scripts.flatMap Script.names).Nodup := by
  induction h with
  | @nil t => simpa using t.nodup_names
  | @taken t _ _ _ s _ _ scripts _ hfresh _ ih =>
    have hfresh := hfresh hover
    have hnames : (t.putNodes s.nodes).names = t.names ++ s.names := by
      rw [Table.names_putNodes]
      exact eraseDups_of_nodup hfresh
    rwa [hnames, List.append_assoc] at ih
  | keptOut _ _ ih => exact ih

theorem registerAll {σ μ : Type} (h : LoadedInTurn overrides t sources reports scripts t') (w : World σ μ)
    (hnodes : w.nodes = t) (hover : w.config.overrides = overrides) :
    ∃ v, Play.registerAll scripts w = .ok () v ∧ v.nodes = t' := by
  induction h generalizing w with
  | nil => exact ⟨w, rfl, hnodes⟩
  | @taken t t' _ _ s _ _ scripts _ hfresh _ ih =>
    subst hnodes hover
    obtain ⟨journal, ⟨hregister, -⟩ | ⟨name, -, hover, htaken⟩⟩ := Play.register_run s w
    · obtain ⟨v, hrest, hv⟩ := ih { w with nodes := w.nodes.putNodes s.nodes, journal } rfl rfl
      refine ⟨v, ?_, hv⟩
      have hone : (discard (Play.register s) : Play σ μ PUnit) w =
          .ok () { w with nodes := w.nodes.putNodes s.nodes, journal } := by
        change EStateM.map _ _ w = _
        unfold EStateM.map
        rw [hregister]
      exact (run_bind_ok hone).trans hrest
    · rw [(takenName?_eq_none_iff w.nodes.nodup_names).2 (hfresh hover)] at htaken
      cases htaken
  | keptOut _ _ ih => exact ih w hnodes hover

end LoadedInTurn

/-- Whatever the sources are, loading them one after another fails nowhere, and each is taken in whole or kept out
whole. What is in the table at the end is what registering the scripts taken in leaves there: under each name its last
definition, the names as they first came. Where names may not be taken twice, nodes are only added behind the others.
The parser itself comes to nothing but scripts, lexical faults and violations of the grammar. -/
theorem loads_isolated {σ μ : Type} :
    (∀ source e, (parseScript source).result = .error e → (∃ lexed, e = .lex lexed) ∨
      ∃ line column expected found, e = .parse (.unexpected line column expected found)) ∧
    ∀ (w : World σ μ) (sources : List (String × String)), ∃ reports scripts w',
      Play.loadTexts sources w = .ok reports w' ∧
      LoadedInTurn w.config.overrides w.nodes sources reports scripts w'.nodes ∧
      (∃ v, Play.registerAll scripts w = .ok () v ∧ v.nodes = w'.nodes) ∧
      (∀ name, w'.nodes.get? name =
        ((scripts.flatMap Script.nodes).reverse.find? fun n => n.name == name).or (w.nodes.get? name)) ∧
      w'.nodes.names = (w.nodes.names ++ scripts.flatMap Script.names).eraseDups ∧
      (w.config.overrides = false → w'.nodes.entries =
        w.nodes.entries ++ (scripts.flatMap Script.nodes).map fun n => (n.name, n)) := by
  refine ⟨fun _ _ => parseScript_faults, fun w sources => ?_⟩
  obtain ⟨reports, scripts, t, journal, hrun, hturn⟩ := Play.loadTexts_run sources w
  have hnodes := hturn.nodes
  have hnames : (scripts.flatMap Script.nodes).map Node.name = scripts.flatMap Script.names := by
    rw [List.map_flatMap]
    rfl
  refine ⟨reports, scripts, _, hrun, hturn, hturn.registerAll w rfl rfl, fun name => ?_, ?_, fun hover => ?_⟩
  · rw [hnodes, Table.get?_putNodes]
  · rw [hnodes, Table.names_putNodes, hnames]
  · rw [hnodes, Table.entries_putNodes]
    rw [hnames]
    exact hturn.nodup hover

end Parley
