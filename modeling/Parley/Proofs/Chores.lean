import Parley.Proofs.Numbering
import Parley.Proofs.Upkeep

/-! # Calls that are not about a session

They leave every runner where it is, and bring into the table only the nodes of the sources that they are given, so
they uphold all that there is an `Upkeep` for, as long as those nodes are as they should be (`Operation.Brings`), and
`Housekeeping` does for those that are not about a bus either. What the others do to an invariant is left to whoever
states it. -/

namespace Parley
variable {σ μ : Type}

/-- A source whose nodes, if it can be read at all, all have `N`. -/
def Yields (N : Node → Prop) (source : String) : Prop :=
  ∀ s, (parseScript source).result = .ok s → ∀ n ∈ s.nodes, N n

namespace Operation

/-- Any nodes that come into the table have `N`. -/
def Brings (N : Node → Prop) : Operation → Prop
  | .register source | .load source _ => Yields N source
  | .loadFile files _ path => ∀ source, files.readText path = .ok source → Yields N source
  | .loadFolder files _ _ _ => ∀ path source, files.readText path = .ok source → Yields N source
  | _ => True

theorem brings_true (op : Operation) : op.Brings fun _ => True := by
  cases op with
  | register | load => exact fun _ _ _ _ => trivial
  | loadFile => exact fun _ _ _ _ _ _ => trivial
  | loadFolder => exact fun _ _ _ _ _ _ _ => trivial
  | _ => trivial

/-- Starts, moves, ends or looks ahead. -/
def aboutSession : Operation → Bool
  | .start .. | .resume | .select _ | .jump _ | .finish _ | .nextContent => true
  | _ => false

/-- Publishes, or changes who is told what. -/
def aboutBus : Operation → Bool
  | .subscribe .. | .unsubscribe .. | .clearBus _ | .consume | .publish .. => true
  | _ => false

end Operation

namespace Play
variable {host : Host σ μ} {N : Node → Prop} {I : World σ μ → Prop} {E : Fault → Prop}

section
variable (hk : Housekeeping host N I E)
include hk

/-! ### Variables and functions -/

theorem upholds_convertEntries (entries : List (String × Native)) :
    Upholds I E (convertEntries entries : Play σ μ (List (String × Value))) := by
  induction entries with
  | nil => exact .pure _
  | cons entry rest ih => exact (upholds_convert hk _).bind fun _ => ih.bind fun _ => .pure _

theorem upholds_setVariables (values : List (String × Value)) : Upholds I E (setVariables host values) := by
  induction values with
  | nil => exact .pure _
  | cons entry rest ih => exact (upholds_setVariable hk _ _).bind fun _ => ih

theorem upholds_requireWritable (names : List String) :
    Upholds I E (requireWritable names : Play σ μ Unit) := by
  refine .get fun w => ?_
  dsimp only
  split
  · exact .pure _
  · exact (upholds_log hk ..).bind fun _ => .throw (hk.own _ rfl)

theorem upholds_importVariables (data : Native) : Upholds I E (importVariables host data) := by
  unfold importVariables
  split
  · exact (upholds_log hk ..).bind fun _ => .throw (hk.own _ rfl)
  · refine (upholds_convertEntries hk _).bind fun values => (upholds_requireWritable hk _).bind fun _ => ?_
    exact (upholds_setVariables hk values).bind fun _ => upholds_log hk ..

theorem upholds_bindVariable (name : String) (v : HostVariable) :
    Upholds I E (bindVariable name v : Play σ μ Unit) := by
  have hbind : Upholds I E (modifyVariables fun vs => { vs with host := vs.host.put name v } : Play σ μ Unit) :=
    upholds_modifyVariables hk _
  have hlog (message : String) : Upholds I E (log .warning .vars message) := upholds_log hk ..
  refine .get fun w => .ite ?_ (.ite ((hlog _).bind fun _ => hbind) hbind)
  refine (hlog _).bind fun _ => (upholds_modifyVariables hk _).bind fun _ => .ite ?_ hbind
  exact (hlog _).bind fun _ => hbind

theorem upholds_addFunction (name : String) (entry : FunctionEntry) :
    Upholds I E (addFunction name entry : Play σ μ Unit) := by
  have hadd : Upholds I E (modify fun w => { w with functions := w.functions.put name entry } : Play σ μ Unit) :=
    .modify fun _ hw => hk.withFunctions hw _
  exact .get fun w => .ite ((upholds_log hk ..).bind fun _ => hadd) hadd

theorem upholds_addHostFunction (name : String) (body : FunctionBody) (description documentation : String) :
    Upholds I E (addHostFunction name body description documentation : Play σ μ Unit) := by
  unfold addHostFunction
  cases body with
  | unchecked => exact (upholds_log hk ..).bind fun _ => upholds_addFunction hk _ _
  | checked | raw | builtin => exact upholds_addFunction hk _ _

theorem upholds_convertAll (args : List Native) : Upholds I E (convertAll args : Play σ μ (List Value)) := by
  induction args with
  | nil => exact .pure _
  | cons v rest ih => exact (upholds_convert hk v).bind fun _ => ih.bind fun _ => .pure _

theorem upholds_configure (name : String) (v : Json) : Upholds I E (configure name v : Play σ μ Unit) := by
  refine .get fun w => ?_
  split
  · exact .modify fun _ hw => hk.configured hw _
  · exact .throw (hk.own _ (Fault.isInternal_ofSetting _))

/-! ### Commands and texts -/

theorem upholds_executeAll (items : List Content) : Upholds I E (executeAll host items) := by
  induction items with
  | nil => exact .pure _
  | cons item rest ih =>
    cases item with
    | command c pos => exact (upholds_execute hk c pos.line).bind fun _ => ih.bind fun _ => .pure _
    | line | choice | condition => exact upholds_typeFail hk _

theorem upholds_renderItems (items : List Content) : Upholds I E (renderItems host items) := by
  induction items with
  | nil => exact .pure _
  | cons item rest ih =>
    have hrest (text : String) : Upholds I E (do return text :: (← renderItems host rest)) :=
      ih.bind fun _ => .pure _
    cases item with
    | line l => exact (upholds_render hk _).bind hrest
    | choice c => exact (upholds_render hk _).bind hrest
    | condition | command => exact (Upholds.throw (hk.own _ (by simp [Fault.isInternal]))).bind hrest

/-! ### Scripts -/

omit hk in
theorem upholds_getNode (hk : Recording I E) (name : String) : Upholds I E (getNode name : Play σ μ Node) := by
  refine .get fun w => ?_
  split
  · exact .pure _
  · exact upholds_failOn hk _ rfl

theorem upholds_addNodes {nodes : List Node} (hn : ∀ n ∈ nodes, N n) :
    Upholds I E (addNodes nodes : Play σ μ Unit) := by
  induction nodes with
  | nil => exact .pure _
  | cons n rest ih =>
    obtain ⟨hn, hrest⟩ := List.forall_mem_cons.1 hn
    have hput : Upholds I E (modify fun w => { w with nodes := w.nodes.put n.name n } : Play σ μ Unit) :=
      .modify fun _ hw => hk.putNode hw n hn
    have hadd := hput.bind fun _ => ih hrest
    exact .get fun w => .ite ((upholds_log hk ..).bind fun _ => hadd) hadd

theorem upholds_register {s : Script} (hs : ∀ n ∈ s.nodes, N n) :
    Upholds I E (register s : Play σ μ (List String)) := by
  have hadd := (upholds_addNodes hk hs).bind fun _ => .pure s.names
  refine .get fun w => .ite ?_ hadd
  split
  · exact (upholds_failOn hk _ rfl).bind fun _ => hadd
  · exact (Upholds.pure ()).bind fun _ => hadd

theorem upholds_parse (source : String) : Upholds I E (parse source : Play σ μ Script) := by
  have hrecords (records : List LogRecord) :
      Upholds I E (records.forM fun r => note (.logged r) : Play σ μ Unit) := by
    induction records with
    | nil => exact .pure _
    | cons r rest ih => exact (upholds_log hk r.level r.channel r.message).bind fun _ => ih
  refine (hrecords _).bind fun _ => .ofExcept fun f hf => hk.own f ?_
  cases hr : (parseScript source).result <;> rw [hr] at hf <;> cases hf
  rfl

omit hk in
theorem parse_ok {source : String} {s : Script} {w w' : World σ μ} (h : parse source w = .ok s w') :
    (parseScript source).result = .ok s := by
  obtain ⟨_, v, -, h⟩ := bind_ok h
  cases hp : (parseScript source).result with
  | error e => rw [hp] at h; cases h
  | ok s' => rw [hp] at h; cases h; rfl

theorem upholds_parseAndRegister {source : String} (hn : Yields N source) :
    Upholds I E (parseAndRegister source : Play σ μ (List String)) := by
  intro w hw
  have hparse := upholds_parse hk source hw
  rw [parseAndRegister, wp_bind]
  unfold wp at hparse ⊢
  cases hp : parse source w with
  | error f v => rw [hp] at hparse; exact hparse
  | ok s v => rw [hp] at hparse; exact upholds_register hk (hn s (parse_ok hp)) hparse

theorem upholds_loadText {source : String} (hn : Yields N source) (origin : String) :
    Upholds I E (loadText source origin : Play σ μ LoadReport) := by
  refine (Upholds.tryCatch (F := E) ?_ fun f hf => ?_).bind fun r => ?_
  · exact (upholds_parseAndRegister hk hn).bind fun _ => (upholds_log hk ..).bind fun _ => .pure _
  · exact .ite ((upholds_log hk ..).bind fun _ => .pure _) ((Upholds.throw hf).bind fun _ => .pure _)
  · cases r <;> exact .pure _

theorem upholds_loadFile {files : FileTree} {path : FilePath}
    (hn : ∀ source, files.readText path = .ok source → Yields N source) (root : String) :
    Upholds I E (loadFile files root path : Play σ μ LoadReport) := by
  unfold loadFile
  dsimp only
  split
  · next source hs => exact upholds_loadText hk (hn source hs) _
  · exact .throw (hk.own _ rfl)
  · exact (upholds_log hk ..).bind fun _ => .pure _

theorem upholds_loadFiles {files : FileTree}
    (hn : ∀ path source, files.readText path = .ok source → Yields N source) (root : String)
    (paths : List FilePath) :
    Upholds I E (loadFiles files root paths : Play σ μ LoadReport) := by
  induction paths with
  | nil => exact .pure _
  | cons path rest ih => exact (upholds_loadFile hk (hn path) root).bind fun _ => ih.bind fun _ => .pure _

theorem upholds_loadFolder {files : FileTree}
    (hn : ∀ path source, files.readText path = .ok source → Yields N source) (root : String)
    (folder : FilePath) (config : Option Config) :
    Upholds I E (loadFolder files root folder config : Play σ μ LoadReport) := by
  have hload : Upholds I E (do
      if files.isFolder folder then
        let suffixes := (config.getD (← get).config).extensions
        let report ← loadFiles files root (files.filesBelow folder suffixes)
        log .info .loader (s!"Loaded {report.loaded.length} scripts ({report.nodes.length} nodes) " ++
          s!"from {folder.shown root}, {report.failures.length} failed")
        return report
      else
        log .warning .loader s!"Script directory not found: {folder.shown root}"
        return {} : Play σ μ LoadReport) := by
    refine .ite (.get fun w => (upholds_loadFiles hk hn _ _).bind fun _ => ?_) ?_ <;>
      exact (upholds_log hk ..).bind fun _ => .pure _
  unfold loadFolder
  dsimp only
  split
  · exact (Upholds.throw (hk.own _ rfl)).bind fun _ => hload
  · exact hload

/-! ### All operations -/

/-- What calls about a session or a bus uphold, all calls do. -/
theorem upholds_perform_of {op : Operation} (hop : op.Brings N)
    (hother : op.aboutSession = true ∨ op.aboutBus = true → Upholds I E (perform host op)) :
    Upholds I E (perform host op) := by
  have hdone {x : Play σ μ Unit} (hx : Upholds I E x) : Upholds I E (do x; return Answer.done) :=
    hx.bind fun _ => .pure _
  have hanswer {α : Type} {x : Play σ μ α} {f : α → Answer} (hx : Upholds I E x) :
      Upholds I E (do return f (← x)) :=
    hx.bind fun _ => .pure _
  cases op with
  | start | resume | select | jump | finish | nextContent => exact hother (.inl rfl)
  | subscribe | unsubscribe | clearBus | consume | publish => exact hother (.inr rfl)
  | choiceTexts => exact hanswer (.runner fun _ => upholds_renderAll hk _)
  | configure name value => exact hdone (upholds_configure hk name value)
  | parse source => exact hanswer (upholds_parse hk source)
  | register source => exact hanswer (upholds_parseAndRegister hk hop)
  | load source origin => exact hanswer (upholds_loadText hk hop origin)
  | loadFile files root path => exact hanswer (upholds_loadFile hk hop root)
  | loadFolder files root folder config => exact hanswer (upholds_loadFolder hk hop root folder config)
  | getNode name => exact hanswer (upholds_getNode hk name)
  | clearNodes => exact hdone (.modify fun _ hw => hk.noNodes hw)
  | setVariable name value => exact hdone ((upholds_convert hk value).bind fun _ => upholds_setVariable hk _ _)
  | getVariable name => exact hanswer (upholds_getVariable hk name)
  | importVariables data => exact hdone (upholds_importVariables hk data)
  | restoreVariables | clearVariables | unbindVariable => exact hdone (upholds_modifyVariables hk _)
  | bindVariable name v => exact hdone (upholds_bindVariable hk name v)
  | addFunction name body description documentation =>
    exact hdone (upholds_addHostFunction hk name body description documentation)
  | removeFunction name => exact hdone (.modify fun _ hw => hk.withFunctions hw _)
  | callFunction name args =>
    exact (upholds_convertAll hk args).bind fun _ => hanswer (upholds_callFunction hk name _)
  | evaluate e => exact hanswer (upholds_evaluate hk e)
  | test what e => exact hanswer (upholds_test hk what e)
  | waitDuration e line => exact hanswer (upholds_waitDuration hk e line)
  | execute items => exact hanswer (upholds_executeAll hk items)
  | render items => exact hanswer (upholds_renderItems hk items)
  | countHandlers kind => exact hanswer (.get fun _ => .pure _)

end

/-- What calls about a session uphold, all calls do. -/
theorem upholds_perform (hk : Upkeep host N I E) {op : Operation} (hop : op.Brings N)
    (hsession : op.aboutSession = true → Upholds I E (perform host op)) : Upholds I E (perform host op) := by
  have hdone {x : Play σ μ Unit} (hx : Upholds I E x) : Upholds I E (do x; return Answer.done) :=
    hx.bind fun _ => .pure _
  refine upholds_perform_of hk hop fun hother => hother.elim hsession fun hbus => ?_
  cases op with
  | subscribe | unsubscribe | clearBus => exact hdone (upholds_modifyBus hk.withBus _)
  | consume => exact hdone (upholds_modifyDispatch hk.withBus _)
  | publish kind data => exact (upholds_publish hk fun hw => hk.custom hw kind data).bind fun _ => .pure _
  | _ => cases hbus

end Play
end Parley
