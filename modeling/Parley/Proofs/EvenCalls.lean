import Parley.Proofs.EvenTexts
import Parley.Proofs.Calls
import Parley.Proofs.Parallel

/-! # Calls in both runs

Everything that a runner does comes down to evaluating, publishing, rendering and moves that do not look at how strict
texts are, and so do the calls around it (`Evenly.perform`). -/

namespace Parley
variable {σ : Type}

theorem Runner.skip_settings (count : Nat) (r : Runner) (own : Option Config) :
    { r with config := own }.skip count = { r.skip count with config := own } := by
  rw [Runner.skip_eq, Runner.skip_eq]

namespace Evenly
variable {host : Host σ Fault} {E : Fault → Prop}

theorem skip (count : Nat) : Evenly E (Play.modifyRunner fun r => r.skip count : Play σ Fault Unit) :=
  .modifyRunner (Runner.skip_settings count)

theorem getNode (name : String) : Evenly E (Play.getNode name : Play σ Fault Node) := by
  refine .get (fun w w' h => by rw [h.nodes]) fun w => ?_
  split
  · exact .pure _
  · exact failOn ..

theorem failLimit {α : Type} (limit : Nat) : Evenly E (Play.failLimit limit : Play σ Fault α) :=
  .runner (fun _ _ => rfl) fun _ => (ofExcept _).bind fun _ => failOn ..

theorem loopFuel (host : Host σ Fault) : Evenly E (Play.loopFuel host) := .runnerConfig (fun _ => rfl) fun _ => .pure _

section
variable (hh : host.Evenly)
include hh

/-! ### Stepping -/

theorem complete : Evenly E (Play.complete host) :=
  .runner (fun _ _ => rfl) fun _ => (modifyRunner fun _ _ => rfl).bind fun _ => (log ..).bind fun _ =>
    (publish hh _).bind fun _ => .pure _

theorem enterNode (n : Node) : Evenly E (Play.enterNode host n) :=
  (modifyRunner fun _ _ => rfl).bind fun _ => (log ..).bind fun _ => (publish hh _).bind fun _ => .pure _

omit hh in
theorem popFrame : Evenly E (Play.popFrame : Play σ Fault Unit) := by
  refine .runner (fun _ _ => rfl) fun r => ?_
  split
  · exact .throw _
  · exact modifyRunner fun _ _ => rfl

theorem frameItems (f : Frame) : Evenly E (Play.frameItems host f) := by
  unfold Play.frameItems
  split
  · exact .pure _
  · exact .pure _
  · refine .runner (fun _ _ => rfl) fun r => ?_
    split
    · exact .pure _
    · exact (selectBranch hh _).bind fun _ => (modifyRunner fun _ _ => rfl).bind fun _ => .pure _

theorem frameItemsIn (memo : Memo) (f : Frame) : Evenly E (Play.frameItemsIn host memo f) := by
  unfold Play.frameItemsIn
  split
  · exact .pure _
  · exact .pure _
  · split
    · exact .pure _
    · exact (selectBranch hh _).bind fun _ => .pure _

theorem openMenu (choices : List Choice) : Evenly Fault.Unresolved (Play.openMenu host choices) :=
  (modifyRunner fun _ _ => rfl).bind fun _ => (renderAll hh _).bind fun _ => (publish hh _).bind fun _ => .pure _

theorem display (l : Line) : Evenly Fault.Unresolved (Play.display host l) :=
  (render hh _).bind fun _ => (publish hh _).bind fun _ => .pure _

theorem scanFrom (fuel steps : Nat) (stack : List Frame) (memo : Memo) :
    Evenly E (Play.scanFrom host fuel steps stack memo) := by
  induction fuel generalizing steps stack memo with
  | zero => exact .throw _
  | succ fuel ih =>
    cases stack with
    | nil => exact .pure _
    | cons f below =>
      refine .runnerConfig (fun _ => rfl) fun c => .ite (failLimit _) ((frameItemsIn hh memo f).bind fun r => ?_)
      dsimp only
      split
      · exact .ite (.pure _) (ih _ _ _)
      · exact ih _ _ _
      · exact (collectChoices hh _).bind fun r => .ite (ih _ _ _) (.pure _)
      · exact .pure _
      · exact .pure _

theorem scan : Evenly E (Play.scan host) :=
  (loopFuel host).bind fun _ => .runner (fun _ _ => rfl) fun _ => scanFrom hh ..

theorem advanceToChoices : Evenly Fault.Unresolved (Play.advanceToChoices host) :=
  (scan hh).bind fun _ => .ite ((modifyRunner fun _ _ => rfl).bind fun _ => openMenu hh _) (.pure _)

theorem obey (c : Command) (line : Int) : Evenly E (Play.obey host c line) := by
  refine (execute hh c line).bind fun target => ?_
  cases target with
  | some name => exact (getNode name).bind fun n => (enterNode hh n).bind fun _ => .pure _
  | none => exact (skip 1).bind fun _ => .pure _

theorem act (item : Content) (following : List Content) : Evenly Fault.Unresolved (Play.act host item following) := by
  cases item with
  | condition c =>
    refine (modifyRunner fun r own => ?_).bind fun _ => .pure _
    rw [Runner.skip_settings]
    rfl
  | choice c =>
    refine (collectChoices hh following).bind fun found => (skip found.2).bind fun _ => .ite ?_ ?_
    · exact (log ..).bind fun _ => .pure _
    · exact (openMenu hh _).bind fun _ => .pure _
  | line l =>
    refine (skip 1).bind fun _ => (display hh l).bind fun _ => .runnerConfig (fun _ => rfl) fun c => ?_
    exact .runner (fun _ _ => rfl) fun r => .ite ((advanceToChoices hh).bind fun _ => .pure _) (.pure _)
  | command c pos =>
    cases c with
    | wait e =>
      refine (waitDuration hh e pos.line).bind fun duration => (modifyRunner fun r own => ?_).bind fun _ => ?_
      · rw [Runner.skip_settings]
      · exact (publish hh _).bind fun _ => .pure _
    | assign | call | jump => exact obey hh _ _

theorem stepOnce : Evenly Fault.Unresolved (Play.stepOnce host) := by
  refine .runner (fun _ _ => rfl) fun r => ?_
  split
  · exact (complete hh).bind fun _ => .pure _
  · refine (frameItems hh _).bind fun items => ?_
    unfold Play.actIn
    split
    · exact .runner (fun _ _ => rfl) fun r =>
        .ite ((complete hh).bind fun _ => .pure _) (popFrame.bind fun _ => .pure _)
    · exact act hh _ _

theorem advance : Evenly Fault.Unresolved (Play.advance host) := by
  have hfrom (fuel steps : Nat) : Evenly Fault.Unresolved (Play.advanceFrom host fuel steps) := by
    induction fuel generalizing steps with
    | zero => exact .throw _
    | succ fuel ih =>
      refine .runner (fun _ _ => rfl) fun r => .ite (.pure _) (.runnerConfig (fun _ => rfl) fun c => ?_)
      exact .ite (failLimit _) ((stepOnce hh).bind fun stop => .ite (.pure _) (ih _))
  exact (modifyRunner fun _ _ => rfl).bind fun _ => (loopFuel host).bind fun _ => hfrom _ _

/-! ### Sessions -/

omit hh in
theorem requireIdleStep (action : String) : Evenly E (Play.requireIdleStep action : Play σ Fault Unit) :=
  .runner (fun _ _ => rfl) fun _ => .ite (failOn ..) (.pure _)

omit hh in
theorem requireRunning : Evenly E (Play.requireRunning : Play σ Fault Unit) :=
  .runner (fun _ _ => rfl) fun _ => .ite (failOn ..) (.pure _)

omit hh in
theorem busyStep {x : Play σ Fault Unit} (hx : Evenly E x) : Evenly E (Play.busyStep x) :=
  (modifyRunner fun _ _ => rfl).bind fun _ =>
    hx.ensuring (fun _ h => h) fun _ _ h => h.moved (f := fun r => { r with busy := false }) fun _ _ => rfl

omit hh in
theorem openSession (n : Node) (index : Nat) : Evenly E (Play.openSession n index : Play σ Fault SessionId) := by
  refine .bind (.modify (fun _ h => h) fun w w' h => ?_) fun _ => .get (fun w w' h => by rw [h.sessions]) fun w => ?_
  · obtain ⟨hshared, hfront, hothers⟩ := h
    exact ⟨hshared, hfront, hothers⟩
  · exact (modifyRunner fun _ _ => rfl).bind fun _ => .pure _

theorem startAt (n : Node) (name : String) (index : Nat) :
    Evenly Fault.Unresolved (Play.startAt host n name index) := by
  refine (modifyRunner fun _ _ => rfl).bind fun _ => busyStep ((openSession n index).bind fun _ => ?_)
  exact (log ..).bind fun _ => (publish hh _).bind fun _ => (publish hh _).bind fun _ => advance hh

theorem start (name : Option String) (index : Int) (force : Bool) :
    Evenly Fault.Unresolved (Play.start host name index force) := by
  refine (requireIdleStep _).bind fun _ => .runner (fun _ _ => rfl) fun r => ?_
  extract_lets running begin
  have hbegin : Evenly Fault.Unresolved (begin ()) := by
    refine .runnerConfig (fun _ => rfl) fun c => (getNode _).bind fun n => ?_
    extract_lets name' go
    have hgo : Evenly Fault.Unresolved (go ()) := .ite ((log ..).bind fun _ => startAt hh ..) (startAt hh ..)
    exact .ite ((failOn ..).bind fun _ => hgo) hgo
  exact .ite ((failOn ..).bind fun _ => hbegin) hbegin

theorem resume : Evenly Fault.Unresolved (Play.resume host) := by
  have hstep := busyStep (advance hh)
  refine (requireIdleStep _).bind fun _ => requireRunning.bind fun _ => .runner (fun _ _ => rfl) fun r => ?_
  exact .ite ((failOn ..).bind fun _ => hstep) hstep

theorem follow (choice : Choice) (i : Nat) : Evenly Fault.Unresolved (Play.follow host choice i) := by
  refine (publish hh _).bind fun _ => .runner (fun _ _ => rfl) fun r => .ite (.pure _) ?_
  refine (modifyRunner fun _ _ => rfl).bind fun _ => .ite ?_ (advance hh)
  exact (modifyRunner fun _ _ => rfl).bind fun _ => advance hh

theorem select (index : Int) : Evenly Fault.Unresolved (Play.select host index) := by
  refine (requireIdleStep _).bind fun _ => .runner (fun _ _ => rfl) fun r => ?_
  extract_lets menu go pick
  have hpick : Evenly Fault.Unresolved (pick ()) := by
    unfold pick
    split
    · exact failOn ..
    · next choice _ => exact busyStep (follow hh choice _)
  exact .ite ((failOn ..).bind fun _ => hpick) hpick

theorem jump (name : String) : Evenly Fault.Unresolved (Play.jump host name) :=
  (requireIdleStep _).bind fun _ => requireRunning.bind fun _ => (getNode name).bind fun n =>
    busyStep ((enterNode hh n).bind fun _ => advance hh)

theorem finish (force : Bool) : Evenly E (Play.finish host force) := by
  refine .runner (fun _ _ => rfl) fun r => ?_
  have hend : Evenly E (if r.session.isNone then
      Play.log .debug .runner "end() called with no dialogue running" else Play.complete host) :=
    .ite (log ..) (complete hh)
  exact .ite ((failOn ..).bind fun _ => hend) hend

theorem nextContent : Evenly E (Play.nextContent host) :=
  .runner (fun _ _ => rfl) fun _ => .ite (.pure _) ((scan hh).bind fun _ => .pure _)

/-! ### The context -/

omit hh in
theorem convertAll (args : List Native) : Evenly E (Play.convertAll args : Play σ Fault (List Value)) := by
  induction args with
  | nil => exact .pure _
  | cons v rest ih => exact (convert v).bind fun _ => ih.bind fun _ => .pure _

theorem importVariables (data : Native) : Evenly E (Play.importVariables host data) := by
  have hconvert (entries : List (String × Native)) :
      Evenly E (Play.convertEntries entries : Play σ Fault (List (String × Value))) := by
    induction entries with
    | nil => exact .pure _
    | cons entry rest ih => exact (convert _).bind fun _ => ih.bind fun _ => .pure _
  have hset (values : List (String × Value)) : Evenly E (Play.setVariables host values) := by
    induction values with
    | nil => exact .pure _
    | cons entry rest ih => exact (setVariable hh _ _).bind fun _ => ih
  have hwritable (names : List String) : Evenly E (Play.requireWritable names : Play σ Fault Unit) := by
    refine .get (fun w w' h => by rw [h.vars]) fun w => ?_
    dsimp only
    split
    · exact .pure _
    · exact (log ..).bind fun _ => .throw _
  unfold Play.importVariables
  split
  · exact (log ..).bind fun _ => .throw _
  · exact (hconvert _).bind fun values => (hwritable _).bind fun _ => (hset values).bind fun _ => log ..

omit hh in
theorem bindVariable (name : String) (v : HostVariable) : Evenly E (Play.bindVariable name v : Play σ Fault Unit) := by
  have hbind : Evenly E (Play.modifyVariables fun vs => { vs with host := vs.host.put name v } : Play σ Fault Unit) :=
    modifyVariables _
  have hlog (message : String) : Evenly E (Play.log .warning .vars message : Play σ Fault Unit) := log ..
  refine .get (fun w w' h => by rw [h.vars]) fun w => .ite ?_ (.ite ((hlog _).bind fun _ => hbind) hbind)
  exact (hlog _).bind fun _ => (modifyVariables _).bind fun _ => .ite ((hlog _).bind fun _ => hbind) hbind

omit hh in
theorem addHostFunction (name : String) (body : FunctionBody) (description documentation : String) :
    Evenly E (Play.addHostFunction name body description documentation : Play σ Fault Unit) := by
  have hadd (entry : FunctionEntry) : Evenly E (Play.addFunction name entry : Play σ Fault Unit) := by
    have hput : Evenly E (modify fun w => { w with functions := w.functions.put name entry } : Play σ Fault Unit) :=
      .modify (fun _ h => h) fun w w' ⟨hshared, hfront, hothers⟩ => ⟨hshared, hfront, hothers⟩
    exact .get (fun w w' h => by rw [h.functions]) fun w => .ite ((log ..).bind fun _ => hput) hput
  unfold Play.addHostFunction
  cases body with
  | unchecked => exact (log ..).bind fun _ => hadd _
  | checked | raw | builtin => exact hadd _

omit hh in
theorem configure (name : String) (v : Json) : Evenly E (Play.configure name v : Play σ Fault Unit) := by
  have hjournal {w : World σ Fault} (h : w.Alarmed) (c : Config) : (w.setRunnerConfig c).Alarmed := by
    unfold World.setRunnerConfig
    split <;> exact h
  refine ⟨.get fun w => ?_, fun w w' h => ?_⟩
  · split
    · exact .modify fun _ h => hjournal h _
    · exact .throw trivial
  · have hrunner (w : World σ Fault) : Play.runnerConfig w = .ok w.runnerConfig w := rfl
    rw [Play.configure, run_bind_ok (hrunner w), run_bind_ok (hrunner w')]
    rcases h.runnerConfig.set name v with ⟨f, hf, hf'⟩ | ⟨c, c', hc, hc', hrelaxed⟩
    · rw [hf, hf']
      exact .same (.error _ h)
    · rw [hc, hc']
      exact .same (.ok _ (h.setRunnerConfig hrelaxed))

theorem executeAll (items : List Content) : Evenly E (Play.executeAll host items) := by
  induction items with
  | nil => exact .pure _
  | cons item rest ih =>
    cases item with
    | command c pos => exact (execute hh c pos.line).bind fun _ => ih.bind fun _ => .pure _
    | line | choice | condition => exact failOn ..

theorem renderItems (items : List Content) : Evenly Fault.Unresolved (Play.renderItems host items) := by
  induction items with
  | nil => exact .pure _
  | cons item rest ih =>
    have hrest (text : String) : Evenly Fault.Unresolved (do return text :: (← Play.renderItems host rest)) :=
      ih.bind fun _ => .pure _
    cases item with
    | line l => exact (render hh _).bind hrest
    | choice c => exact (render hh _).bind hrest
    | condition | command => exact (Evenly.throw _).bind hrest

/-! ### Scripts -/

omit hh in
theorem register (s : Script) : Evenly E (Play.register s : Play σ Fault (List String)) := by
  have hadd (nodes : List Node) : Evenly E (Play.addNodes nodes : Play σ Fault Unit) := by
    induction nodes with
    | nil => exact .pure _
    | cons n rest ih =>
      have hput : Evenly E (modify fun w => { w with nodes := w.nodes.put n.name n } : Play σ Fault Unit) :=
        .modify (fun _ h => h) fun w w' ⟨hshared, hfront, hothers⟩ => ⟨hshared, hfront, hothers⟩
      refine .get (fun w w' h => by rw [h.nodes]) fun w => .ite ?_ (hput.bind fun _ => ih)
      exact (log ..).bind fun _ => hput.bind fun _ => ih
  have hnames := (hadd s.nodes).bind fun _ => Evenly.pure (E := E) s.names
  refine .get (fun w w' h => ?_) fun w => .ite ?_ hnames
  · dsimp only
    rw [h.nodes, h.config.agree (f := Config.overrides) fun _ => rfl]
  · split
    · exact (failOn ..).bind fun _ => hnames
    · exact (Evenly.pure ()).bind fun _ => hnames

omit hh in
theorem parse (source : String) : Evenly E (Play.parse source : Play σ Fault Script) := by
  have hrecords (records : List LogRecord) :
      Evenly E (records.forM fun r => Play.note (.logged r) : Play σ Fault Unit) := by
    induction records with
    | nil => exact .pure _
    | cons r rest ih => exact (note _).bind fun _ => ih
  exact (hrecords _).bind fun _ => ofExcept _

omit hh in
theorem parseAndRegister (source : String) : Evenly E (Play.parseAndRegister source : Play σ Fault (List String)) :=
  (parse source).bind fun s => register s

omit hh in
theorem loadText (source origin : String) : Evenly E (Play.loadText source origin : Play σ Fault LoadReport) := by
  refine .bind (.tryCatch ?_ fun f => ?_) fun r => ?_
  · exact (parseAndRegister source).bind fun _ => (log ..).bind fun _ => .pure _
  · exact .ite ((log ..).bind fun _ => .pure _) ((Evenly.throw f).bind fun _ => .pure _)
  · cases r <;> exact .pure _

omit hh in
theorem loadFile (files : FileTree) (root : String) (path : FilePath) :
    Evenly E (Play.loadFile files root path : Play σ Fault LoadReport) := by
  unfold Play.loadFile
  dsimp only
  split
  · exact loadText ..
  · exact .throw _
  · exact (log ..).bind fun _ => .pure _

omit hh in
theorem loadFolder (files : FileTree) (root : String) (folder : FilePath) (config : Option Config) :
    Evenly E (Play.loadFolder files root folder config : Play σ Fault LoadReport) := by
  have hfiles (paths : List FilePath) : Evenly E (Play.loadFiles files root paths : Play σ Fault LoadReport) := by
    induction paths with
    | nil => exact .pure _
    | cons path rest ih => exact (loadFile files root path).bind fun _ => ih.bind fun _ => .pure _
  have hload : Evenly E (do
      if files.isFolder folder then
        let suffixes := (config.getD (← get).config).extensions
        let report ← Play.loadFiles files root (files.filesBelow folder suffixes)
        Play.log .info .loader (s!"Loaded {report.loaded.length} scripts ({report.nodes.length} nodes) " ++
          s!"from {folder.shown root}, {report.failures.length} failed")
        return report
      else
        Play.log .warning .loader s!"Script directory not found: {folder.shown root}"
        return {} : Play σ Fault LoadReport) := by
    refine .ite (.get (fun w w' h => ?_) fun w => (hfiles _).bind fun _ => ?_) ?_
    · have hsuffixes : (config.getD w'.config).extensions = (config.getD w.config).extensions := by
        cases config with
        | none => exact h.config.agree (f := Config.extensions) fun _ => rfl
        | some c => rfl
      dsimp only
      rw [hsuffixes]
    · exact (log ..).bind fun _ => .pure _
    · exact (log ..).bind fun _ => .pure _
  unfold Play.loadFolder
  dsimp only
  split
  · exact (Evenly.throw _).bind fun _ => hload
  · exact hload

/-! ### All operations -/

theorem perform (op : Operation) : Evenly Fault.Unresolved (Play.perform host op) := by
  have hdone {x : Play σ Fault Unit} (hx : Evenly Fault.Unresolved x) :
      Evenly Fault.Unresolved (do x; return Answer.done) :=
    hx.bind fun _ => .pure _
  have hanswer {α : Type} {x : Play σ Fault α} {f : α → Answer} (hx : Evenly Fault.Unresolved x) :
      Evenly Fault.Unresolved (do return f (← x)) :=
    hx.bind fun _ => .pure _
  cases op with
  | start name index force => exact hdone (start hh name index force)
  | resume => exact hdone (resume hh)
  | select index => exact hdone (select hh index)
  | jump name => exact hdone (jump hh name)
  | finish force => exact hdone (finish hh force)
  | nextContent => exact hanswer (nextContent hh)
  | choiceTexts => exact hanswer (.runner (fun _ _ => rfl) fun _ => renderAll hh _)
  | configure name value => exact hdone (configure name value)
  | parse source => exact hanswer (parse source)
  | register source => exact hanswer (parseAndRegister source)
  | load source origin => exact hanswer (loadText source origin)
  | loadFile files root path => exact hanswer (loadFile files root path)
  | loadFolder files root folder config => exact hanswer (loadFolder files root folder config)
  | getNode name => exact hanswer (getNode name)
  | clearNodes =>
    exact hdone (.modify (fun _ h => h) fun w w' ⟨hshared, hfront, hothers⟩ => ⟨hshared, hfront, hothers⟩)
  | setVariable name value => exact hdone ((convert value).bind fun _ => setVariable hh _ _)
  | getVariable name => exact hanswer (getVariable hh name)
  | importVariables data => exact hdone (importVariables hh data)
  | restoreVariables | clearVariables | unbindVariable => exact hdone (modifyVariables _)
  | bindVariable name v => exact hdone (bindVariable name v)
  | addFunction name body description documentation => exact hdone (addHostFunction name body description documentation)
  | removeFunction name =>
    exact hdone (.modify (fun _ h => h) fun w w' ⟨hshared, hfront, hothers⟩ => ⟨hshared, hfront, hothers⟩)
  | callFunction name args => exact (convertAll args).bind fun _ => hanswer (callFunction hh name _)
  | evaluate e => exact hanswer (evaluate hh e)
  | test what e => exact hanswer (test hh what e)
  | waitDuration e line => exact hanswer (waitDuration hh e line)
  | execute items => exact hanswer (executeAll hh items)
  | render items => exact hanswer (renderItems hh items)
  | subscribe | unsubscribe | clearBus => exact hdone (modifyBus _)
  | consume => exact hdone (modifyDispatch _)
  | publish kind data => exact hanswer (publish hh _)
  | countHandlers kind =>
    refine hanswer (.get (fun w w' h => ?_) fun _ => .pure _)
    rw [h.bus, show w'.isLive host = w.isLive host from funext fun s => h.isLive host s]

end
end Evenly
end Parley
