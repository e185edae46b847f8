import Parley.Rehearsal.Stage

/-! # Performing cues

Every step is host code, so a rehearsal makes the same calls from outside and from within a step. -/

namespace Parley

/-- The expression of a first line of the form `var $r ...`. -/
def Script.assigned? (s : Script) : Option Expr :=
  match s.nodes with
  | ⟨_, .command (.assign _ _ e) _ :: _, _⟩ :: _ => some e
  | _ => none

def Script.firstContent (s : Script) : List Content :=
  match s.nodes with
  | n :: _ => n.content
  | [] => []

namespace ExprSource

/-- The script in which an expression stands as the value of a variable. -/
def scriptText (source : String) : String := ":: n\nvar $r " ++ source ++ "\n"

end ExprSource

/-- Code of a rehearsal. -/
abbrev Scene := Code Stage Mark

namespace Scene

def modifyStage (f : Stage → Stage) : Scene Unit := do Code.setState (f (← Code.state))

/-- The world with the runner of a seat in front. -/
def worldAt (seat : Nat) : Scene (World Stage Mark) := do return (← Code.world).turnTo seat

def done (seat : Nat) (op : Operation) : Scene Reply := do
  let _ ← Code.request seat op
  return .nothing

def texts (seat : Nat) (op : Operation) : Scene Reply := do
  match ← Code.request seat op with
  | .texts ts => return .texts ts
  | _ => return .nothing

def report (seat : Nat) (op : Operation) : Scene Reply := do
  match ← Code.request seat op with
  | .report r => return .report r
  | _ => return .nothing

def value (seat : Nat) (op : Operation) : Scene Value := do
  match ← Code.request seat op with
  | .value v => return v
  | _ => return .null

def parse (seat : Nat) (source : String) : Scene Script := do
  match ← Code.request seat (.parse source) with
  | .script s => return s
  | _ => return {}

def expression (seat : Nat) : ExprSource → Scene Expr
  | .tree e => return e
  | .text source => do return (← parse seat (ExprSource.scriptText source)).assigned?.getD default

/-- The content of a script without a header. -/
def content (seat : Nat) (source : String) : Scene (List Content) := do
  return (← parse seat (":: n\n" ++ source)).firstContent

def snapshot (seat : Nat) : Scene Snapshot := do
  match (← worldAt seat).runner.snapshot with
  | .ok s => return s
  | .error f => .fail f

/-- The handler of a name, made now if there is none. -/
def handler (id : String) (isMethod : Bool) (actions : List Action) (times : Nat) :
    Scene Handle := do
  let s ← Code.state
  match s.handlers.get? id with
  | some h => return h
  | none =>
    let (h, s) := s.addPiece (.handler id actions times 0 isMethod)
    Code.setState { s with handlers := s.handlers.put id h }
    return h

def piece (p : Piece) : Scene Handle := do
  let (h, s) := (← Code.state).addPiece p
  Code.setState s
  return h

def loaderConfig (fields : Option (List (String × Json))) : Scene (Option Config) :=
  match fields with
  | none => return none
  | some fields =>
    match Config.ofFields fields with
    | .ok c => return some c
    | .error errors => .fail (.config errors)

/-- The name that shown paths have for the folder of a rehearsal's files. -/
def rootName : String := "<root>"

def wait (seat : Nat) (source : String) : Scene Reply := do
  match ← content seat ("wait " ++ source) with
  | .command (.wait e) pos :: _ =>
    match ← Code.request seat (.waitDuration e pos.line) with
    | .duration x => return .native (.real x)
    | _ => return .nothing
  | _ => return .nothing

def addFiles : List (String × FileEntry) → Scene Unit
  | [] => return ()
  | (path, e) :: rest => do
    match (← Code.state).files.put (.ofText path) e with
    | .ok files => modifyStage fun s => { s with files }
    | .error f => .fail (.file f)
    addFiles rest

def perform (seat : Nat) : Step → Scene Reply
  | .script source => texts seat (.register source)
  | .load source origin => report seat (.load source origin)
  | .loadFolder files folder config => do
    addFiles files
    let config ← loaderConfig config
    report seat (.loadFolder (← Code.state).files rootName (.ofText folder) config)
  | .loadFile files path => do
    addFiles files
    report seat (.loadFile (← Code.state).files rootName (.ofText path))
  | .nodes => do return .texts (← Code.world).nodes.names
  | .hasNode name => do return .flag ((← Code.world).nodes.has name)
  | .getNode name => do
    match ← Code.request seat (.getNode name) with
    | .node n => return .node n
    | _ => return .nothing
  | .clearNodes => done seat .clearNodes
  | .start node index force => done seat (.start node index force)
  | .resume => done seat .resume
  | .select index => done seat (.select index)
  | .jump node => done seat (.jump node)
  | .finish force => done seat (.finish force)
  | .next => do
    match ← Code.request seat .nextContent with
    | .next n => return .next n
    | _ => return .nothing
  | .texts => texts seat .choiceTexts
  | .state => do return .snapshot (← snapshot seat)
  | .configure field v => done seat (.configure field v)
  | .set name v => done seat (.setVariable name v)
  | .get name => do return .native (← value seat (.getVariable name)).toNative
  | .value name => do return .value (← value seat (.getVariable name))
  | .has name => do
    let has := (← Code.world).vars.has name
    return .flags has has
  | .names => do return .texts (← Code.world).vars.names
  | .describe => do return .described (← Code.world).vars.describe
  | .exportAll => do return .natives (← Code.world).vars.exported
  | .importAll data => done seat (.importVariables data)
  | .clearVariables => done seat .clearVariables
  | .dump => do return .values (← Code.world).vars.script.sorted
  | .restore values => done seat (.restoreVariables values)
  | .host name cell writable description => do
    modifyStage fun s => { s with cells := s.cells.put name cell }
    let h ← piece (.cell name)
    done seat (.bindVariable name ⟨h, if writable then some h else none, description⟩)
  | .unhost name => done seat (.unbindVariable name)
  | .setHost name cell => do
    modifyStage fun s => { s with cells := s.cells.put name cell }
    return .nothing
  | .cell name => do return .cell ((← Code.state).cells.get? name)
  | .function name kind description => do
    let h ← piece (.function kind 0)
    done seat (.addFunction name (kind.body h) description kind.documentation)
  | .removeFunction name => done seat (.removeFunction name)
  | .hasFunction name => do
    let has := (← Code.world).functions.has name
    return .flags has has
  | .functions hidden => do
    let entries := (← Code.world).functions.sorted
    return .functions (entries.map Prod.fst) (entries.map fun (name, entry) =>
      (name, if hidden.contains name then none else some entry.description))
  | .call name args => do return .value (← value seat (.callFunction name args))
  | .evaluate e => do
    let e ← expression seat e
    return .value (← value seat (.evaluate e))
  | .test e what => do
    let e ← expression seat e
    match ← Code.request seat (.test what e) with
    | .flag b => return .flag b
    | _ => return .nothing
  | .execute source => do
    match ← Code.request seat (.execute (← content seat source)) with
    | .targets ts => return .targets ts
    | _ => return .nothing
  | .wait source => wait seat source
  | .render source => do texts seat (.render (← content seat source))
  | .on id event priority once weak isMethod actions times => do
    let h ← handler id isMethod actions times
    let weak := weak && (← Code.state).isMethod h
    done seat (.subscribe event ⟨priority, h, once, weak⟩)
  | .off id event isMethod actions times => do
    let h ← handler id isMethod actions times
    done seat (.unsubscribe event h)
  | .drop id => do
    modifyStage fun s => { s with handlers := s.handlers.erase id }
    return .nothing
  | .publish event data get item => do
    match ← Code.request seat (.publish event data) with
    | .flag consumed =>
      return .published consumed
        (get.map fun key => (data.lookup key).getD (.string "?"))
        (item.map fun key =>
          match data.lookup key with
          | some v => .ok v
          | none => .error (.missingKey key))
    | _ => return .nothing
  | .clearBus event => done seat (.clearBus event)
  | .count event => do
    match ← Code.request seat (.countHandlers event) with
    | .count n => return .count n
    | _ => return .nothing

/-- Runs actions in order; `dispatching` is the seat of the notice that they may consume. -/
def runActions (dispatching : Option Nat) : List Action → Scene Unit
  | [] => return ()
  | .consume :: rest => do
    match dispatching with
    | some seat =>
      let _ ← Code.request seat .consume
    | none => pure ()
    runActions dispatching rest
  | .raise message :: _ => .fail (.host (.failure message))
  | .step name seat step lets :: rest => do
    if lets then
      let _ ← perform seat step
    else
      let outcome ← (perform seat step).attempt
      Code.say (.did name outcome)
    runActions dispatching rest

def holdingValue : Holding → Scene Native
  | .value v => return v
  | .failing text => .fail (.host (.failure text))

def hostResult : Except HostError Native → Scene Native
  | .ok v => return v
  | .error e => .fail (.host e)

def callFunction (h : Handle) (kind : FunctionKind) (calls : Nat) (args : List Native) :
    Scene Native := do
  modifyStage fun s => s.setPiece h (.function kind (calls + 1))
  match kind with
  | .sequence holdings =>
    holdingValue ((holdings[min calls (holdings.length - 1)]?).getD (.value .none))
  | .steps actions result times =>
    if calls < times then runActions none actions
    return result
  | kind => hostResult (kind.answer args)

end Scene

/-- The host that a rehearsal plays. -/
def Stage.behaviour : Behaviour Stage Mark where
  read h := do
    let s ← Code.state
    match s.piece? h with
    | some (.cell name) =>
      match s.cells.get? name with
      | some c => Scene.holdingValue c.holding
      | none => return .none
    | _ => return .none
  write h v := Scene.modifyStage fun s =>
    match s.piece? h with
    | some (.cell name) => { s with cells := s.cells.put name ⟨.value v, none⟩ }
    | _ => s
  call h args := do
    match (← Code.state).piece? h with
    | some (.function kind calls) => Scene.callFunction h kind calls args
    | _ => return .none
  callRaw h args := do
    match (← Code.state).piece? h with
    | some (.function kind _) => Scene.hostResult (kind.rawAnswer args)
    | _ => return .none
  handle seat h _ := do
    match (← Code.state).piece? h with
    | some (.handler id actions times calls isMethod) =>
      Scene.modifyStage fun s => s.setPiece h (.handler id actions times (calls + 1) isMethod)
      if calls < times then Scene.runActions (some seat) actions
    | _ => return ()
  owns := Stage.owns

end Parley
