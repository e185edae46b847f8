import Parley.Engine.Session
import Parley.Engine.Load

/-! # Operations

The calls that a host can make, as data, and what they answer. Host code that runs in the middle of
a step makes the same calls as the host outside. -/

namespace Parley

inductive Operation where
  | start (node : Option String) (index : Int) (force : Bool)
  | resume
  | select (index : Int)
  | jump (node : String)
  | finish (force : Bool)
  | nextContent
  | choiceTexts
  | configure (name : String) (value : Json)
  | parse (source : String)
  | register (source : String)
  | load (source origin : String)
  | loadFile (files : FileTree) (root : String) (path : FilePath)
  | loadFolder (files : FileTree) (root : String) (folder : FilePath) (config : Option Config)
  | getNode (name : String)
  | clearNodes
  | setVariable (name : String) (value : Native)
  | getVariable (name : String)
  | importVariables (data : Native)
  | restoreVariables (values : List (String × Value))
  | clearVariables
  | bindVariable (name : String) (v : HostVariable)
  | unbindVariable (name : String)
  | addFunction (name : String) (body : FunctionBody) (description documentation : String)
  | removeFunction (name : String)
  | callFunction (name : String) (args : List Native)
  | evaluate (e : Expr)
  | test (what : String) (e : Expr)
  | waitDuration (e : Expr) (line : Int)
  | execute (items : List Content)
  | render (items : List Content)
  | subscribe (kind : EventKind) (s : Subscription)
  | unsubscribe (kind : EventKind) (handler : Handle)
  | publish (kind : EventKind) (data : List (String × Native))
  | clearBus (kind : Option EventKind)
  | consume
  | countHandlers (kind : EventKind)

inductive Answer where
  | done
  | flag (b : Bool)
  | count (n : Nat)
  | texts (ts : List String)
  | targets (ts : List (Option String))
  | next (n : NextContent)
  | value (v : Value)
  | duration (x : Binary64)
  | node (n : Node)
  | script (s : Script)
  | report (r : LoadReport)

namespace Play
variable {σ μ : Type} (host : Host σ μ)

def convertAll : List Native → Play σ μ (List Value)
  | [] => return []
  | v :: rest => do
    let v ← convert v
    return v :: (← convertAll rest)

/-- Runs commands one after the other, jumps included, and answers where each would go. -/
def executeAll : List Content → Play σ μ (List (Option String))
  | [] => return []
  | .command c pos :: rest => do
    let target ← execute host c pos.line
    return target :: (← executeAll rest)
  | item :: _ => typeFail (.notCommand item.label)

def renderItems : List Content → Play σ μ (List String)
  | [] => return []
  | item :: rest => do
    let text ← match item with
      | .line l => render host l.text
      | .choice c => render host c.text
      | other => throw (.lacks other.label "text")
    return text :: (← renderItems rest)

def perform : Operation → Play σ μ Answer
  | .start node index force => do
    start host node index force
    return .done
  | .resume => do
    resume host
    return .done
  | .select index => do
    select host index
    return .done
  | .jump node => do
    jump host node
    return .done
  | .finish force => do
    finish host force
    return .done
  | .nextContent => return .next (← nextContent host)
  | .choiceTexts => return .texts (← choiceTexts host)
  | .configure name value => do
    configure name value
    return .done
  | .parse source => return .script (← parse source)
  | .register source => return .texts (← parseAndRegister source)
  | .load source origin => return .report (← loadText source origin)
  | .loadFile files root path => return .report (← loadFile files root path)
  | .loadFolder files root folder config => return .report (← loadFolder files root folder config)
  | .getNode name => return .node (← getNode name)
  | .clearNodes => do
    clearNodes
    return .done
  | .setVariable name value => do
    setNative host name value
    return .done
  | .getVariable name => return .value (← getVariable host name)
  | .importVariables data => do
    importVariables host data
    return .done
  | .restoreVariables values => do
    restoreVariables values
    return .done
  | .clearVariables => do
    clearVariables
    return .done
  | .bindVariable name v => do
    bindVariable name v
    return .done
  | .unbindVariable name => do
    unbindVariable name
    return .done
  | .addFunction name body description documentation => do
    addHostFunction name body description documentation
    return .done
  | .removeFunction name => do
    removeFunction name
    return .done
  | .callFunction name args => do
    let args ← convertAll args
    return .value (← callFunction host name args)
  | .evaluate e => return .value (← evaluate host e)
  | .test what e => return .flag (← test host what e)
  | .waitDuration e line => return .duration (← waitDuration host e line)
  | .execute items => return .targets (← executeAll host items)
  | .render items => return .texts (← renderItems host items)
  | .subscribe kind s => do
    modifyBus fun b => b.subscribe kind s
    return .done
  | .unsubscribe kind handler => do
    modifyBus fun b => b.unsubscribe kind handler
    return .done
  | .publish kind data => return .flag (← publish host (.custom kind data))
  | .clearBus kind => do
    modifyBus fun b => b.clear kind
    return .done
  | .consume => do
    consume
    return .done
  | .countHandlers kind => return .count (← countHandlers host kind)

end Play
end Parley
