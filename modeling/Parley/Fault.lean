import Parley.Parser
import Parley.Value
import Parley.Config
import Parley.Json.Reader

/-! # Faults

Everything that can stop a call, by its cause, with the wording of each in one place. -/

namespace Parley

/-- Something of the wrong type, or in the wrong number. -/
inductive TypeFault where
  | conversion (typeName : String)
  /-- A guard that is no Boolean. -/
  | guard (what source got : String) (line : Int)
  | notOperand (got : String) (line : Int)
  | signOperand (op got : String) (line : Int)
  | operands (op needed left right : String) (line : Int)
  | unknownOperator (op : String)
  /-- What has no value. -/
  | notExpression (what : String)
  | notCommand (what : String)
  | duration (got : String) (line : Int)
  | update (op name left right : String) (line : Int)
  /-- Arguments that a function cannot be called with, in the words of the one that refused them. -/
  | arguments (function reason : String)
  | parameter (function parameter expected got : String)
deriving DecidableEq, Repr

namespace TypeFault

def message : TypeFault → String
  | conversion typeName => s!"Cannot convert {typeName} to a script value"
  | guard what source got line => s!"{what} '{source}' must be a Boolean, got {got} at line {line}"
  | notOperand got line => s!"Operator '!' needs a Boolean, got {got} at line {line}"
  | signOperand op got line => s!"Operator '{op}' needs a Number, got {got} at line {line}"
  | operands op needed left right line =>
    s!"Operator '{op}' needs two {needed}, got {left} and {right} at line {line}"
  | unknownOperator op => s!"Unknown operator '{op}'"
  | notExpression what => s!"Cannot evaluate {what}"
  | notCommand what => s!"Cannot execute {what}"
  | duration got line => s!"'wait' needs a Number, got {got} at line {line}"
  | update op name left right line =>
    s!"'{op} ${name}' needs Numbers, got {left} and {right} at line {line}"
  | arguments function reason => s!"Function '{function}': {reason}"
  | parameter function name expected got =>
    s!"Function '{function}' parameter '{name}' expects {expected}, got {got}"

end TypeFault

/-- Where zero was a divisor. -/
inductive ZeroDivisor where
  | quotient (line : Int)
  | remainder (line : Int)
  | update (op name : String) (line : Int)
deriving DecidableEq, Repr

def ZeroDivisor.message : ZeroDivisor → String
  | quotient line => s!"Division by zero at line {line}"
  | remainder line => s!"Modulo by zero at line {line}"
  | update op name line => s!"'{op} ${name}' by zero at line {line}"

/-- A call that the state of the runner does not allow. -/
inductive SessionFault where
  | busy (action : String)
  | endWhileBusy
  | running
  | notRunning
  | menuOpen
  | noMenu
  | choiceRange (index : Int) (count : Nat)
  | contentRange (index : Int) (node : String) (count : Nat)
deriving DecidableEq, Repr

def SessionFault.message : SessionFault → String
  | busy action => s!"Cannot {action} while a step is running"
  | endWhileBusy => "Cannot end the dialogue while a step is running"
  | running => "A dialogue is already running"
  | notRunning => "No dialogue is running"
  | menuOpen => "Waiting for a choice to be selected"
  | noMenu => "No choices are pending"
  | choiceRange index count =>
    let last : Int := count - 1
    s!"Choice index {index} out of range (0-{last})"
  | contentRange index node count =>
    s!"Content index {index} out of range for node '{node}' ({count} items)"

/-- An error that host code raises of its own. -/
inductive HostError where
  | failure (text : String)
  /-- Arguments of a type or number that the code cannot work with. -/
  | unsuitable (text : String)
  /-- A value of the right type that has no answer. -/
  | value (text : String)
deriving DecidableEq, Repr

def HostError.message : HostError → String
  | failure text | unsuitable text | value text => text

inductive FileFault where
  | missing
  | directory
  | notDirectory
  /-- A name or a path that is longer than any can be. -/
  | longName
  /-- A path that cannot be asked for. -/
  | nullInPath
  /-- A file where a folder was to be made. -/
  | occupied
  | undecodable
  | notJson
deriving DecidableEq, Repr

inductive Fault where
  | source (e : SourceError)
  | undefinedNode (name : String)
  | undefinedVariable (name : String)
  | undefinedFunction (name : String)
  | readOnly (name : String)
  | duplicateNode (name : String)
  | type (t : TypeFault)
  | zeroDivisor (z : ZeroDivisor)
  | session (s : SessionFault)
  | limit (steps : Nat) (node : Option String)
  /-- An integer past the range of numbers. -/
  | overflow
  | missingKey (key : String)
  /-- A frame was to be dropped when none was left. -/
  | emptyStack
  /-- Something was asked for a part that it does not have. -/
  | lacks (what part : String)
  | host (e : HostError)
  | config (errors : List ConfigError)
  | reserved (name : ReservedName)
  /-- Imported data that is no flat map of scalars. -/
  | snapshot
  | file (f : FileFault)
  /-- A document with an integer of more digits than are read. -/
  | longInteger (digits : Nat)
  /-- Host code called back more deeply, or for longer, than it was given room for. -/
  | exhausted
deriving DecidableEq, Repr

namespace Fault

def message : Fault → String
  | source (.lex e) => e.message
  | source (.parse e) => e.message
  | undefinedNode name => s!"Node '{name}' is not defined"
  | undefinedVariable name => s!"Variable '{name}' is not defined"
  | undefinedFunction name => s!"Function '{name}' is not defined"
  | readOnly name => s!"Variable '{name}' is read-only"
  | duplicateNode name => s!"Node '{name}' is already defined"
  | type t => t.message
  | zeroDivisor z => z.message
  | session s => s.message
  | limit steps node =>
    let place := match node with
      | some name => if name.isEmpty then "" else s!" (last node '{name}')"
      | none => ""
    s!"Execution exceeded {steps} steps without yielding{place}"
  | overflow => "int too large to convert to float"
  | missingKey key => quoteText key
  | emptyStack => "pop from empty list"
  | lacks what part => s!"'{what}' object has no attribute '{part}'"
  | host e => e.message
  | config _ => "invalid configuration"
  | reserved name => name.message
  | snapshot => "invalid variable snapshot"
  | file .nullInPath => "embedded null byte"
  | file _ => "file cannot be read"
  | longInteger digits =>
    s!"Exceeds the limit ({Json.integerLimit} digits) for integer string conversion: " ++
      s!"value has {digits} digits; use sys.set_int_max_str_digits() to increase the limit"
  | exhausted => "host code ran out of room"

def ofReading : Json.ReadError → Fault
  | .malformed => file .notJson
  | .digits count => longInteger count

def ofSetting : SettingFault → Fault
  | .invalid errors => config errors
  | .reserved name => reserved name

def ofConversion : ConversionFault → Fault
  | .overflow => overflow
  | .unsupported typeName => type (.conversion typeName)

/-- Undefined variables and functions, which lenient text writes out instead of failing. -/
def isUnresolvedName : Fault → Bool
  | undefinedVariable _ | undefinedFunction _ => true
  | _ => false

end Fault

/-- The source form of an expression, unless a part of it has none. -/
def Expr.source? (e : Expr) : Except Fault String :=
  match e.unwritable? with
  | some (.operator op) => .error (.missingKey op)
  | some (.kind name) => .error (.lacks name "to_source")
  | none => .ok e.source

end Parley
