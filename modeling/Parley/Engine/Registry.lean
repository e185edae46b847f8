import Parley.Event.Bus
import Parley.Table

/-! # What scripts reach by name

Variables live in the script or in the host; functions are built in or host code. A host function
may carry a signature, against which arguments are checked before the call. -/

namespace Parley

structure HostVariable where
  read : Handle
  /-- Absent if the variable is read-only. -/
  write : Option Handle
  description : String
deriving Repr

structure Variables where
  script : Table Value := {}
  host : Table HostVariable := {}

namespace Variables

def has (vs : Variables) (name : String) : Bool := vs.host.has name || vs.script.has name

/-- All names, each once, in order. -/
def names (vs : Variables) : List String :=
  (vs.script.names ++ vs.host.names.filter fun name => !vs.script.has name).mergeSort

def describe (vs : Variables) : List (String × String) :=
  vs.host.sorted.map fun entry => (entry.1, entry.2.description)

/-- The variables of the script as native values, in the order of their names. -/
def exported (vs : Variables) : List (String × Native) :=
  vs.script.sorted.map fun entry => (entry.1, entry.2.toNative)

end Variables

/-- What a parameter accepts. -/
inductive Expected where
  | unchecked
  | boolean
  | integer
  | real
  | string
  | nothing
  /-- Any of several, under a name of their own. -/
  | union (label : String) (options : List Expected)
deriving Inhabited

namespace Expected

/-- The name that a message gives to what is expected. -/
def label : Expected → String
  | unchecked => "Any"
  | boolean => "bool"
  | integer => "int"
  | real => "float"
  | string => "str"
  | nothing => "NoneType"
  | union label _ => label

mutual

/-- Integers are numbers too; booleans are neither. -/
def accepts : Expected → Native → Bool
  | unchecked, _ => true
  | boolean, .boolean _ => true
  | integer, .integer _ => true
  | real, .integer _ => true
  | real, .real _ => true
  | string, .string _ => true
  | nothing, .none => true
  | union _ options, v => anyAccepts options v
  | _, _ => false

def anyAccepts : List Expected → Native → Bool
  | [], _ => false
  | a :: rest, v => a.accepts v || anyAccepts rest v

end

/-- An integer goes to a parameter of real numbers as a real number. -/
def coerce : Expected → Native → Native
  | real, .integer n =>
    match Binary64.ofInt? n with
    | some x => .real x
    | none => .integer n
  | _, v => v

end Expected

structure Param where
  name : String
  expected : Expected := .unchecked
  default : Option Native := none

structure Signature where
  params : List Param
  /-- Takes the arguments that are left over. -/
  variadic : Option Param := none

namespace Signature

/-- Pairs every argument with its parameter, or says why they do not fit. -/
def bind (s : Signature) (args : List Native) : Except String (List (Param × Native)) :=
  match (s.params.drop args.length).find? fun p => p.default.isNone with
  | some p => .error s!"missing a required argument: '{p.name}'"
  | none =>
    let extra := args.drop s.params.length
    match s.variadic with
    | some p => .ok (s.params.zip args ++ extra.map fun v => (p, v))
    | none =>
      if extra.isEmpty then .ok (s.params.zip args) else .error "too many positional arguments"

/-- The defaults of the parameters that got no argument. -/
def defaults (s : Signature) (args : List Native) : List Native :=
  (s.params.drop args.length).map fun p => p.default.getD .none

end Signature

inductive Builtin where
  | log
  | concat
deriving DecidableEq, Repr

namespace Builtin

def all : List Builtin := [log, concat]

def name : Builtin → String
  | log => "log"
  | concat => "concat"

def description : Builtin → String
  | log => "Write the arguments, space separated, to the dialogscript.script log."
  | concat => "Join the text form of every argument."

end Builtin

inductive FunctionBody where
  /-- Works on native values; its signature is checked. -/
  | checked (signature : Signature) (code : Handle)
  /-- Works on native values that it checks itself. -/
  | unchecked (code : Handle)
  /-- Works on script values. -/
  | raw (code : Handle)
  | builtin (b : Builtin)

structure FunctionEntry where
  body : FunctionBody
  description : String

end Parley
