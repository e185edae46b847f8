import Parley.Engine.World

/-! # Functions

A checked function is called only with arguments that fit its signature and that its parameters
accept. -/

namespace Parley

/-- An argument that its parameter does not accept. -/
def refused? (bound : List (Param × Native)) : Option (Param × Native) :=
  bound.find? fun (p, v) => !p.expected.accepts v

/-- What a host function gets: the arguments as their parameters want them, then the defaults. -/
def Signature.received (s : Signature) (args : List Native) (bound : List (Param × Native)) :
    List Native :=
  (bound.map fun (p, v) => p.expected.coerce v) ++ s.defaults args

/-- Faults by which code says that it cannot work with its arguments. -/
def Fault.isTypeFault : Fault → Bool
  | .type _ | .host (.unsuitable _) => true
  | _ => false

namespace Play
variable {σ μ : Type} (host : Host σ μ)

def addFunction (name : String) (entry : FunctionEntry) : Play σ μ Unit := do
  if (← get).functions.has name then
    log .warning .functions s!"Function '{name}' registered twice; keeping the latest"
  modify fun w => { w with functions := w.functions.put name entry }

/-- Adds host code under a name. Without a description its own documentation stands in; code that
works on script values has none. -/
def addHostFunction (name : String) (body : FunctionBody) (description documentation : String) :
    Play σ μ Unit := do
  let described :=
    if description.isEmpty then String.ofList (trim documentation.toList) else description
  match body with
  | .unchecked _ =>
    log .debug .functions s!"Function '{name}' has no signature; arguments are not checked"
    addFunction name ⟨body, described⟩
  | .checked .. => addFunction name ⟨body, described⟩
  | .raw _ | .builtin _ => addFunction name ⟨body, description⟩

def removeFunction (name : String) : Play σ μ Unit :=
  modify fun w => { w with functions := w.functions.erase name }

def addBuiltins : List Builtin → Play σ μ Unit
  | [] => return ()
  | b :: rest => do
    addFunction b.name ⟨.builtin b, b.description⟩
    addBuiltins rest

def callBuiltin (b : Builtin) (args : List Value) : Play σ μ Value := do
  let texts := args.map Value.text
  match b with
  | .log =>
    log .info .script (" ".intercalate texts)
    return .null
  | .concat => return .string (String.join texts)

def refuseCall {α : Type} (name reason : String) : Play σ μ α := do
  log .error .functions s!"Bad call to '{name}': {reason}"
  throw (.type (.arguments name reason))

def callChecked (name : String) (s : Signature) (code : Handle) (args : List Native) :
    Play σ μ Value := do
  match s.bind args with
  | .error reason => refuseCall name reason
  | .ok bound =>
    match refused? bound with
    | some (p, v) =>
      failOn .functions (.type (.parameter name p.name p.expected.label v.typeName))
    | none =>
      let received := s.received args bound
      note (.called name code received)
      convert (← host.call code received)

def callUnchecked (name : String) (code : Handle) (args : List Native) : Play σ μ Value := do
  note (.called name code args)
  let result ← try host.call code args
    catch f => if f.isTypeFault then refuseCall name f.message else throw f
  convert result

def callFunction (name : String) (args : List Value) : Play σ μ Value := do
  note (.applied name args)
  match (← get).functions.get? name with
  | none => failOn .functions (.undefinedFunction name)
  | some entry =>
    match entry.body with
    | .checked s code => callChecked host name s code (args.map Value.toNative)
    | .unchecked code => callUnchecked host name code (args.map Value.toNative)
    | .raw code =>
      note (.calledRaw name code args)
      convert (← host.callRaw code args)
    | .builtin b => callBuiltin b args

end Play
end Parley
