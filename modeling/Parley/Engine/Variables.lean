import Parley.Engine.World

/-! # Variables

Script and host variables share one namespace. An import is checked as a whole before anything is
written. -/

namespace Parley

/-- The entries of a flat map of scalars. -/
def snapshotEntries? : Native → Option (List (String × Native))
  | .map entries =>
    let isScalar : Native → Bool
      | .list _ | .map _ => false
      | _ => true
    if entries.all fun e => isScalar e.2 then some entries else none
  | _ => none

namespace Play
variable {σ μ : Type} (host : Host σ μ)

def modifyVariables (f : Variables → Variables) : Play σ μ Unit :=
  modify fun w => { w with vars := f w.vars }

def getVariable (name : String) : Play σ μ Value := do
  note (.read name)
  let vs := (← get).vars
  match vs.host.get? name with
  | some v => convert (← host.read v.read)
  | none =>
    match vs.script.get? name with
    | some v => return v
    | none => failOn .vars (.undefinedVariable name)

def setVariable (name : String) (value : Value) : Play σ μ Unit := do
  match (← get).vars.host.get? name with
  | none => modifyVariables fun vs => { vs with script := vs.script.put name value }
  | some v =>
    match v.write with
    | none => failOn .vars (.readOnly name)
    | some code =>
      note (.wrote name value.toNative)
      host.write code value.toNative

def setNative (name : String) (value : Native) : Play σ μ Unit := do
  setVariable host name (← convert value)

/-- Binds a name to the host; a script variable of the name is lost. -/
def bindVariable (name : String) (v : HostVariable) : Play σ μ Unit := do
  let vs := (← get).vars
  if vs.script.has name then
    log .warning .vars s!"Host variable '{name}' shadows a script variable"
    modifyVariables fun vs => { vs with script := vs.script.erase name }
  if vs.host.has name then
    log .warning .vars s!"Host variable '{name}' registered twice; keeping the latest"
  modifyVariables fun vs => { vs with host := vs.host.put name v }

def unbindVariable (name : String) : Play σ μ Unit :=
  modifyVariables fun vs => { vs with host := vs.host.erase name }

def clearVariables : Play σ μ Unit := modifyVariables fun vs => { vs with script := {} }

/-- Replaces every script variable. -/
def restoreVariables (values : List (String × Value)) : Play σ μ Unit :=
  modifyVariables fun vs => { vs with script := .ofList values }

def convertEntries : List (String × Native) → Play σ μ (List (String × Value))
  | [] => return []
  | (name, v) :: rest => do
    let v ← convert v
    return (name, v) :: (← convertEntries rest)

def setVariables : List (String × Value) → Play σ μ Unit
  | [] => return ()
  | (name, v) :: rest => do
    setVariable host name v
    setVariables rest

/-- Refuses names that are bound without a way to write them. -/
def requireWritable (names : List String) : Play σ μ Unit := do
  let vs := (← get).vars
  match names.find? fun name => (vs.host.get? name).any fun v => v.write.isNone with
  | none => return ()
  | some name =>
    log .error .vars s!"Variable snapshot writes read-only variable '{name}'"
    throw (.readOnly name)

def importVariables (data : Native) : Play σ μ Unit := do
  match snapshotEntries? data with
  | none =>
    log .error .vars "Invalid variable snapshot"
    throw .snapshot
  | some entries =>
    let values ← convertEntries entries
    requireWritable (values.map Prod.fst)
    setVariables host values
    log .debug .vars s!"Imported {values.length} variables"

end Play
end Parley
