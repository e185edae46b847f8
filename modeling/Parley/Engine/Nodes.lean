import Parley.Engine.World

/-! # The node table

A script is registered as a whole: where names may not be taken twice, one that is taken keeps the
whole script out. -/

namespace Parley

/-- The first name that is taken, by the table or earlier in the list. -/
def takenName? (taken : List String) : List String → Option String
  | [] => none
  | name :: rest => if taken.contains name then some name else takenName? (name :: taken) rest

namespace Play
variable {σ μ : Type}

def addNodes : List Node → Play σ μ Unit
  | [] => return ()
  | n :: rest => do
    if (← get).nodes.has n.name then
      log .warning .context s!"Node '{n.name}' redefined; the later definition wins"
    modify fun w => { w with nodes := w.nodes.put n.name n }
    addNodes rest

/-- Merges a script into the table; answers the names of its nodes. -/
def register (s : Script) : Play σ μ (List String) := do
  let w ← get
  if !w.config.overrides then
    match takenName? w.nodes.names s.names with
    | some name => failOn .context (.duplicateNode name)
    | none => pure ()
  addNodes s.nodes
  return s.names

def getNode (name : String) : Play σ μ Node := do
  match (← get).nodes.get? name with
  | some n => return n
  | none => failOn .context (.undefinedNode name)

def clearNodes : Play σ μ Unit := modify fun w => { w with nodes := {} }

/-- Parses a source with the records that this logs. -/
def parse (source : String) : Play σ μ Script := do
  let parsed := parseScript source
  parsed.records.forM fun r => note (.logged r)
  ofExcept (parsed.result.mapError Fault.source)

end Play
end Parley
