import Parley.Engine.Nodes
import Parley.Files

/-! # Loading scripts

Every source is a unit of its own: one that cannot be read, parsed or registered is reported, and
the rest still load. -/

namespace Parley

structure LoadReport where
  loaded : List String := []
  /-- The nodes registered, in the order of loading. -/
  nodes : List String := []
  failures : List (String × Fault) := []

namespace LoadReport

def isOk (r : LoadReport) : Bool := r.failures.isEmpty

def append (a b : LoadReport) : LoadReport :=
  ⟨a.loaded ++ b.loaded, a.nodes ++ b.nodes, a.failures ++ b.failures⟩

end LoadReport

/-- Faults of a script, which its report names; others go to the caller. -/
def Fault.isOfScript : Fault → Bool
  | .source (.lex _) | .source (.parse (.unexpected ..)) | .duplicateNode _ => true
  | _ => false

namespace Play
variable {σ μ : Type}

def parseAndRegister (source : String) : Play σ μ (List String) := do register (← parse source)

def loadText (source origin : String) : Play σ μ LoadReport := do
  try
    let names ← parseAndRegister source
    log .debug .loader s!"Loaded {names.length} nodes from {origin}"
    return ⟨[origin], names, []⟩
  catch f =>
    if f.isOfScript then
      log .error .loader s!"Failed to load {origin}: {f.message}"
      return ⟨[], [], [(origin, f)]⟩
    else throw f

def loadFile (files : FileTree) (root : String) (path : FilePath) : Play σ μ LoadReport := do
  let origin := path.shown root
  match files.readText path with
  | .ok source => loadText source origin
  | .error .nullInPath => throw (.file .nullInPath)
  | .error f =>
    log .error .loader s!"Failed to read {origin}"
    return ⟨[], [], [(origin, .file f)]⟩

def loadFiles (files : FileTree) (root : String) : List FilePath → Play σ μ LoadReport
  | [] => return {}
  | path :: rest => do
    let first ← loadFile files root path
    return first.append (← loadFiles files root rest)

/-- Loads the script files below a folder; a configuration of its own may name the suffixes. A
folder whose name no file can have is a fault, while one that is not there loads nothing. -/
def loadFolder (files : FileTree) (root : String) (folder : FilePath) (config : Option Config) :
    Play σ μ LoadReport := do
  let shown := folder.shown root
  if let .error .longName := files.place folder then throw (.file .longName)
  if files.isFolder folder then
    let suffixes := (config.getD (← get).config).extensions
    let report ← loadFiles files root (files.filesBelow folder suffixes)
    log .info .loader (s!"Loaded {report.loaded.length} scripts ({report.nodes.length} nodes) " ++
      s!"from {shown}, {report.failures.length} failed")
    return report
  else
    log .warning .loader s!"Script directory not found: {shown}"
    return {}

end Play
end Parley
