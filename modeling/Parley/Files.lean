import Parley.Fault

/-! # Folders of script files

A tree of files is kept by path below its root. A path may step back up by `..`, from a folder only,
and one that starts with a slash does not start at the root. Outside the root there are folders, of
which nothing else is known. Text files are UTF-8, and every line end reads as a line feed. -/

namespace Parley

inductive FileEntry where
  | folder
  | file (bytes : ByteArray)

abbrev FilePath := List String

structure FileTree where
  entries : List (FilePath × FileEntry) := []

/-- Carriage returns, alone or before a line feed, become line feeds. -/
def unifyLineEnds : List Char → List Char
  | [] => []
  | '\r' :: '\n' :: rest => '\n' :: unifyLineEnds rest
  | c :: rest => (if c = '\r' then '\n' else c) :: unifyLineEnds rest

namespace FilePath

/-- The slashes that a path starts with, of which two count, but not more. -/
def anchor (path : String) : List String :=
  match path.toList.takeWhile (· == '/') with
  | [] => []
  | ['/', '/'] => ["//"]
  | _ => ["/"]

/-- The steps of a path; empty ones and those that stay in place are left out. A step up stays, as
what is before it may not be a folder. The slashes at the start are a step of their own. -/
def ofText (path : String) : FilePath :=
  anchor path ++ (path.splitOn "/").filter fun part => part != "" && part != "."

/-- What follows the slashes at the start, if there are any. -/
def anchored? : FilePath → Option FilePath
  | step :: rest => if step = "/" ∨ step = "//" then some rest else none
  | [] => none

/-- The path as it is shown, below a root of the given name. -/
def shown (root : String) (path : FilePath) : String :=
  match path.anchored? with
  | some rest => path.headD "" ++ "/".intercalate rest
  | none => "/".intercalate (root :: path)

/-- What follows the last point of a name, with the point, unless the name starts or ends there. -/
def suffix (path : FilePath) : String :=
  let name := (path.getLastD "").toList
  let ending := (name.reverse.takeWhile fun c => c != '.').reverse
  if ending.isEmpty || name.length ≤ ending.length + 1 then "" else String.ofList ('.' :: ending)

end FilePath

namespace FileTree

def isBelow (folder path : FilePath) : Bool := folder.isPrefixOf path && folder.length < path.length

/-- There is a folder at a place, a path without steps up. -/
def hasFolder (t : FileTree) (place : FilePath) : Bool :=
  place.isEmpty || t.entries.any fun (p, e) =>
    isBelow place p || (p == place && match e with | .folder => true | .file _ => false)

def file? (t : FileTree) (place : FilePath) : Option ByteArray :=
  match t.entries.lookup place with
  | some (.file bytes) => some bytes
  | _ => none

/-- How many bytes the name of a file may have. -/
def nameLimit : Nat := 255

/-- How many bytes a path below the root may have. -/
def pathLimit : Nat := 4078

/-- Where a path leads: to a folder outside the root, or to a path inside. -/
inductive Place where
  | outside
  | inside (path : FilePath)

/-- One step up from a folder. -/
def Place.up : Place → Place
  | inside (a :: rest) => inside (a :: rest).dropLast
  | _ => outside

/-- The place that a path leads to from another one. Only the last step may lead to what is no
folder, or not there. -/
def placeFrom (t : FileTree) : Place → FilePath → Except FileFault Place
  | here, [] => .ok here
  | .outside, step :: rest =>
    if step = ".." then t.placeFrom .outside rest
    else .error (if nameLimit < step.utf8ByteSize then .longName else .missing)
  | .inside here, step :: rest =>
    if t.hasFolder here then
      if step = ".." then t.placeFrom (Place.inside here).up rest
      else if nameLimit < step.utf8ByteSize then .error .longName
      else t.placeFrom (.inside (here ++ [step])) rest
    else .error (if (t.file? here).isSome then .notDirectory else .missing)

/-- What is wrong with a path, whatever the files are. -/
def pathFault? (path : FilePath) : Option FileFault :=
  if path.any fun step => step.contains '\x00' then some .nullInPath
  else if pathLimit < ("/".intercalate path).utf8ByteSize then some .longName
  else none

def place (t : FileTree) (path : FilePath) : Except FileFault Place :=
  match pathFault? path, path.anchored? with
  | some f, _ => .error f
  | none, some rest => t.placeFrom .outside rest
  | none, none => t.placeFrom (.inside []) path

def isFolder (t : FileTree) (path : FilePath) : Bool :=
  match t.place path with
  | .ok .outside => true
  | .ok (.inside place) => t.hasFolder place
  | .error _ => false

def setEntry (t : FileTree) (place : FilePath) (e : FileEntry) : FileTree :=
  ⟨t.entries.filter (fun entry => entry.1 != place) ++ [(place, e)]⟩

/-- Makes the folders that a path from a place goes through, those that are missing. -/
def makeFolders (t : FileTree) : Place → FilePath → Except FileFault FileTree
  | _, [] => .ok t
  | .outside, step :: rest =>
    if step = ".." then t.makeFolders .outside rest else .error .missing
  | .inside here, step :: rest =>
    let next := here ++ [step]
    if step = ".." then t.makeFolders (Place.inside here).up rest
    else if nameLimit < step.utf8ByteSize then .error .longName
    else if (t.file? next).isSome then .error (if rest.isEmpty then .occupied else .notDirectory)
    else if t.hasFolder next then t.makeFolders (.inside next) rest
    else (t.setEntry next .folder).makeFolders (.inside next) rest

/-- Writes a file, or makes a folder, with the folders that it is in. -/
def put (t : FileTree) (path : FilePath) (e : FileEntry) : Except FileFault FileTree := do
  if let some f := pathFault? path then throw f
  match e with
  | .folder => t.makeFolders (.inside []) path
  | .file _ =>
    let t ← t.makeFolders (.inside []) path.dropLast
    match ← t.place path with
    | .outside => throw .directory
    | .inside place => if t.hasFolder place then throw .directory else return t.setEntry place e

/-- The text of a file, or why it cannot be read. -/
def readText (t : FileTree) (path : FilePath) : Except FileFault String := do
  match ← t.place path with
  | .outside => throw .directory
  | .inside place =>
    match t.file? place with
    | some bytes =>
      match String.fromUTF8? bytes with
      | some text => return String.ofList (unifyLineEnds text.toList)
      | none => throw .undecodable
    | none => throw (if t.hasFolder place then .directory else .missing)

/-- The paths, through a folder, of the files below it whose suffix is one of the given ones, in
their order. -/
def filesBelow (t : FileTree) (folder : FilePath) (suffixes : List String) : List FilePath :=
  match t.place folder with
  | .error _ | .ok .outside => []
  | .ok (.inside place) =>
    let found := t.entries.filterMap fun (p, e) =>
      match e with
      | .file _ =>
        if isBelow place p && suffixes.contains (lowercase p.suffix) then
          some (folder ++ p.drop place.length)
        else none
      | .folder => none
    found.mergeSort fun a b => !decide (b < a)

end FileTree
end Parley
