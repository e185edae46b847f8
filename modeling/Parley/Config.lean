import Parley.Json.Basic
import Parley.Number.Integer
import Parley.Text.Class
import Parley.Text.Lowercase

/-! # Configuration

Settings are read leniently: a switch may be written as a word or as 0 or 1, a count as a numeral.
Every fault of a set of settings is reported, unless a name among them has no characters. File
suffixes are kept in lower case behind a point. -/

namespace Parley

structure Config where
  /-- Where a session starts that names no node. -/
  startNode : String := "start"
  /-- The suffixes of script files. -/
  extensions : List String := [".txt", ".mds"]
  /-- A name in a text that cannot be resolved fails the text. -/
  strictText : Bool := false
  /-- Opens a menu as soon as the line before it has been displayed. -/
  autoChoices : Bool := true
  /-- How many steps one call may take. -/
  maxSteps : Nat := 10000
  /-- Gives a new context the built-in functions. -/
  builtins : Bool := true
  /-- A later script may define a node again. -/
  overrides : Bool := true
deriving DecidableEq, Repr, Inhabited

inductive ConfigCode where
  | unknownSetting | noSuchSetting | notAnObject
  | string | unpaired | tuple
  | intType | intText | intFraction | intNotFinite | intSize | tooSmall
  | boolType | boolText
deriving DecidableEq, Repr

def ConfigCode.label : ConfigCode → String
  | unknownSetting => "extra_forbidden"
  | noSuchSetting => "no_such_attribute"
  | notAnObject => "model_type"
  | string => "string_type"
  | unpaired => "string_unicode"
  | tuple => "tuple_type"
  | intType => "int_type"
  | intText => "int_parsing"
  | intFraction => "int_from_float"
  | intNotFinite => "finite_number"
  | intSize => "int_parsing_size"
  | tooSmall => "greater_than"
  | boolType => "bool_type"
  | boolText => "bool_parsing"

/-- A setting, or an element of one, that does not read. -/
structure ConfigError where
  path : List String
  code : ConfigCode
deriving DecidableEq, Repr

/-- Names that a configuration has besides its settings, with what stands against a change there. -/
inductive ReservedName where
  /-- Something that is worked out from the settings. -/
  | computed (name : String)
  /-- Something that all configurations share. -/
  | shared (name : String)
  /-- Something that only the configuration itself writes. -/
  | locked (name : String)
  /-- What a configuration is, for which a value of the given kind was to stand in. -/
  | nature (given : String)
  /-- The settings as a whole, for which a value of the given kind was to stand in. -/
  | whole (given : String)
deriving DecidableEq, Repr

namespace ReservedName

/-- What stands against a value under a name, if the name is reserved. -/
def ofName? (name : String) (v : Json) : Option ReservedName :=
  match name, v with
  | "model_extra", _ | "model_fields_set", _ | "__fields_set__", _ => some (computed name)
  | "__class_vars__", _ | "__private_attributes__", _ | "__signature__", _ => some (shared name)
  | "__weakref__", _ => some (locked name)
  | "__class__", _ => some (nature v.kindName)
  | "__dict__", .object _ | "__dict__", .unpairedKey => none
  | "__dict__", _ => some (whole v.kindName)
  | _, _ => none

def message : ReservedName → String
  | computed name => s!"property '{name}' of 'EngineConfig' object has no setter"
  | shared name =>
    s!"'{name}' is a ClassVar of `EngineConfig` and cannot be set on an instance. " ++
      s!"If you want to set a value on the class, use `EngineConfig.{name} = value`."
  | locked name => s!"attribute '{name}' of 'EngineConfig' objects is not writable"
  | nature given => s!"__class__ must be set to a class, not '{given}' object"
  | whole given => s!"__dict__ must be set to a dictionary, not a '{given}'"

end ReservedName

/-- Why a setting stays as it is. -/
inductive SettingFault where
  | invalid (errors : List ConfigError)
  | reserved (name : ReservedName)
deriving DecidableEq, Repr

/-- Reports are ordered by place, then by code. -/
def ConfigError.before (a b : ConfigError) : Bool :=
  decide (a.path < b.path) || (a.path == b.path && decide (a.code.label ≤ b.code.label))

namespace Config

/-- How one setting reads: a value, or the faults at the places under it. -/
abbrev Read (α : Type) := Except (List (List String × ConfigCode)) α

/-- Any text will do, half a surrogate pair or not. -/
def readString : Json → Read String
  | .string s | .unpaired s => .ok s
  | _ => .error [([], .string)]

/-- The words for off and on, in any case. -/
def switchWord? (word : String) : Option Bool :=
  if ["0", "off", "f", "false", "n", "no"].contains word then some false
  else if ["1", "on", "t", "true", "y", "yes"].contains word then some true
  else none

/-- Floating point is read as a whole number only in this range. -/
def isMachineInt (n : Int) : Bool := Int64.minValue.toInt < n && n ≤ Int64.maxValue.toInt

/-- Zero is off and one is on. -/
def switchOfInt (n : Int) : Read Bool :=
  if n = 0 then .ok false else if n = 1 then .ok true else .error [([], .boolText)]

def readBool : Json → Read Bool
  | .boolean b => .ok b
  | .integer n =>
    if isMachineInt n || n = Int64.minValue.toInt then switchOfInt n else .error [([], .boolType)]
  | .real x =>
    match x.toInt? with
    | some n => if isMachineInt n then switchOfInt n else .error [([], .boolType)]
    | none => .error [([], .boolType)]
  | .string s =>
    match switchWord? (String.ofList (s.toList.map Char.toLower)) with
    | some b => .ok b
    | none => .error [([], .boolText)]
  | .unpaired _ => .error [([], .unpaired)]
  | _ => .error [([], .boolType)]

def ofNumeralFault : NumeralFault → ConfigCode
  | .unreadable => .intText
  | .tooLong => .intSize

def readInt : Json → Read Int
  | .boolean b => .ok (if b then 1 else 0)
  | .integer n => .ok n
  | .real x =>
    match x.toInt? with
    | some n => if isMachineInt n then .ok n else .error [([], .intSize)]
    | none =>
      .error [([], match x with | .finite .. => .intFraction | _ => .intNotFinite)]
  | .string s => (Numeral.integer s).mapError fun fault => [([], ofNumeralFault fault)]
  | .unpaired _ => .error [([], .unpaired)]
  | _ => .error [([], .intType)]

def readCount (v : Json) : Read Nat := do
  let n ← readInt v
  if 0 < n then return n.toNat else throw [([], .tooSmall)]

def normalExtension (ext : String) : String :=
  if ext.startsWith "." then lowercase ext else "." ++ lowercase ext

/-- Elements from the given position on; every one that is no text is a fault. -/
def readExtensionsFrom (index : Nat) : List Json → Read (List String)
  | [] => .ok []
  | item :: rest =>
    match readString item, readExtensionsFrom (index + 1) rest with
    | .ok s, .ok more => .ok (normalExtension s :: more)
    | .ok _, .error faults => .error faults
    | .error _, .ok _ => .error [([Nat.repr index], .string)]
    | .error _, .error faults => .error (([Nat.repr index], .string) :: faults)

def readExtensions : Json → Read (List String)
  | .array items => readExtensionsFrom 0 items
  | _ => .error [([], .tuple)]

/-- Puts a setting into a configuration; none if there is no setting of the name. -/
def assign? (c : Config) (name : String) (v : Json) : Option (Read Config) :=
  match name with
  | "default_start_node" => some ((readString v).map fun x => { c with startNode := x })
  | "script_extensions" => some ((readExtensions v).map fun x => { c with extensions := x })
  | "strict_interpolation" => some ((readBool v).map fun x => { c with strictText := x })
  | "auto_advance_to_choices" => some ((readBool v).map fun x => { c with autoChoices := x })
  | "max_steps" => some ((readCount v).map fun x => { c with maxSteps := x })
  | "register_builtins" => some ((readBool v).map fun x => { c with builtins := x })
  | "allow_node_overrides" => some ((readBool v).map fun x => { c with overrides := x })
  | _ => none

/-- The faults of one setting, in the order of reports. -/
def located (name : String) (faults : List (List String × ConfigCode)) : List ConfigError :=
  (faults.map fun (path, code) => ConfigError.mk (name :: path) code).mergeSort ConfigError.before

/-- Settings over the default ones, or everything that is wrong with them. -/
def ofFields (fields : List (String × Json)) : Except (List ConfigError) Config :=
  let (config, errors) := fields.foldl (fun (config, errors) (name, v) =>
    match config.assign? name v with
    | none => (config, errors ++ [⟨[name], .unknownSetting⟩])
    | some (.ok config) => (config, errors)
    | some (.error faults) => (config, errors ++ located name faults))
    (({} : Config), ([] : List ConfigError))
  if errors.isEmpty then .ok config else .error (errors.mergeSort ConfigError.before)

def ofJson : Json → Except (List ConfigError) Config
  | .object fields => ofFields fields
  | .unpairedKey => .error [⟨[], .unpaired⟩]
  | _ => .error [⟨[], .notAnObject⟩]

/-- Changes one setting; a value that does not read leaves the configuration as it was. Names that
start with an underscore are free for notes, which nothing here reads, unless they are reserved. -/
def set (c : Config) (name : String) (v : Json) : Except SettingFault Config :=
  match c.assign? name v, ReservedName.ofName? name v with
  | some (.ok c), _ => .ok c
  | some (.error faults), _ => .error (.invalid (located name faults))
  | none, some r => .error (.reserved r)
  | none, none =>
    if name.startsWith "_" then .ok c else .error (.invalid [⟨[name], .noSuchSetting⟩])

/-- All settings by name. -/
def fields (c : Config) : List (String × Json) :=
  [("default_start_node", .string c.startNode),
    ("script_extensions", .array (c.extensions.map Json.string)),
    ("strict_interpolation", .boolean c.strictText),
    ("auto_advance_to_choices", .boolean c.autoChoices),
    ("max_steps", .integer c.maxSteps),
    ("register_builtins", .boolean c.builtins),
    ("allow_node_overrides", .boolean c.overrides)]

end Config
end Parley
