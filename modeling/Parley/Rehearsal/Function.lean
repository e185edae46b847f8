import Parley.Rehearsal.Cue

/-! # Scripted functions

The signatures of the functions that a rehearsal can set up, and what those answer that need no
state. -/

namespace Parley
namespace FunctionKind

def param (name : String) (expected : Expected) : Param := { name, expected }

def orNothing (a : Expected) : Expected := .union "Optional" [a, .nothing]

/-- The signature of a function; absent for one that works on script values or checks its arguments
itself. -/
def signature : FunctionKind → Signature
  | dice => ⟨[param "sides" .integer], none⟩
  | half => ⟨[param "value" .real], none⟩
  | greet => ⟨[param "name" .string], none⟩
  | flip => ⟨[param "b" .boolean], none⟩
  | pick => ⟨[param "name" (orNothing .string), param "extra" .unchecked], none⟩
  | total => ⟨[], some (param "values" .integer)⟩
  | mean => ⟨[], some (param "values" .real)⟩
  | roll => ⟨[param "sides" .integer, ⟨"bonus", .real, some (.real .zero)⟩], none⟩
  | either => ⟨[param "v" (.union "int | str" [.integer, .string])], none⟩
  | maybe => ⟨[⟨"v", orNothing .integer, some .none⟩], none⟩
  | anything => ⟨[param "x" .unchecked, ⟨"y", .unchecked, some .none⟩], none⟩
  | untyped => ⟨[param "x" .unchecked], some (param "rest" .unchecked)⟩
  | odd => ⟨[param "x" .unchecked], none⟩
  | _ => ⟨[], none⟩

def body (kind : FunctionKind) (code : Handle) : FunctionBody :=
  match kind with
  | maximum => .unchecked code
  | peek | typeOf | first => .raw code
  | _ => .checked kind.signature code

/-- Calls of the function show in a record of the rehearsal. -/
def isTraced : FunctionKind → Bool
  | maximum | typeOf | first => false
  | _ => true

/-- What the code of a function says about itself. -/
def documentation : FunctionKind → String
  | dice => "Roll a fixed die."
  | greet => "\n    Greets by name.\n    "
  | maximum =>
    "max(iterable, *[, default=obj, key=func]) -> value\n" ++
    "max(arg1, arg2, *args, *[, key=func]) -> value\n\n" ++
    "With a single iterable argument, return its biggest item. The\n" ++
    "default keyword-only argument specifies an object to return if\n" ++
    "the provided iterable is empty.\n" ++
    "With two or more arguments, return the largest argument."
  | _ => ""

def natOne : Binary64 := (Binary64.ofInt? 1).getD .zero

def realOf : Native → Binary64
  | .integer n => (Binary64.ofInt? n).getD .nan
  | .real x => x
  | .boolean b => if b then natOne else .zero
  | _ => .zero

def intOf : Native → Int
  | .integer n => n
  | .boolean b => if b then 1 else 0
  | _ => 0

/-- The order of two values; strings compare among themselves, numbers and booleans among
themselves. -/
def greater? (a b : Native) : Option Bool :=
  match a, b with
  | .string s, .string t => some (decide (t < s))
  | .string _, _ | _, .string _ => none
  | .none, _ | _, .none => none
  | a, b => some ((realOf b).less (realOf a))

/-- The first of the largest values, starting from `best`. -/
def largest (best : Native) : List Native → Except HostError Native
  | [] => .ok best
  | v :: rest =>
    match greater? v best with
    | none =>
      .error (.unsuitable
        s!"'>' not supported between instances of '{v.typeName}' and '{best.typeName}'")
    | some true => largest v rest
    | some false => largest best rest

def maximumOf : List Native → Except HostError Native
  | [] => .error (.unsuitable "max expected at least 1 argument, got 0")
  | [.string s] =>
    match s.toList.map fun c => Native.string c.toString with
    | [] => .error (.value "max() arg is an empty sequence")
    | c :: rest => largest c rest
  | [v] => .error (.unsuitable s!"'{v.typeName}' object is not iterable")
  | v :: rest => largest v rest

def meanOf : List Native → Native
  | [] => .none
  | args =>
    let sum := args.foldl (fun (sum : Binary64) v => sum.add (realOf v)) .zero
    .real (sum.div (realOf (.integer args.length)))

/-- What a function without a state answers. -/
def answer (kind : FunctionKind) (args : List Native) : Except HostError Native :=
  let arg (i : Nat) : Native := (args[i]?).getD .none
  match kind with
  | half => .ok (.real ((realOf (arg 0)).div (natOne.add natOne)))
  | greet => .ok (match arg 0 with | .string s => .string ("Hello, " ++ s) | v => v)
  | flip => .ok (match arg 0 with | .boolean b => .boolean (!b) | v => v)
  | pick => .ok (match arg 0 with | .none => arg 1 | v => v)
  | total => .ok (.integer (args.foldl (fun sum v => sum + intOf v) 0))
  | mean => .ok (meanOf args)
  | roll => .ok (.real ((realOf (arg 0)).add (realOf (arg 1))))
  | items => .ok (.list [.integer 1, .integer 2])
  | maximum => maximumOf args
  | _ => .ok (arg 0)

/-- What a function on script values answers. -/
def rawAnswer (kind : FunctionKind) (args : List Value) : Except HostError Native :=
  match kind, args with
  | typeOf, [v] => .ok (.string v.typeName)
  | typeOf, [] => .error (.unsuitable "type_of() missing 1 required positional argument: 'v'")
  | typeOf, args =>
    .error (.unsuitable s!"type_of() takes 1 positional argument but {args.length} were given")
  | first, .number x :: _ => .ok (.real x)
  | first, v :: _ => .ok v.toNative
  | _, _ => .ok .none

end FunctionKind
end Parley
