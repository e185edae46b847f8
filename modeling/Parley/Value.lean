import Parley.Number.Numeral
import Parley.Text.Quoted

/-! # Values

A script computes with numbers, strings, booleans and null. A host hands over native values, of
which integers are a kind of their own; a number without a fraction goes back as an integer. -/

namespace Parley

/-- What a host can hand over. Lists and maps have no counterpart in a script. -/
inductive Native where
  | none
  | boolean (value : Bool)
  | integer (value : Int)
  | real (value : Binary64)
  | string (value : String)
  | list (items : List Native)
  | map (entries : List (String × Native))
deriving Inhabited

inductive Value where
  | number (value : Binary64)
  | string (value : String)
  | boolean (value : Bool)
  | null
deriving DecidableEq, Inhabited

namespace Native

def typeName : Native → String
  | none => "NoneType"
  | boolean _ => "bool"
  | integer _ => "int"
  | real _ => "float"
  | string _ => "str"
  | list _ => "list"
  | map _ => "dict"

end Native

/-- Why a native value has no counterpart. -/
inductive ConversionFault where
  /-- The integer lies past the largest number. -/
  | overflow
  | unsupported (typeName : String)
deriving DecidableEq, Repr

namespace Value

def typeName : Value → String
  | number _ => "Number"
  | string _ => "String"
  | boolean _ => "Boolean"
  | null => "Null"

def isString : Value → Bool
  | string _ => true
  | _ => false

def ofNative : Native → Except ConversionFault Value
  | .none => .ok null
  | .boolean b => .ok (boolean b)
  | .integer n =>
    match Binary64.ofInt? n with
    | some x => .ok (number x)
    | Option.none => .error .overflow
  | .real x => .ok (number x)
  | .string s => .ok (string s)
  | v => .error (.unsupported v.typeName)

def toNative : Value → Native
  | number x =>
    match x.toInt? with
    | some n => .integer n
    | Option.none => .real x
  | string s => .string s
  | boolean b => .boolean b
  | null => .none

/-- The equality of scripts: null equals only null, and values of two types are never equal. -/
def equals : Value → Value → Bool
  | number x, number y => x.equals y
  | string s, string t => s == t
  | boolean b, boolean c => b == c
  | null, null => true
  | _, _ => false

/-- The text of a value in a script. -/
def text : Value → String
  | number x => x.text
  | string s => s
  | boolean b => if b then "true" else "false"
  | null => "null"

/-- The form that shows the type of a value. -/
def debugText (v : Value) : String :=
  match v with
  | string s => s!"RuntimeValue.string({quoteText s})"
  | _ => s!"RuntimeValue({v.typeName}, {v.text})"

end Value
end Parley
