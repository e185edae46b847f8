import Parley.Number.Numeral

/-! # JSON values

An object keeps its fields in the order of their first writing. A text can hold half of a surrogate
pair, which is no character; such texts are kept apart from the others. -/

namespace Parley

inductive Json where
  | null
  | boolean (value : Bool)
  | integer (value : Int)
  | real (value : Binary64)
  | string (value : String)
  /-- A text with half of a surrogate pair in it, where the replacement character stands. -/
  | unpaired (value : String)
  | array (items : List Json)
  | object (fields : List (String × Json))
  /-- An object that has such a text among its keys. -/
  | unpairedKey
deriving Inhabited

namespace Json

/-- Writes a field; a field that is there keeps its place. -/
def setField (key : String) (value : Json) : List (String × Json) → List (String × Json)
  | [] => [(key, value)]
  | field :: rest =>
    if field.1 = key then (key, value) :: rest else field :: setField key value rest

def field? : Json → String → Option Json
  | object fields, key => fields.lookup key
  | _, _ => none

def items : Json → List Json
  | array items => items
  | _ => []

def string? : Json → Option String
  | string s => some s
  | _ => none

def integer? : Json → Option Int
  | integer n => some n
  | _ => none

/-- The name of a kind of value. -/
def kindName : Json → String
  | null => "NoneType"
  | boolean _ => "bool"
  | integer _ => "int"
  | real _ => "float"
  | string _ | unpaired _ => "str"
  | array _ => "list"
  | object _ | unpairedKey => "dict"

end Json
end Parley
