import Parley.Json.Basic

/-! # Writing JSON -/

namespace Parley
namespace Json

def hexDigit (n : Nat) : Char := (Nat.digitChar n)

/-- A character inside a string: quotes, backslashes and control characters are escaped. -/
def printChar (c : Char) : List Char :=
  if c = '"' then ['\\', '"']
  else if c = '\\' then ['\\', '\\']
  else if c.toNat < 0x20 then
    ['\\', 'u', '0', '0', hexDigit (c.toNat / 16), hexDigit (c.toNat % 16)]
  else [c]

def printString (s : String) : String :=
  String.ofList ('"' :: s.toList.flatMap printChar ++ ['"'])

mutual

def print : Json → String
  | null => "null"
  | boolean b => if b then "true" else "false"
  | integer n => n.repr
  | real x => x.written
  | string s | unpaired s => printString s
  | array items => "[" ++ ",".intercalate (printItems items) ++ "]"
  | object fields => "\x7b" ++ ",".intercalate (printFields fields) ++ "\x7d"
  | unpairedKey => "\x7b\x7d"

def printItems : List Json → List String
  | [] => []
  | item :: rest => item.print :: printItems rest

def printFields : List (String × Json) → List String
  | [] => []
  | (key, value) :: rest => (printString key ++ ":" ++ value.print) :: printFields rest

end

end Json
end Parley
