import Parley.Json.Basic

/-! # Reading JSON

The whole text must be one value between white space. Besides the numbers of the format, `NaN`,
`Infinity` and `-Infinity` are read; a number with neither fraction nor exponent is an integer, of
which no more than so many digits are read. Of two fields of one name the later value counts. -/

namespace Parley
namespace Json

inductive ReadError where
  | malformed
  /-- An integer of too many digits. -/
  | digits (count : Nat)
deriving DecidableEq, Repr

/-- How many digits an integer may have. -/
def integerLimit : Nat := 4300

def isJsonSpace (c : Char) : Bool := c == ' ' || c == '\t' || c == '\n' || c == '\r'

def skipSpace (cs : List Char) : List Char := cs.dropWhile isJsonSpace

def hexValue (c : Char) : Except ReadError Nat :=
  if c.isDigit then .ok (c.toNat - '0'.toNat)
  else if 'a' ≤ c ∧ c ≤ 'f' then .ok (c.toNat - 'a'.toNat + 10)
  else if 'A' ≤ c ∧ c ≤ 'F' then .ok (c.toNat - 'A'.toNat + 10)
  else .error .malformed

/-- Four hexadecimal digits. -/
def readUnit : List Char → Except ReadError (Nat × List Char)
  | a :: b :: c :: d :: rest => do
    let a ← hexValue a
    let b ← hexValue b
    let c ← hexValue c
    let d ← hexValue d
    return (((a * 16 + b) * 16 + c) * 16 + d, rest)
  | _ => .error .malformed

/-- The character after `\u`: one unit, or two that make a pair. Half of a pair that stands alone is
none. -/
def unicodeEscape (cs : List Char) : Except ReadError (Option Char × List Char) := do
  let (high, rest) ← readUnit cs
  let single := (if 0xD800 ≤ high ∧ high < 0xE000 then none else some (Char.ofNat high), rest)
  if 0xD800 ≤ high ∧ high < 0xDC00 then
    match rest with
    | '\\' :: 'u' :: more =>
      let (low, after) ← readUnit more
      if 0xDC00 ≤ low ∧ low < 0xE000 then
        return (some (Char.ofNat (0x10000 + (high - 0xD800) * 0x400 + (low - 0xDC00))), after)
      else return single
    | _ => return single
  else return single

def escape : Char → Except ReadError Char
  | '"' => .ok '"'
  | '\\' => .ok '\\'
  | '/' => .ok '/'
  | 'b' => .ok (Char.ofNat 8)
  | 'f' => .ok (Char.ofNat 12)
  | 'n' => .ok '\n'
  | 'r' => .ok '\r'
  | 't' => .ok '\t'
  | _ => .error .malformed

/-- The rest of a string after its opening quote. -/
def readString : Nat → List Char → Except ReadError (List (Option Char) × List Char)
  | 0, _ => .error .malformed
  | _, [] => .error .malformed
  | _, '"' :: rest => .ok ([], rest)
  | fuel + 1, '\\' :: 'u' :: rest => do
    let (c, rest) ← unicodeEscape rest
    let (text, rest) ← readString fuel rest
    return (c :: text, rest)
  | fuel + 1, '\\' :: c :: rest => do
    let c ← escape c
    let (text, rest) ← readString fuel rest
    return (some c :: text, rest)
  | fuel + 1, c :: rest =>
    if c.toNat < 0x20 || c = '\\' then .error .malformed
    else do
      let (text, rest) ← readString fuel rest
      return (some c :: text, rest)

/-- The text with the replacement character for what is none. -/
def replaced (text : List (Option Char)) : String :=
  String.ofList (text.map fun c => c.getD (Char.ofNat 0xFFFD))

def ofText (text : List (Option Char)) : Json :=
  if text.all Option.isSome then string (replaced text) else unpaired (replaced text)

/-- Digits after a point or an exponent mark; none of them, and the part is not read. -/
def optionalPart (opens : List Char → Option (List Char × List Char)) (cs : List Char) :
    List Char × List Char :=
  match opens cs with
  | none => ([], cs)
  | some (opening, rest) =>
    let digits := rest.takeWhile Char.isDigit
    if digits.isEmpty then ([], cs) else (opening ++ digits, rest.dropWhile Char.isDigit)

def opensFraction : List Char → Option (List Char × List Char)
  | '.' :: rest => some (['.'], rest)
  | _ => none

def opensExponent : List Char → Option (List Char × List Char)
  | c :: rest =>
    if c = 'e' || c = 'E' then
      match rest with
      | '+' :: rest => some (['e'], rest)
      | '-' :: rest => some (['e', '-'], rest)
      | rest => some (['e'], rest)
    else none
  | [] => none

/-- A number, after its sign. -/
def readNumber (negative : Bool) (cs : List Char) : Except ReadError (Json × List Char) :=
  let whole := match cs with
    | '0' :: _ => ['0']
    | _ => cs.takeWhile Char.isDigit
  let (fraction, rest) := optionalPart opensFraction (cs.drop whole.length)
  let (exponent, rest) := optionalPart opensExponent rest
  if whole.isEmpty then .error .malformed
  else if fraction.isEmpty && exponent.isEmpty then
    if integerLimit < whole.length then .error (.digits whole.length)
    else
      let n : Int := Numeral.value whole
      .ok (integer (if negative then -n else n), rest)
  else
    match Numeral.decimal? (whole ++ fraction ++ exponent) with
    | some d => .ok (real (d.toBinary negative), rest)
    | none => .error .malformed

def dropWord? (word : String) (cs : List Char) : Option (List Char) :=
  if word.toList.isPrefixOf cs then some (cs.drop word.length) else none

/-- A value that is neither a string nor a container. -/
def readAtom (cs : List Char) : Except ReadError (Json × List Char) :=
  let words : List (String × Json) :=
    [("null", null), ("true", boolean true), ("false", boolean false), ("NaN", real .nan),
      ("Infinity", real (.infinite false)), ("-Infinity", real (.infinite true))]
  match words.findSome? fun (word, value) => (dropWord? word cs).map fun rest => (value, rest) with
  | some found => .ok found
  | none =>
    match cs with
    | '-' :: rest => readNumber true rest
    | _ => readNumber false cs

/-- The object of the given keys and values, in the order of the text. -/
def ofFields (fields : List (List (Option Char) × Json)) : Json :=
  if fields.all fun field => field.1.all Option.isSome then
    object (fields.foldl (fun done (key, value) => setField (replaced key) value done) [])
  else unpairedKey

mutual

def readValue : Nat → List Char → Except ReadError (Json × List Char)
  | 0, _ => .error .malformed
  | fuel + 1, '"' :: rest => do
    let (text, rest) ← readString fuel rest
    return (ofText text, rest)
  | fuel + 1, '[' :: rest =>
    match skipSpace rest with
    | ']' :: rest => .ok (array [], rest)
    | rest => readItems fuel [] rest
  | fuel + 1, '{' :: rest =>
    match skipSpace rest with
    | '}' :: rest => .ok (object [], rest)
    | rest => readFields fuel [] rest
  | _, cs => readAtom cs

/-- Items from one on; `done` holds the earlier ones, the last of them first. -/
def readItems : Nat → List Json → List Char → Except ReadError (Json × List Char)
  | 0, _, _ => .error .malformed
  | fuel + 1, done, cs => do
    let (item, rest) ← readValue fuel cs
    match skipSpace rest with
    | ',' :: rest => readItems fuel (item :: done) (skipSpace rest)
    | ']' :: rest => return (array (item :: done).reverse, rest)
    | _ => throw .malformed

/-- Fields from one on, as `readItems` reads items. -/
def readFields : Nat → List (List (Option Char) × Json) → List Char →
    Except ReadError (Json × List Char)
  | 0, _, _ => .error .malformed
  | fuel + 1, done, '"' :: rest => do
    let (key, rest) ← readString fuel rest
    match skipSpace rest with
    | ':' :: rest =>
      let (value, rest) ← readValue fuel (skipSpace rest)
      let done := (key, value) :: done
      match skipSpace rest with
      | ',' :: rest => readFields fuel done (skipSpace rest)
      | '}' :: rest => return (ofFields done.reverse, rest)
      | _ => throw .malformed
    | _ => throw .malformed
  | _, _, _ => .error .malformed

end

/-- The value of a text that is JSON. -/
def read (text : String) : Except ReadError Json := do
  let cs := text.toList
  let (value, rest) ← readValue (2 * cs.length + 2) (skipSpace cs)
  if (skipSpace rest).isEmpty then return value else throw .malformed

end Json
end Parley
