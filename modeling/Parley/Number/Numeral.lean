import Parley.Number.Decimal
import Parley.Text.Class
import Parley.Text.Digit

/-! # Numerals

`Binary64.written` shows every number apart from every other; `Binary64.text` is what a script sees,
where a number without a fraction is written as an integer. `Numeral.read?` reads both, and the
numerals of a script. -/

namespace Parley

/-- `count` zeros. -/
def zeroDigits (count : Nat) : String := String.ofList (List.replicate count '0')

namespace Decimal

/-- The exponent of ten of the leading digit. -/
def leading (d : Decimal) : Int := d.exponent + (decimalLength d.digits : Int) - 1

/-- Digits around a point, at least one on either side. -/
def positional (d : Decimal) : String :=
  let digits := Nat.repr d.digits
  match d.exponent with
  | .ofNat e => digits ++ zeroDigits e ++ ".0"
  | .negSucc e =>
    let size := digits.length
    if e + 1 < size then
      String.ofList (digits.toList.take (size - (e + 1))) ++ "."
        ++ String.ofList (digits.toList.drop (size - (e + 1)))
    else "0." ++ zeroDigits (e + 1 - size) ++ digits

/-- One digit before the point, the exponent signed and of at least two digits. -/
def scientific (d : Decimal) : String :=
  let tail := match (Nat.repr d.digits).toList with
    | [] => ""
    | [c] => c.toString
    | c :: rest => c.toString ++ "." ++ String.ofList rest
  let size := d.leading.natAbs
  tail ++ (if d.leading < 0 then "e-" else "e+") ++ (if size < 10 then "0" else "") ++ Nat.repr size

/-- Positional from `10 ^ -4` up to below `10 ^ 16`, scientific elsewhere. -/
def written (d : Decimal) : String :=
  if -4 ≤ d.leading ∧ d.leading < 16 then d.positional else d.scientific

end Decimal

namespace Binary64

/-- The fewest digits that identify the number. -/
def written : Binary64 → String
  | .nan => "nan"
  | .infinite negative => if negative then "-inf" else "inf"
  | .finite negative u _ =>
    (if negative then "-" else "") ++ (if u = 0 then "0.0" else (shortest u).written)

/-- The text of a number in a script. -/
def text (x : Binary64) : String :=
  match x with
  | .nan => "NaN"
  | .infinite negative => if negative then "-Infinity" else "Infinity"
  | .finite .. =>
    match x.toInt? with
    | some n => n.repr
    | none => x.written

end Binary64

namespace Numeral

/-- Drops the underscores that stand between two digits; any other refuses the text. -/
def withoutSeparators? (afterDigit : Bool) : List Char → Option (List Char)
  | [] => some []
  | c :: rest =>
    if c = '_' then
      if afterDigit && (rest.head?.any Char.isDigit) then withoutSeparators? false rest else none
    else (c :: ·) <$> withoutSeparators? c.isDigit rest

/-- The value of a list of digits. -/
def value (digits : List Char) : Nat :=
  digits.foldl (fun n c => 10 * n + (c.toNat - '0'.toNat)) 0

/-- A sign, if there is one, and what follows it. -/
def sign : List Char → Bool × List Char
  | '-' :: rest => (true, rest)
  | '+' :: rest => (false, rest)
  | cs => (false, cs)

/-- The part after the digits: nothing, or an exponent. -/
def exponent? : List Char → Option Int
  | [] => some 0
  | c :: rest =>
    let (negative, digits) := sign rest
    if (c = 'e' || c = 'E') && !digits.isEmpty && digits.all Char.isDigit then
      some (if negative then -(value digits : Int) else value digits)
    else none

/-- Digits with at most one point among them, then perhaps an exponent. -/
def decimal? (cs : List Char) : Option Decimal :=
  let whole := cs.takeWhile Char.isDigit
  let rest := cs.dropWhile Char.isDigit
  let (fraction, tail) := match rest with
    | '.' :: after => (after.takeWhile Char.isDigit, after.dropWhile Char.isDigit)
    | _ => ([], rest)
  if whole.isEmpty && fraction.isEmpty then none
  else (exponent? tail).map fun e => ⟨value (whole ++ fraction), e - fraction.length⟩

/-- The plain form of a character of a numeral: any white space beyond ASCII is a blank, and a digit
of any script is the digit of its value. -/
def plainChar? (c : Char) : Option Char :=
  if c.toNat < 0x7F then some c
  else if isSpace c then some ' '
  else (decimalDigit? c).map Nat.digitChar

/-- White space that may stand around a numeral. -/
def isMargin (c : Char) : Bool := c == ' ' || (0x09 ≤ c.toNat && c.toNat ≤ 0x0D)

/-- The number that a numeral stands for. -/
def read? (cs : List Char) : Option Binary64 := do
  let (negative, body) := sign (← withoutSeparators? false (strip isMargin (← cs.mapM plainChar?)))
  match String.ofList (body.map Char.toLower) with
  | "nan" => return .nan
  | "inf" => return .infinite negative
  | "infinity" => return .infinite negative
  | _ => return (← decimal? body).toBinary negative

end Numeral
end Parley
