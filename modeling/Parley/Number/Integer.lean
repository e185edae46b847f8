import Parley.Number.Numeral

/-! # Integer numerals

An integer may be written with white space around it, a sign, zeros in front, single underscores
between its digits, and a point with zeros after it. -/

namespace Parley

inductive NumeralFault where
  | unreadable
  | tooLong
deriving DecidableEq, Repr

namespace Numeral

/-- How many digits a numeral may have. -/
def integerLimit : Nat := 4300

/-- A minus sign, perhaps, and digits that start with a zero only if no other follows. Too many
digits are reported as such even if something else stands behind them. -/
def plainInteger (cs : List Char) : Except NumeralFault Int :=
  let (negative, body) := match cs with
    | '-' :: rest => (true, rest)
    | _ => (false, cs)
  let digits := body.takeWhile Char.isDigit
  let leadingZero := digits.head? == some '0'
  if !leadingZero && integerLimit < digits.length then .error .tooLong
  else if digits.isEmpty || digits.length < body.length || (leadingZero && 1 < digits.length) then
    .error .unreadable
  else .ok (if negative then -(value digits : Int) else value digits)

/-- What follows a zero, and zeros and underscores after it: digits, a minus sign, or a point, which
keeps the character before it. Where nothing else follows, the last character remains. -/
def afterZero? (last : Char) : List Char → Option (List Char)
  | [] => some [last]
  | c :: rest =>
    if c = '0' || c = '_' then afterZero? c rest
    else if c = '.' then some (last :: c :: rest)
    else if c.isDigit || c = '-' then some (c :: rest)
    else none

def withoutLeadingZeros? : List Char → Option (List Char)
  | [] => none
  | c :: rest =>
    if c = '0' then afterZero? c rest
    else if c.isDigit then some (c :: rest)
    else none

/-- Drops a point with nothing but zeros after it, of which there must be one. -/
def withoutZeroFraction (cs : List Char) : List Char :=
  match cs.dropWhile (· != '.') with
  | '.' :: '0' :: zeros => if zeros.all (· == '0') then cs.takeWhile (· != '.') else cs
  | _ => cs

/-- There are underscores, each between two other characters. -/
def isGrouped (cs : List Char) : Bool :=
  cs.contains '_' && cs.head? != some '_' && cs.getLast? != some '_' &&
    (cs.zip cs.tail).all fun pair => pair != ('_', '_')

/-- Digits without what may be left out of them. -/
def plainDigits? (cs : List Char) : Option (List Char) := do
  let short := withoutZeroFraction (← withoutLeadingZeros? cs)
  return if isGrouped short then short.filter (· != '_') else short

/-- The plain form of a numeral. -/
def plainForm? : List Char → Option (List Char)
  | '-' :: rest => ('-' :: ·) <$> plainDigits? rest
  | '+' :: rest => plainDigits? rest
  | cs => plainDigits? cs

/-- White space around a numeral; the control separators are not part of it. -/
def isPadding (c : Char) : Bool := isSpace c && !(0x1C ≤ c.toNat && c.toNat ≤ 0x1F)

/-- The integer that a text spells. That it is too long is noticed only if it is plain, with nothing
in front of it. -/
def integer (text : String) : Except NumeralFault Int :=
  match plainInteger text.toList, (plainForm? (strip isPadding text.toList)).map plainInteger with
  | .error .unreadable, some (.ok n) => .ok n
  | answer, _ => answer

end Numeral
end Parley
