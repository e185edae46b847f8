import Parley.Number.Binary64

/-! # Decimal numerals

`Decimal.toBinary` is the number nearest to a decimal. `Binary64.shortest` goes back: among the
decimals that round to a number it takes one with the fewest digits, and of those the nearest. -/

namespace Parley

/-- The value `digits * 10 ^ exponent`. -/
structure Decimal where
  digits : Nat
  exponent : Int
deriving DecidableEq, Repr

/-- How many decimal digits a number has; zero has one. -/
def decimalLength (n : Nat) : Nat :=
  if n < 10 then 1 else decimalLength (n / 10) + 1

namespace Decimal

/-- The count of steps nearest to a decimal. -/
def toUnits (d : Decimal) : Nat :=
  match d.exponent with
  | .ofNat e => roundRatio (d.digits * Nat.pow 10 e * Binary64.unit) 1
  | .negSucc e => roundRatio (d.digits * Binary64.unit) (Nat.pow 10 (e + 1))

/-- The number nearest to a decimal. Far outside the range of finite numbers the answer is known
before any power of ten is taken. -/
def toBinary (negative : Bool) (d : Decimal) : Binary64 :=
  if d.digits = 0 then .ofUnits negative 0
  else
    let top := d.exponent + decimalLength d.digits
    if 400 < top then .infinite negative
    else if top < -400 then .ofUnits negative 0
    else .ofUnits negative d.toUnits

/-- Moves the zeros at the end of the digits into the exponent. -/
def strip (digits : Nat) (exponent : Int) : Decimal :=
  if h : digits = 0 then ⟨0, exponent⟩
  else if digits % 10 = 0 then
    have : digits / 10 < digits := Nat.div_lt_self (Nat.pos_of_ne_zero h) (by decide)
    strip (digits / 10) (exponent + 1)
  else ⟨digits, exponent⟩
termination_by digits

end Decimal

namespace Binary64

/-- The exponent of ten of the leading digit of a positive count of steps. -/
def leadingExponent (units : Nat) : Int :=
  (decimalLength (units * Nat.pow 10 400 / unit) : Int) - 401

/-- `units` in whole parts of `10 ^ exponent`, as a ratio. -/
def ratioAt (units : Nat) (exponent : Int) : Nat × Nat :=
  match exponent with
  | .ofNat e => (units, unit * Nat.pow 10 e)
  | .negSucc e => (units * Nat.pow 10 (e + 1), unit)

/-- The multiple of `10 ^ exponent` nearest to `units`, if any multiple of it rounds to them. -/
def nearestAt? (units : Nat) (exponent : Int) : Option Decimal :=
  let (num, den) := ratioAt units exponent
  let low := num / den
  let lowFits := (Decimal.mk low exponent).toUnits == units
  let highFits := (Decimal.mk (low + 1) exponent).toUnits == units
  if lowFits && highFits then some ⟨divNearest num den, exponent⟩
  else if lowFits then some ⟨low, exponent⟩
  else if highFits then some ⟨low + 1, exponent⟩
  else none

/-- The decimal of at most `count` digits nearest to `units`, if any of them rounds to it. -/
def shortestOf? (units count : Nat) : Option Decimal := nearestAt? units (leadingExponent units + 1 - count)

/-- A shortest decimal that reads back as a positive count of steps. Seventeen digits suffice; the
exact value stands after them. -/
def shortest (units : Nat) : Decimal :=
  let found := (List.range 17).findSome? fun i => shortestOf? units (i + 1)
  let d := found.getD ⟨units * Nat.pow 5 1074, -1074⟩
  .strip d.digits d.exponent

end Binary64
end Parley
