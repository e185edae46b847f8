/-! # Binary floating-point numbers

A finite number is a sign and a count of steps of `2 ^ -1074`, so sums, comparisons and remainders
are taken on whole numbers and only the last step rounds. `roundRatio` is that step: the nearest
count with 53 significant bits, a tie going to the even one. -/

namespace Parley

/-- The count of steps in `2 ^ 1024`, where the range of finite numbers ends. -/
def unitsEnd : Nat := Nat.pow 2 2098

/-- Counts of steps that a finite number may hold: 53 significant bits, below `2 ^ 1024`. -/
def Representable (units : Nat) : Prop :=
  units < unitsEnd ∧ units % Nat.pow 2 (units.log2 - 52) = 0

instance (units : Nat) : Decidable (Representable units) :=
  inferInstanceAs (Decidable (_ ∧ _))

inductive Binary64 where
  | nan
  | infinite (negative : Bool)
  | finite (negative : Bool) (units : Nat) (ok : Representable units)
deriving DecidableEq

/-- `num / den` to the nearest whole number, a tie to the even one. -/
def divNearest (num den : Nat) : Nat :=
  let q := num / den
  let twice := 2 * (num % den)
  if twice < den then q
  else if den < twice then q + 1
  else if q % 2 = 0 then q else q + 1

/-- `num / den` to the nearest number of 53 significant bits, unbounded above. -/
def roundRatio (num den : Nat) : Nat :=
  let step := Nat.pow 2 ((num / den).log2 - 52)
  divNearest num (den * step) * step

theorem representable_zero : Representable 0 := ⟨by decide +kernel, by decide +kernel⟩

namespace Binary64

/-- The count of steps in one. -/
def unit : Nat := Nat.pow 2 1074

/-- A count past the range is an infinity. -/
def ofUnits (negative : Bool) (units : Nat) : Binary64 :=
  if h : Representable units then .finite negative units h else .infinite negative

def ofRatio (negative : Bool) (num den : Nat) : Binary64 :=
  ofUnits negative (roundRatio num den)

def zero : Binary64 := .finite false 0 representable_zero

instance : Inhabited Binary64 := ⟨zero⟩

/-- The number itself, unless it is an infinity. -/
def finite? : Binary64 → Option Binary64
  | .infinite _ => none
  | x => some x

/-- The nearest number to an integer; `none` when it lies past the largest finite one. -/
def ofInt? : Int → Option Binary64
  | .ofNat n => (ofRatio false (n * unit) 1).finite?
  | .negSucc n => (ofRatio true ((n + 1) * unit) 1).finite?

/-- The integer that a finite number without a fraction stands for. -/
def toInt? : Binary64 → Option Int
  | .finite negative u _ =>
    if u % unit = 0 then
      some (if negative then -((u / unit : Nat) : Int) else ((u / unit : Nat) : Int))
    else none
  | _ => none

def isNaN : Binary64 → Bool
  | .nan => true
  | _ => false

def isZero : Binary64 → Bool
  | .finite _ u _ => u == 0
  | _ => false

def isNegative : Binary64 → Bool
  | .nan => false
  | .infinite negative => negative
  | .finite negative _ _ => negative

/-- The place of a number on the line, in steps; both zeros share one, the infinities lie outside
the finite range, and what is not a number has none. -/
def rank? : Binary64 → Option Int
  | .nan => none
  | .infinite negative => some (if negative then -(unitsEnd : Int) else unitsEnd)
  | .finite negative u _ => some (if negative then -(u : Int) else u)

/-- Compares places; false when either number has none. -/
def compareWith (test : Int → Int → Bool) (a b : Binary64) : Bool :=
  match a.rank?, b.rank? with
  | some x, some y => test x y
  | _, _ => false

def equals : Binary64 → Binary64 → Bool := compareWith fun x y => x == y
def less : Binary64 → Binary64 → Bool := compareWith fun x y => decide (x < y)
def lessEq : Binary64 → Binary64 → Bool := compareWith fun x y => decide (x ≤ y)

def neg : Binary64 → Binary64
  | .nan => .nan
  | .infinite negative => .infinite (!negative)
  | .finite negative u ok => .finite (!negative) u ok

def add : Binary64 → Binary64 → Binary64
  | .finite s u _, .finite t v _ =>
    if s = t then ofRatio s (u + v) 1
    else if v < u then ofRatio s (u - v) 1
    else if u < v then ofRatio t (v - u) 1
    else zero
  | .infinite s, .infinite t => if s = t then .infinite s else .nan
  | .infinite s, .finite .. => .infinite s
  | .finite .., .infinite t => .infinite t
  | .nan, _ => .nan
  | _, .nan => .nan

def sub (a b : Binary64) : Binary64 := a.add b.neg

def mul : Binary64 → Binary64 → Binary64
  | .finite s u _, .finite t v _ => ofRatio (s != t) (u * v) unit
  | .infinite s, .infinite t => .infinite (s != t)
  | .infinite s, .finite t v _ => if v = 0 then .nan else .infinite (s != t)
  | .finite s u _, .infinite t => if u = 0 then .nan else .infinite (s != t)
  | .nan, _ => .nan
  | _, .nan => .nan

def div : Binary64 → Binary64 → Binary64
  | .finite s u _, .finite t v _ =>
    if v = 0 then (if u = 0 then .nan else .infinite (s != t))
    else ofRatio (s != t) (u * unit) v
  | .infinite _, .infinite _ => .nan
  | .infinite s, .finite t _ _ => .infinite (s != t)
  | .finite s _ _, .infinite t => .finite (s != t) 0 representable_zero
  | .nan, _ => .nan
  | _, .nan => .nan

/-- The remainder with the sign of the dividend; an infinite dividend or a zero divisor has none. -/
def rem : Binary64 → Binary64 → Binary64
  | .finite s u _, .finite _ v _ => if v = 0 then .nan else ofRatio s (u % v) 1
  | .finite s u ok, .infinite _ => .finite s u ok
  | _, _ => .nan

end Binary64
end Parley
