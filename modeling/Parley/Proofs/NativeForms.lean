import Parley.Value
import Mathlib.Algebra.Order.Group.Int

/-! # Native forms of values

A number without a fraction goes to the host as an integer and is read back as the nearest number to it. That
number is the one it was: a representable count of steps is its own rounding. Only the sign of zero is lost. -/

namespace Parley

theorem divNearest_of_dvd {num den : Nat} (hden : 0 < den) (h : num % den = 0) : divNearest num den = num / den := by
  simp [divNearest, h, hden]

theorem roundRatio_of_representable {u : Nat} (h : Representable u) : roundRatio u 1 = u := by
  have hstep : 0 < Nat.pow 2 (u.log2 - 52) := Nat.pow_pos (by decide)
  dsimp only [roundRatio]
  rw [Nat.div_one, Nat.one_mul, divNearest_of_dvd hstep h.2]
  exact Nat.div_mul_cancel (Nat.dvd_of_mod_eq_zero h.2)

namespace Binary64

/-- The same number; minus zero becomes zero. -/
def plainZero (x : Binary64) : Binary64 := if x.isZero then zero else x

theorem ofRatio_of_representable {negative : Bool} {u : Nat} (ok : Representable u) :
    ofRatio negative u 1 = .finite negative u ok := by
  rw [ofRatio, roundRatio_of_representable ok, ofUnits, dif_pos ok]

theorem ofInt?_eq_finite {n : Int} {negative : Bool} {u : Nat} (ok : Representable u) (hs : (n < 0 : Bool) = negative)
    (hu : n.natAbs * unit = u) : ofInt? n = some (.finite negative u ok) := by
  subst hs
  cases n with
  | ofNat k =>
    rw [Int.natAbs] at hu
    rw [ofInt?, hu, ofRatio_of_representable ok]
    rfl
  | negSucc k =>
    rw [Int.natAbs] at hu
    rw [ofInt?, hu, ofRatio_of_representable ok, decide_eq_true (Int.negSucc_lt_zero k)]
    rfl

theorem ofInt?_zero : ofInt? 0 = some zero :=
  ofInt?_eq_finite representable_zero rfl (by rw [Int.natAbs_zero, Nat.zero_mul])

theorem toInt?_of_isZero {x : Binary64} (h : x.isZero) : x.toInt? = some 0 := by
  cases x with
  | nan => cases h
  | infinite negative => cases h
  | finite negative u ok =>
    have hu : u = 0 := by simpa only [isZero, beq_iff_eq] using h
    have hq : u / unit = 0 := by rw [hu, Nat.zero_div]
    rw [toInt?, if_pos (by rw [hu, Nat.zero_mod]), hq]
    cases negative <;> rfl

/-- The integer that a number stands for is read back as that number. -/
theorem ofInt?_of_toInt? {x : Binary64} {n : Int} (h : x.toInt? = some n) : ofInt? n = some x.plainZero := by
  by_cases hz : x.isZero
  · obtain rfl : 0 = n := Option.some.inj ((toInt?_of_isZero hz).symm.trans h)
    rw [ofInt?_zero, plainZero, if_pos hz]
  rw [plainZero, if_neg hz]
  cases x with
  | nan => cases h
  | infinite negative => cases h
  | finite negative u ok =>
    have hu : u % unit = 0 := by
      by_contra hu
      rw [toInt?, if_neg hu] at h
      cases h
    have hn : (if negative then -((u / unit : Nat) : Int) else ((u / unit : Nat) : Int)) = n := by
      rw [toInt?, if_pos hu] at h
      exact Option.some.inj h
    have hq : u / unit * unit = u := Nat.div_mul_cancel (Nat.dvd_of_mod_eq_zero hu)
    generalize u / unit = q at hn hq
    have hq0 : q ≠ 0 := by
      rintro rfl
      exact hz (by simp only [isZero, ← hq, Nat.zero_mul, beq_self_eq_true])
    refine ofInt?_eq_finite ok ?_ ?_
    · rw [← hn]
      cases negative with
      | true => exact decide_eq_true (by rw [if_pos rfl]; omega)
      | false => exact decide_eq_false (by rw [if_neg Bool.false_ne_true]; omega)
    · have habs : n.natAbs = q := by
        rw [← hn]
        cases negative <;> simp
      rw [habs, hq]

theorem plainZero_of_toInt?_eq_none {x : Binary64} (h : x.toInt? = none) : x.plainZero = x :=
  if_neg fun hz => Option.some_ne_none 0 ((toInt?_of_isZero hz).symm.trans h)

theorem toInt?_plainZero (x : Binary64) : x.plainZero.toInt? = x.toInt? := by
  unfold plainZero
  split
  · next hz => rw [toInt?_of_isZero hz, toInt?_of_isZero (by rfl)]
  · rfl

theorem rank?_of_isZero {x : Binary64} (h : x.isZero) : x.rank? = some 0 := by
  cases x with
  | nan => cases h
  | infinite negative => cases h
  | finite negative u ok =>
    have hu : u = 0 := by simpa only [isZero, beq_iff_eq] using h
    cases negative <;> simp [rank?, hu]

theorem rank?_plainZero (x : Binary64) : x.plainZero.rank? = x.rank? := by
  unfold plainZero
  split
  · next hz => rw [rank?_of_isZero hz, rank?_of_isZero (by rfl)]
  · rfl

theorem exists_rank {x : Binary64} (h : x ≠ .nan) : ∃ place, x.rank? = some place := by
  cases x with
  | nan => exact absurd rfl h
  | infinite | finite => exact ⟨_, rfl⟩

theorem equals_plainZero {x : Binary64} (h : x ≠ .nan) : x.equals x.plainZero := by
  obtain ⟨place, hplace⟩ := exists_rank h
  rw [equals, compareWith, rank?_plainZero, hplace]
  exact beq_self_eq_true place

end Binary64

namespace Value

/-- The same value; minus zero becomes zero. -/
def plainZero : Value → Value
  | number x => number x.plainZero
  | v => v

/-- A value that goes to the host and comes back is the same but for the sign of zero. -/
theorem ofNative_toNative (v : Value) : ofNative v.toNative = .ok v.plainZero := by
  cases v with
  | number x =>
    rw [toNative, plainZero]
    cases hx : x.toInt? with
    | none => rw [ofNative, Binary64.plainZero_of_toInt?_eq_none hx]
    | some n => rw [ofNative, Binary64.ofInt?_of_toInt? hx]
  | _ => rfl

theorem toNative_plainZero (v : Value) : v.plainZero.toNative = v.toNative := by
  cases v with
  | number x =>
    rw [plainZero, toNative, toNative, Binary64.toInt?_plainZero]
    split
    · rfl
    · next hx => rw [Binary64.plainZero_of_toInt?_eq_none hx]
  | _ => rfl

theorem typeName_plainZero (v : Value) : v.plainZero.typeName = v.typeName := by cases v <;> rfl

theorem equals_plainZero {v : Value} (h : v ≠ .number .nan) : v.equals v.plainZero := by
  cases v with
  | number x => exact Binary64.equals_plainZero fun hx => h (hx ▸ rfl)
  | string s => simp [plainZero, equals]
  | boolean b => simp [plainZero, equals]
  | null => rfl

end Value
end Parley
