import Parley.Proofs.NativeForms
import Mathlib.Algebra.Order.Field.Power
import Mathlib.Algebra.Order.Floor.Semifield
import Mathlib.Data.Rat.Floor
import Mathlib.Tactic.FieldSimp
import Mathlib.Tactic.Linarith
import Mathlib.Tactic.Positivity
import Mathlib.Tactic.Ring

/-! # What decimals and counts of steps stand for

Both stand for rational numbers, and rounding sees nothing else of them (`toUnits_congr`). A shortest decimal of a
count is read back as that count, whether it was found among few digits or is the exact value. It lies between the
same powers of ten as the count, of which it may be the upper one (`shortest_spec`). -/

namespace Parley

/-! ### Rounding of ratios -/

section Ratios
variable {num den num' den' : Nat}

theorem divNearest_scale {k : Nat} (hk : 0 < k) (num den : Nat) :
    divNearest (k * num) (k * den) = divNearest num den := by
  have htwice : 2 * (k * num % (k * den)) = k * (2 * (num % den)) := by rw [Nat.mul_mod_mul_left]; ring
  unfold divNearest
  simp only [htwice, Nat.mul_div_mul_left _ _ hk, Nat.mul_lt_mul_left hk]

theorem roundRatio_scale {k : Nat} (hk : 0 < k) (num den : Nat) :
    roundRatio (k * num) (k * den) = roundRatio num den := by
  simp only [roundRatio, Nat.mul_div_mul_left _ _ hk, Nat.mul_assoc, divNearest_scale hk]

/-- Equal ratios are rounded alike. -/
theorem roundRatio_congr (hden : 0 < den) (hden' : 0 < den') (h : num * den' = num' * den) :
    roundRatio num den = roundRatio num' den' :=
  calc roundRatio num den
    _ = roundRatio (den' * num) (den' * den) := (roundRatio_scale hden' num den).symm
    _ = roundRatio (den * num') (den * den') := by rw [mul_comm den' num, h, mul_comm num' den, mul_comm den' den]
    _ = roundRatio num' den' := roundRatio_scale hden num' den'

end Ratios

theorem Binary64.unit_pos : 0 < unit := by decide +kernel

/-! ### Decimals -/

theorem lt_pow_decimalLength (n : Nat) : n < 10 ^ decimalLength n := by
  induction n using decimalLength.induct with
  | case1 n h => rw [decimalLength, if_pos h]; omega
  | case2 n h ih =>
    rw [decimalLength, if_neg h, Nat.pow_succ]
    omega

theorem pow_decimalLength_le {n : Nat} (hn : 0 < n) : 10 ^ decimalLength n ≤ 10 * n := by
  induction n using decimalLength.induct with
  | case1 n h => rw [decimalLength, if_pos h]; omega
  | case2 n h ih =>
    have ih := ih (by omega)
    rw [decimalLength, if_neg h, Nat.pow_succ]
    omega

namespace Decimal
variable {d d' : Decimal}

/-- What the decimal stands for. -/
def value (d : Decimal) : ℚ := d.digits * 10 ^ d.exponent

/-- The exponent of the leading digit tells how large the decimal is. -/
theorem le_leading_iff (h : d.digits ≠ 0) {k : Int} : k ≤ d.leading ↔ (10 : ℚ) ^ k ≤ d.value := by
  have hten : (1 : ℚ) < 10 := by norm_num
  have hexp : (0 : ℚ) < 10 ^ d.exponent := by positivity
  have hlead : (10 : ℚ) ^ d.leading * 10 = 10 ^ decimalLength d.digits * 10 ^ d.exponent := by
    rw [← zpow_natCast, ← zpow_add₀ (by norm_num), ← zpow_add_one₀ (by norm_num), leading]
    congr 1
    omega
  refine ⟨fun hk => ?_, fun hk => ?_⟩
  · have hlow : (10 : ℚ) ^ decimalLength d.digits ≤ 10 * d.digits := mod_cast pow_decimalLength_le (by omega)
    have hmul := mul_le_mul_of_nonneg_right hlow hexp.le
    refine (zpow_le_zpow_right₀ hten.le hk).trans ?_
    rw [value]
    linarith
  · have hhigh : (d.digits : ℚ) < 10 ^ decimalLength d.digits := mod_cast lt_pow_decimalLength d.digits
    have hmul : d.value < 10 ^ decimalLength d.digits * 10 ^ d.exponent := mul_lt_mul_of_pos_right hhigh hexp
    rw [← hlead, ← zpow_add_one₀ (by norm_num)] at hmul
    exact Int.lt_add_one_iff.mp ((zpow_lt_zpow_iff_right₀ hten).mp (hk.trans_lt hmul))

/-- The count nearest to a decimal is a ratio rounded, and the ratio is the value of the decimal in steps. -/
theorem exists_ratio (d : Decimal) :
    ∃ num den : Nat, 0 < den ∧ d.toUnits = roundRatio num den ∧ (num : ℚ) / den = d.value * Binary64.unit := by
  obtain ⟨digits, exponent⟩ := d
  cases exponent with
  | ofNat e =>
    refine ⟨digits * 10 ^ e * Binary64.unit, 1, Nat.one_pos, rfl, ?_⟩
    simp only [value, Int.ofNat_eq_natCast, zpow_natCast, Nat.cast_mul, Nat.cast_pow, Nat.cast_ofNat, Nat.cast_one,
      div_one]
  | negSucc e =>
    refine ⟨digits * Binary64.unit, 10 ^ (e + 1), by positivity, rfl, ?_⟩
    simp only [value, zpow_negSucc]
    push_cast
    ring

theorem toUnits_congr (h : d.value = d'.value) : d.toUnits = d'.toUnits := by
  obtain ⟨num, den, hden, hd, hratio⟩ := d.exists_ratio
  obtain ⟨num', den', hden', hd', hratio'⟩ := d'.exists_ratio
  rw [hd, hd']
  refine roundRatio_congr hden hden' ?_
  rw [← h, ← hratio, div_eq_div_iff (by positivity) (by positivity)] at hratio'
  exact_mod_cast hratio'.symm

/-- A decimal that stands for a count of steps is read as that count. -/
theorem toUnits_of_value {u : Nat} (ok : Representable u) (h : d.value = u / Binary64.unit) : d.toUnits = u := by
  obtain ⟨num, den, hden, hd, hratio⟩ := d.exists_ratio
  have hunit : (Binary64.unit : ℚ) ≠ 0 := mod_cast Binary64.unit_pos.ne'
  rw [h, div_mul_cancel₀ _ hunit, div_eq_iff (by positivity)] at hratio
  rw [hd, ← roundRatio_of_representable ok]
  refine roundRatio_congr hden Nat.one_pos ?_
  rw [mul_one]
  exact_mod_cast hratio

theorem strip_spec (digits : Nat) (exponent : Int) :
    (strip digits exponent).value = (Decimal.mk digits exponent).value ∧
      (digits ≠ 0 → (strip digits exponent).digits ≠ 0) := by
  induction digits, exponent using strip.induct with
  | case1 => simp [strip, value]
  | case2 digits exponent h hten hlt ih =>
    rw [strip, dif_neg h, if_pos hten]
    refine ⟨ih.1.trans ?_, fun _ => ih.2 (by omega)⟩
    have hdigits : (digits : ℚ) = (digits / 10 : Nat) * 10 :=
      mod_cast (Nat.div_mul_cancel (Nat.dvd_of_mod_eq_zero hten)).symm
    simp only [value]
    rw [hdigits, zpow_add_one₀ (by norm_num)]
    ring
  | case3 digits exponent h hten =>
    rw [strip, dif_neg h, if_neg hten]
    exact ⟨rfl, id⟩

end Decimal

namespace Binary64
variable {u count : Nat}

/-- What the count of steps stands for. -/
def magnitude (u : Nat) : ℚ := u / unit

/-- The leading digit of a ratio is that of the ratio in smaller parts. -/
theorem bounds_of_scaled {num den k : Nat} (hnum : 0 < num) (hden : 0 < den) (hk : den ≤ Nat.pow 10 k) {lead : Int}
    (hlead : decimalLength (num * Nat.pow 10 k / den) = lead + 1 + k) :
    (10 : ℚ) ^ lead ≤ num / den ∧ (num : ℚ) / den < 10 ^ (lead + 1) := by
  rw [Nat.pow_eq] at hk hlead
  have hscale : (0 : ℚ) < 10 ^ k := by positivity
  have hpos : 0 < num * 10 ^ k / den := Nat.div_pos (hk.trans (Nat.le_mul_of_pos_left _ hnum)) hden
  generalize hn : num * 10 ^ k / den = n at hpos hlead
  refine ⟨?_, ?_⟩
  · have hfloor : n * den ≤ num * 10 ^ k := hn ▸ Nat.div_mul_le_self _ _
    have hlow : (10 : ℚ) ^ lead ≤ (Decimal.mk n (-k)).value :=
      (Decimal.le_leading_iff hpos.ne').mp (by simp only [Decimal.leading]; omega)
    refine hlow.trans ?_
    rw [Decimal.value, zpow_neg, zpow_natCast, ← div_eq_mul_inv, div_le_div_iff₀ hscale (by positivity)]
    exact_mod_cast hfloor
  · have hceil : num * 10 ^ k < 10 ^ decimalLength n * den :=
      (Nat.div_lt_iff_lt_mul hden).mp (hn ▸ lt_pow_decimalLength n)
    have hsplit : (10 : ℚ) ^ decimalLength n = 10 ^ (lead + 1) * 10 ^ k := by
      rw [← zpow_natCast, ← zpow_natCast, ← zpow_add₀ (by norm_num), hlead]
    have hceil : (num : ℚ) * 10 ^ k < 10 ^ (lead + 1) * den * 10 ^ k := by
      rw [mul_right_comm, ← hsplit]
      exact_mod_cast hceil
    rw [div_lt_iff₀ (by positivity)]
    exact lt_of_mul_lt_mul_right hceil hscale.le

theorem leadingExponent_bounds (hu : 0 < u) :
    (10 : ℚ) ^ leadingExponent u ≤ magnitude u ∧ magnitude u < 10 ^ (leadingExponent u + 1) := by
  have hfine : unit ≤ Nat.pow 10 400 := by decide +kernel
  refine bounds_of_scaled hu unit_pos hfine ?_
  unfold leadingExponent
  omega

theorem ratioAt_eq_floor (u : Nat) (exponent : Int) :
    (ratioAt u exponent).1 / (ratioAt u exponent).2 = ⌊magnitude u / 10 ^ exponent⌋₊ := by
  rw [← Nat.floor_div_eq_div (K := ℚ)]
  congr 1
  cases exponent with
  | ofNat e =>
    simp only [ratioAt, magnitude, Nat.pow_eq, Int.ofNat_eq_natCast, zpow_natCast]
    push_cast
    rw [div_div]
  | negSucc e =>
    simp only [ratioAt, magnitude, Nat.pow_eq, zpow_negSucc]
    push_cast
    rw [div_inv_eq_mul, div_mul_eq_mul_div]

theorem divNearest_eq_or (num den : Nat) : divNearest num den = num / den ∨ divNearest num den = num / den + 1 := by
  unfold divNearest
  dsimp only
  split_ifs <;> simp

/-- What is found among the decimals of one exponent is one of the two nearest, and read back. -/
theorem nearestAt?_spec {d : Decimal} {exponent : Int} (h : nearestAt? u exponent = some d) :
    d.toUnits = u ∧ d.exponent = exponent ∧
      (d.digits = ⌊magnitude u / 10 ^ exponent⌋₊ ∨ d.digits = ⌊magnitude u / 10 ^ exponent⌋₊ + 1) := by
  have hfloor := ratioAt_eq_floor u exponent
  unfold nearestAt? at h
  generalize ratioAt u exponent = ratio at h hfloor
  obtain ⟨num, den⟩ := ratio
  have hnear := divNearest_eq_or num den
  simp only [Bool.and_eq_true, beq_iff_eq] at h hfloor
  rw [hfloor] at h hnear
  split_ifs at h with hboth hlow hhigh
  · cases h
    refine ⟨?_, rfl, hnear⟩
    rcases hnear with heq | heq <;> rw [heq]
    · exact hboth.1
    · exact hboth.2
  · cases h
    exact ⟨hlow, rfl, .inl rfl⟩
  · cases h
    exact ⟨hhigh, rfl, .inr rfl⟩

/-- Decimals of so many digits that are next to the count lie between the powers of ten around it. -/
theorem value_bounds {d : Decimal} (hu : 0 < u) (hcount : 0 < count) (hexp : d.exponent = leadingExponent u + 1 - count)
    (hdigits : d.digits = ⌊magnitude u / 10 ^ d.exponent⌋₊ ∨ d.digits = ⌊magnitude u / 10 ^ d.exponent⌋₊ + 1) :
    (10 : ℚ) ^ leadingExponent u ≤ d.value ∧ d.value ≤ 10 ^ (leadingExponent u + 1) := by
  obtain ⟨hlow, hhigh⟩ := leadingExponent_bounds hu
  have hstep : (0 : ℚ) < 10 ^ d.exponent := by positivity
  obtain ⟨n, rfl⟩ : ∃ n, count = n + 1 := Nat.exists_eq_add_one.mpr hcount
  -- the powers of ten around the count are `10 ^ n` and `10 ^ (n + 1)` in steps of the last digit
  have hsplit : (10 : ℚ) ^ leadingExponent u = 10 ^ n * 10 ^ d.exponent ∧
      (10 : ℚ) ^ (leadingExponent u + 1) = 10 ^ (n + 1) * 10 ^ d.exponent := by
    rw [← zpow_natCast, ← zpow_natCast, ← zpow_add₀ (by norm_num), ← zpow_add₀ (by norm_num), hexp]
    constructor <;> congr 1 <;> push_cast <;> ring
  rw [hsplit.1, ← le_div_iff₀ hstep] at hlow
  rw [hsplit.2, ← div_lt_iff₀ hstep] at hhigh
  have hfloor : 10 ^ n ≤ ⌊magnitude u / 10 ^ d.exponent⌋₊ := Nat.le_floor (mod_cast hlow)
  have hceil : ⌊magnitude u / 10 ^ d.exponent⌋₊ < 10 ^ (n + 1) :=
    (Nat.floor_lt (le_trans (by positivity) hlow)).mpr (mod_cast hhigh)
  have hfirst : (10 ^ n : ℚ) ≤ d.digits := mod_cast (by omega : 10 ^ n ≤ d.digits)
  have hlast : (d.digits : ℚ) ≤ 10 ^ (n + 1) := mod_cast (by omega : d.digits ≤ 10 ^ (n + 1))
  rw [hsplit.1, hsplit.2, Decimal.value]
  exact ⟨mul_le_mul_of_nonneg_right hfirst hstep.le, mul_le_mul_of_nonneg_right hlast hstep.le⟩

/-- In as many digits as it takes, a count is a decimal exactly. -/
theorem exact_value {steps five k : Nat} (hsteps : 0 < steps) (h : steps * five = Nat.pow 10 k) (u : Nat) :
    (Decimal.mk (u * five) (-k)).value = u / steps := by
  have h : (steps : ℚ) * five = 10 ^ k := mod_cast h
  rw [Decimal.value, zpow_neg, zpow_natCast, ← div_eq_mul_inv, div_eq_div_iff (by positivity) (by positivity), ← h]
  push_cast
  ring

/-- The last zeros do not matter. -/
theorem strip_bounds {d : Decimal} (hunits : d.toUnits = u) (hlow : (10 : ℚ) ^ leadingExponent u ≤ d.value)
    (hhigh : d.value ≤ 10 ^ (leadingExponent u + 1)) :
    let s := Decimal.strip d.digits d.exponent
    s.toUnits = u ∧ s.digits ≠ 0 ∧ (10 : ℚ) ^ leadingExponent u ≤ s.value ∧ s.value ≤ 10 ^ (leadingExponent u + 1) := by
  obtain ⟨hvalue, hdigits⟩ := Decimal.strip_spec d.digits d.exponent
  have hpos : d.digits ≠ 0 := fun hzero => by
    rw [Decimal.value, hzero, Nat.cast_zero, zero_mul] at hlow
    exact absurd hlow (not_le.mpr (by positivity))
  exact ⟨(Decimal.toUnits_congr hvalue).trans hunits, hdigits hpos, hvalue ▸ hlow, hvalue ▸ hhigh⟩

theorem shortest_spec (ok : Representable u) (hu : 0 < u) :
    (shortest u).toUnits = u ∧ (shortest u).digits ≠ 0 ∧
      (10 : ℚ) ^ leadingExponent u ≤ (shortest u).value ∧ (shortest u).value ≤ 10 ^ (leadingExponent u + 1) := by
  have hten : unit * Nat.pow 5 1074 = Nat.pow 10 1074 := by decide +kernel
  unfold shortest
  generalize Nat.pow 5 1074 = five at hten ⊢
  cases hfound : (List.range 17).findSome? fun i => shortestOf? u (i + 1) with
  | some d =>
    obtain ⟨i, -, hi⟩ := List.exists_of_findSome?_eq_some hfound
    obtain ⟨hunits, hexp, hdigits⟩ := nearestAt?_spec hi
    obtain ⟨hlow, hhigh⟩ := value_bounds hu i.succ_pos hexp (hexp ▸ hdigits)
    exact strip_bounds hunits hlow hhigh
  | none =>
    have hvalue : (Decimal.mk (u * five) (-(1074 : Nat))).value = magnitude u := exact_value unit_pos hten u
    obtain ⟨hlow, hhigh⟩ := leadingExponent_bounds hu
    exact strip_bounds (Decimal.toUnits_of_value ok hvalue) (hvalue ▸ hlow) (hvalue ▸ hhigh.le)

end Binary64
end Parley
