import Parley.Proofs.Decimals
import Parley.Proofs.RoundTrip

/-! # Numbers that are written in digits

A number is written as a decimal numeral if it is whole or no fraction below a ten-thousandth (`Binary64.Plain`). Such a
text is scanned as one token and read back as the number (`canonical_of_plain`): what stands before and after the point
is that shortest decimal which rounding takes to the number again. A smaller fraction is written with an exponent, an
infinity with a word, and the scanner of numerals knows neither. -/

namespace Parley

namespace Numeral

theorem value_eq_ofDigitChars (cs : List Char) : value cs = Nat.ofDigitChars 10 cs 0 :=
  Nat.ofDigitChars_eq_foldl.symm

theorem isDigit_of_mem_repr {n : Nat} {c : Char} (hc : c ∈ n.repr.toList) : c.isDigit = true := by
  rw [Nat.toList_repr] at hc
  exact Nat.isDigit_of_mem_toDigits (by decide) (by decide) hc

theorem repr_toList_ne_nil (n : Nat) : n.repr.toList ≠ [] := by
  rw [Nat.toList_repr]
  exact Nat.toDigits_ne_nil

theorem value_repr (n : Nat) : value n.repr.toList = n := by
  rw [value_eq_ofDigitChars, Nat.toList_repr, Nat.ofDigitChars_ten_toDigits]

theorem spells_repr (n : Nat) : Spells n.repr.toList ⟨n, 0⟩ := by
  have h := Spells.whole (repr_toList_ne_nil n) fun c => isDigit_of_mem_repr
  rwa [value_repr] at h

theorem isDigit_of_mem_zeros {k : Nat} {c : Char} (hc : c ∈ List.replicate k '0') : c.isDigit = true := by
  rw [List.eq_of_mem_replicate hc]
  rfl

/-- Digits around a point spell a decimal of the same value. -/
theorem exists_spells_positional (d : Decimal) : ∃ d', Spells d.positional.toList d' ∧ d'.value = d.value := by
  obtain ⟨n, exponent⟩ := d
  cases exponent with
  | ofNat e =>
    have hws : ∀ c ∈ n.repr.toList ++ List.replicate e '0', c.isDigit = true := fun c hc =>
      (List.mem_append.mp hc).elim isDigit_of_mem_repr isDigit_of_mem_zeros
    have h : Spells (n.repr.toList ++ List.replicate e '0' ++ '.' :: ['0']) _ :=
      .point (by simp) hws (by simp) (by simp)
    have hvalue : value (n.repr.toList ++ List.replicate e '0' ++ ['0']) = n * 10 ^ (e + 1) := by
      rw [value_eq_ofDigitChars, List.append_assoc, ← List.replicate_succ', Nat.ofDigitChars_append,
        Nat.ofDigitChars_replicate_zero, ← value_eq_ofDigitChars, value_repr, Nat.mul_comm]
    rw [hvalue] at h
    refine ⟨_, by simpa [Decimal.positional, zeroDigits] using h, ?_⟩
    simp only [Decimal.value, Int.ofNat_eq_natCast, zpow_natCast]
    push_cast
    rw [pow_succ, zpow_neg_one]
    field_simp
  | negSucc e =>
    -- all digits are there, and as many behind the point as the exponent says
    have hspelled {ws fs : List Char} (hws : ws ≠ []) (hfs : fs ≠ []) (hdigits : ∀ c ∈ ws ++ fs, c.isDigit = true)
        (hvalue : value (ws ++ fs) = n) (hlength : fs.length = e + 1) :
        Spells (ws ++ '.' :: fs) ⟨n, Int.negSucc e⟩ := by
      have h := Spells.point hws (fun c hc => hdigits c (by simp [hc])) hfs fun c hc => hdigits c (by simp [hc])
      rwa [hvalue, hlength] at h
    have hlength : n.repr.toList.length = n.repr.length := String.length_toList
    by_cases hsize : e + 1 < n.repr.length
    · generalize hk : n.repr.length - (e + 1) = k
      have hwhole : n.repr.toList.take k ++ n.repr.toList.drop k = n.repr.toList := List.take_append_drop k _
      have h := @hspelled (n.repr.toList.take k) (n.repr.toList.drop k)
        (List.ne_nil_of_length_pos (by rw [List.length_take]; omega))
        (List.ne_nil_of_length_pos (by rw [List.length_drop]; omega))
        (by rw [hwhole]; exact fun c => isDigit_of_mem_repr) (by rw [hwhole, value_repr])
        (by rw [List.length_drop]; omega)
      exact ⟨_, by simpa [Decimal.positional, hsize, hk] using h, rfl⟩
    · generalize hk : e + 1 - n.repr.length = k
      have h := @hspelled ['0'] (List.replicate k '0' ++ n.repr.toList) (by simp) (by simp)
        (fun c hc => ?_) ?_ (by rw [List.length_append, List.length_replicate]; omega)
      · exact ⟨_, by simpa [Decimal.positional, hsize, hk, zeroDigits] using h, rfl⟩
      · simp only [List.singleton_append, List.mem_cons, List.mem_append] at hc
        rcases hc with rfl | hc | hc
        · rfl
        · exact isDigit_of_mem_zeros hc
        · exact isDigit_of_mem_repr hc
      · rw [List.singleton_append, ← List.cons_append, ← List.replicate_succ, value_eq_ofDigitChars,
          Nat.ofDigitChars_append, Nat.ofDigitChars_replicate_zero, Nat.mul_zero, ← value_eq_ofDigitChars, value_repr]

end Numeral

namespace Decimal
variable {d d' : Decimal}

theorem digits_ne_zero_iff : d.digits ≠ 0 ↔ d.value ≠ 0 := by
  simp [value, zpow_ne_zero]

theorem leading_congr (h : d.value = d'.value) (hd : d.digits ≠ 0) : d.leading = d'.leading := by
  have hd' : d'.digits ≠ 0 := by rwa [digits_ne_zero_iff, ← h, ← digits_ne_zero_iff]
  refine le_antisymm ?_ ?_
  · rw [le_leading_iff hd', ← h, ← le_leading_iff hd]
  · rw [le_leading_iff hd, h, ← le_leading_iff hd']

theorem leading_lt {k : Nat} (hd : d.digits ≠ 0) (h : d.value < (Nat.pow 10 k : Nat)) : d.leading < k := by
  by_contra hk
  rw [not_lt, le_leading_iff hd, zpow_natCast] at hk
  rw [Nat.pow_eq, Nat.cast_pow] at h
  exact absurd h (not_lt.mpr hk)

/-- Within the range of finite numbers a decimal is the count of steps nearest to it. -/
theorem toBinary_eq_finite {u : Nat} (ok : Representable u) (hd : d.digits ≠ 0) (hunits : d.toUnits = u)
    (hlow : -400 ≤ d.leading) (hhigh : d.leading < 400) : d.toBinary false = .finite false u ok := by
  simp only [leading] at hlow hhigh
  unfold toBinary
  dsimp only
  rw [if_neg hd, if_neg (by omega), if_neg (by omega), hunits, Binary64.ofUnits, dif_pos ok]

theorem not_spells_scientific (d d' : Decimal) : ¬ Numeral.Spells d.scientific.toList d' := by
  intro h
  have hmem : 'e' ∈ d.scientific.toList := by
    unfold scientific
    by_cases hneg : d.leading < 0 <;> simp [hneg]
  exact absurd (h.mem 'e' hmem) (by decide)

end Decimal

namespace Binary64
variable {u : Nat} (ok : Representable u)

/-- The number is whole, or no fraction below a ten-thousandth. -/
def Plain : Binary64 → Prop
  | .finite _ u _ => u % unit = 0 ∨ unit ≤ u * 10 ^ 4
  | _ => False

instance : DecidablePred Plain
  | .finite .. => inferInstanceAs (Decidable (_ ∨ _))
  | .nan | .infinite _ => inferInstanceAs (Decidable False)

/-- A numeral of this text stands for the number. -/
theorem canonical_of_spells {x : Binary64} {d : Decimal} (h : Numeral.Spells x.text.toList d)
    (hd : d.toBinary false = x) : x.Canonical :=
  ⟨⟨d, h⟩, by rw [Numeral.read?_of_spells h, hd]⟩

theorem pos_of_mod_ne_zero {n : Nat} (h : u % n ≠ 0) : 0 < u :=
  Nat.pos_of_ne_zero fun hu => h (hu ▸ Nat.zero_mod n)

theorem le_magnitude_iff : (1 : ℚ) / 10 ^ 4 ≤ magnitude u ↔ unit ≤ u * 10 ^ 4 := by
  rw [magnitude, div_le_div_iff₀ (by norm_num) (by exact_mod_cast unit_pos), one_mul]
  exact_mod_cast Iff.rfl

theorem text_whole (h : u % unit = 0) : (finite false u ok).text = (u / unit).repr := by
  simp only [text, toInt?, h, if_true, Bool.false_eq_true, if_false]
  rfl

theorem text_fraction (h : u % unit ≠ 0) : (finite false u ok).text = (shortest u).written := by
  have hu : u ≠ 0 := (pos_of_mod_ne_zero h).ne'
  simp [text, toInt?, h, written, hu]

theorem canonical_whole (h : u % unit = 0) : (finite false u ok).Canonical := by
  refine canonical_of_spells (by rw [text_whole ok h]; exact Numeral.spells_repr _) ?_
  have hq : u / unit * unit = u := Nat.div_mul_cancel (Nat.dvd_of_mod_eq_zero h)
  by_cases hzero : u / unit = 0
  · obtain rfl : u = 0 := by rw [← hq, hzero, Nat.zero_mul]
    rw [hzero, Decimal.toBinary, if_pos rfl, ofUnits, dif_pos ok]
  · have hvalue : (Decimal.mk (u / unit) 0).value = (u / unit : Nat) := by simp [Decimal.value]
    have hunits : (Decimal.mk (u / unit) 0).toUnits = u := by
      refine Decimal.toUnits_of_value ok (hvalue.trans ?_)
      rw [eq_div_iff (by exact_mod_cast unit_pos.ne')]
      exact_mod_cast hq
    have hlow : 0 ≤ (Decimal.mk (u / unit) 0).leading := by
      rw [Decimal.le_leading_iff hzero, hvalue, zpow_zero]
      exact_mod_cast Nat.one_le_iff_ne_zero.mpr hzero
    obtain ⟨k, hk, hend⟩ : ∃ k, k ≤ 400 ∧ unitsEnd ≤ Nat.pow 10 k * unit := ⟨400, le_rfl, by decide +kernel⟩
    have hhigh : (Decimal.mk (u / unit) 0).leading < k := by
      refine Decimal.leading_lt hzero ?_
      rw [hvalue, Nat.cast_lt, Nat.div_lt_iff_lt_mul unit_pos]
      exact ok.1.trans_le hend
    exact Decimal.toBinary_eq_finite ok hzero hunits (by omega) (by omega)

/-- A count of steps that is no multiple of a power of two has its 53 bits no more than 52 above it. -/
theorem lt_of_mod_ne_zero {k : Nat} (hbits : u % Nat.pow 2 (u.log2 - 52) = 0) (h : u % Nat.pow 2 k ≠ 0) :
    u < Nat.pow 2 k * 2 ^ 53 := by
  by_contra hge
  have hu : u ≠ 0 := (pos_of_mod_ne_zero h).ne'
  have hlog : k + 53 ≤ u.log2 := (Nat.le_log2 hu).mpr (by rw [pow_add]; exact not_lt.mp hge)
  have hdvd : Nat.pow 2 k ∣ Nat.pow 2 (u.log2 - 52) := Nat.pow_dvd_pow 2 (by omega)
  exact h (Nat.mod_eq_zero_of_dvd (hdvd.trans (Nat.dvd_of_mod_eq_zero hbits)))

include ok in
theorem magnitude_lt (h : u % unit ≠ 0) : magnitude u < 2 ^ 53 := by
  have hlt : u < unit * 2 ^ 53 := by
    obtain ⟨k, hk⟩ : ∃ k, unit = Nat.pow 2 k := ⟨1074, by delta unit; rfl⟩
    rw [hk] at h ⊢
    exact lt_of_mod_ne_zero ok.2 h
  rw [magnitude, div_lt_iff₀' (by exact_mod_cast unit_pos)]
  exact_mod_cast hlt

section Fractions
variable {k : Int}
include ok

/-- No power of ten is above the count and below its shortest decimal. -/
theorem shortest_eq_of_le (hu : 0 < u) (hk : magnitude u < 10 ^ k) (hle : (10 : ℚ) ^ k ≤ (shortest u).value) :
    (Decimal.mk 1 k).toUnits = u := by
  obtain ⟨hunits, -, -, hto⟩ := shortest_spec ok hu
  have hlead : leadingExponent u < k :=
    (zpow_lt_zpow_iff_right₀ (by norm_num : (1 : ℚ) < 10)).mp ((leadingExponent_bounds hu).1.trans_lt hk)
  have hvalue : (shortest u).value = (Decimal.mk 1 k).value := by
    refine le_antisymm (hto.trans ?_) ?_
    · rw [Decimal.value, Nat.cast_one, one_mul]
      exact zpow_le_zpow_right₀ (by norm_num) hlead
    · rwa [Decimal.value, Nat.cast_one, one_mul]
  rw [← Decimal.toUnits_congr hvalue, hunits]

/-- Nor the other way round. -/
theorem le_value_shortest (hu : 0 < u) (hk : (10 : ℚ) ^ k ≤ magnitude u) : (10 : ℚ) ^ k ≤ (shortest u).value := by
  obtain ⟨-, -, hfrom, -⟩ := shortest_spec ok hu
  have hlead : k < leadingExponent u + 1 :=
    (zpow_lt_zpow_iff_right₀ (by norm_num : (1 : ℚ) < 10)).mp (hk.trans_lt (leadingExponent_bounds hu).2)
  exact (zpow_le_zpow_right₀ (by norm_num) (Int.lt_add_one_iff.mp hlead)).trans hfrom

/-- Where the shortest decimal of a fraction has its leading digit. -/
theorem leading_shortest (h : u % unit ≠ 0) :
    (shortest u).leading < 16 ∧ (-4 ≤ (shortest u).leading ↔ (1 : ℚ) / 10 ^ 4 ≤ magnitude u) := by
  have hu := pos_of_mod_ne_zero h
  have hdigits := (shortest_spec ok hu).2.1
  have hbound : (1 : ℚ) / 10 ^ 4 = 10 ^ (-4 : Int) := by norm_num
  refine ⟨?_, ?_⟩
  · by_contra hhigh
    rw [not_lt, Decimal.le_leading_iff hdigits] at hhigh
    have hlt : magnitude u < 10 ^ (16 : Int) := (magnitude_lt ok h).trans (by norm_num)
    have hwhole : (Decimal.mk 1 16).toUnits % unit = 0 := by decide +kernel
    exact h (shortest_eq_of_le ok hu hlt hhigh ▸ hwhole)
  · rw [Decimal.le_leading_iff hdigits, hbound]
    refine ⟨fun hle => ?_, le_value_shortest ok hu⟩
    by_contra hlt
    -- the decimal would be the ten-thousandth, and the number nearest to that is not below it
    have heq := shortest_eq_of_le ok hu (not_le.mp hlt) hle
    have hle : unit ≤ (Decimal.mk 1 (-4)).toUnits * 10 ^ 4 := by decide +kernel
    exact hlt (hbound ▸ le_magnitude_iff.mpr (heq ▸ hle))

theorem canonical_fraction (h : u % unit ≠ 0) (hlow : (1 : ℚ) / 10 ^ 4 ≤ magnitude u) :
    (finite false u ok).Canonical := by
  have hu := pos_of_mod_ne_zero h
  obtain ⟨hhigh, hleading⟩ := leading_shortest ok h
  obtain ⟨hunits, hdigits, -, -⟩ := shortest_spec ok hu
  obtain ⟨d, hspells, hvalue⟩ := Numeral.exists_spells_positional (shortest u)
  have hlow := hleading.mpr hlow
  have htext : (finite false u ok).text = (shortest u).positional := by
    rw [text_fraction ok h, Decimal.written, if_pos ⟨hlow, hhigh⟩]
  have hsame := Decimal.leading_congr hvalue.symm hdigits
  refine canonical_of_spells (by rw [htext]; exact hspells) (Decimal.toBinary_eq_finite ok ?_ ?_ (by omega) (by omega))
  · rwa [Decimal.digits_ne_zero_iff, hvalue, ← Decimal.digits_ne_zero_iff]
  · rw [Decimal.toUnits_congr hvalue, hunits]

theorem not_spells_fraction (h : u % unit ≠ 0) (hlow : magnitude u < (1 : ℚ) / 10 ^ 4) (d : Decimal) :
    ¬ Numeral.Spells (finite false u ok).text.toList d := by
  have hsmall : ¬ -4 ≤ (shortest u).leading := fun hle => not_le.mpr hlow ((leading_shortest ok h).2.mp hle)
  rw [text_fraction ok h, Decimal.written, if_neg fun hboth => hsmall hboth.1]
  exact Decimal.not_spells_scientific _ d

end Fractions

/-- A numeral stands for a number that is not negative. -/
theorem toBinary_cases (d : Decimal) :
    (∃ u ok, d.toBinary false = .finite false u ok) ∨ d.toBinary false = .infinite false := by
  have hunits (u : Nat) : (∃ v ok, ofUnits false u = .finite false v ok) ∨ ofUnits false u = .infinite false := by
    unfold ofUnits
    split
    · next ok => exact .inl ⟨u, ok, rfl⟩
    · exact .inr rfl
  unfold Decimal.toBinary
  dsimp only
  split_ifs <;> first | exact hunits _ | exact .inr rfl

theorem canonical_of_plain {d : Decimal} (h : (d.toBinary false).Plain) : (d.toBinary false).Canonical := by
  obtain ⟨u, ok, hx⟩ | hx := toBinary_cases d
  · rw [hx] at h ⊢
    by_cases hwhole : u % unit = 0
    · exact canonical_whole ok hwhole
    · exact canonical_fraction ok hwhole (le_magnitude_iff.mpr (h.resolve_left hwhole))
  · rw [hx] at h
    cases h

theorem not_spells_of_not_plain {d : Decimal} (h : ¬ (d.toBinary false).Plain) (d' : Decimal) :
    ¬ Numeral.Spells (d.toBinary false).text.toList d' := by
  obtain ⟨u, ok, hx⟩ | hx := toBinary_cases d
  · rw [hx] at h ⊢
    obtain ⟨hwhole, hlow⟩ := not_or.mp h
    exact not_spells_fraction ok hwhole (not_le.mp fun hle => hlow (le_magnitude_iff.mp hle)) d'
  · rw [hx]
    intro hspells
    have hhead : 'I' ∈ (infinite false).text.toList := by decide
    exact absurd (hspells.mem 'I' hhead) (by decide)

end Binary64

/-- The number that a numeral stands for is written as a numeral again if it is plain: the text is scanned as one token
and stands for the same number, and the literal that is written so is read back. The text of any other number, which is
an infinity or a fraction below a ten-thousandth, is no numeral. -/
theorem numeral_rewritten {cs : List Char} {d : Decimal} {x : Binary64} (h : Numeral.Spells cs d)
    (hread : Numeral.read? cs = some x) :
    (x.Plain →
      (∀ {s : Lexer} {rest : List Char}, s.Before (x.text.toList ++ rest) →
        (∀ c ∈ rest.head?, c.isDigit = false ∧ c ≠ '.') → s.Scans x.text.toList [s.tokenHere .number x.text]) ∧
      Numeral.read? x.text.toList = some x ∧
      ∀ {name : String}, isIdentifier name.toList = true → keyword? name = none → ∀ pos, ∃ pos',
        (parseScript (":: " ++ name ++ "\nvar $r " ++ (Expr.number x pos).source ++ "\n")).result =
          .ok ⟨[⟨name, [.command (.assign "r" .set (.number x pos')) ⟨2, 1⟩], ⟨1, 1⟩⟩]⟩) ∧
    (¬ x.Plain → ∀ d', ¬ Numeral.Spells x.text.toList d') := by
  obtain rfl : d.toBinary false = x := Option.some.inj ((Numeral.read?_of_spells h).symm.trans hread)
  refine ⟨fun hplain => ?_, Binary64.not_spells_of_not_plain⟩
  have hcanonical := Binary64.canonical_of_plain hplain
  obtain ⟨d', hd'⟩ := hcanonical.decimal
  refine ⟨fun {s rest} hs hnext => ?_, hcanonical.read, fun {name} hname hfree pos => ?_⟩
  · simpa using Lexer.Scans.number hs hd' hnext
  · have hprints : Prints .or (Expr.number (d.toBinary false) pos).source.toList (.number (d.toBinary false) pos) :=
      (prints_number hcanonical).lift (Nat.zero_le _)
    obtain ⟨e, hparse, hplace⟩ := hprints.parses hname hfree
    obtain ⟨pos', rfl⟩ : ∃ pos', e = .number (d.toBinary false) pos' := by
      cases e <;> simp [Expr.placeless, Expr.relocate] at hplace
      exact ⟨_, by rw [hplace]⟩
    exact ⟨pos', hparse⟩

theorem spells_small : Numeral.Spells "0.00001".toList ⟨1, -5⟩ := by
  have h : Numeral.Spells (['0'] ++ '.' :: ['0', '0', '0', '0', '1']) _ :=
    .point (by simp) (by simp) (by simp) (by simp)
  simpa [Numeral.value] using h

theorem text_small : (Decimal.toBinary false ⟨1, -5⟩).text = "1e-05" := by decide +kernel

theorem numeral_rewritten_quarter :
    ∃ s : Lexer, s.mode = .code ∧ s.rest = "0.25\n".toList ∧ s.Scans "0.25".toList [s.tokenHere .number "0.25"] ∧
      Numeral.read? "00.250".toList = Numeral.read? "0.25".toList ∧
      (∃ pos, (parseScript ":: n\nvar $r 0.25\n").result =
        .ok ⟨[⟨"n", [.command (.assign "r" .set (.number (Decimal.toBinary false ⟨250, -3⟩) pos)) ⟨2, 1⟩], ⟨1, 1⟩⟩]⟩) ∧
      ∀ d, ¬ Numeral.Spells "1e-05".toList d := by
  have hquarter : Numeral.Spells "00.250".toList ⟨250, -3⟩ := by
    have h : Numeral.Spells (['0', '0'] ++ '.' :: ['2', '5', '0']) _ := .point (by simp) (by simp) (by simp) (by simp)
    simpa [Numeral.value] using h
  have htext : (Decimal.toBinary false ⟨250, -3⟩).text = "0.25" := by decide +kernel
  have hread := Numeral.read?_of_spells hquarter
  obtain ⟨hscans, hagain, hparse⟩ := (numeral_rewritten hquarter hread).1 (by decide +kernel)
  have hno := (numeral_rewritten spells_small (Numeral.read?_of_spells spells_small)).2 (by decide +kernel)
  rw [htext] at hscans hagain
  rw [text_small] at hno
  let s : Lexer := { Lexer.ofText "0.25\n" with mode := .code }
  have hrest : s.rest = "0.25".toList ++ ['\n'] := by simp [s, Lexer.ofText]
  refine ⟨s, rfl, by simp [s, Lexer.ofText], hscans ⟨rfl, rfl, hrest⟩ (by simp), hread.trans hagain.symm, ?_, hno⟩
  obtain ⟨pos, h⟩ := @hparse "n" (by decide) (by decide) ⟨2, 8⟩
  have hsource : (Expr.number (Decimal.toBinary false ⟨250, -3⟩) ⟨2, 8⟩).source = "0.25" := htext
  rw [hsource] at h
  exact ⟨pos, h⟩

/-- A small fraction is written with an exponent, and that is scanned as four tokens. -/
theorem small_numeral_rewritten :
    Numeral.Spells "0.00001".toList ⟨1, -5⟩ ∧
      Numeral.read? "0.00001".toList = some (Decimal.toBinary false ⟨1, -5⟩) ∧
      (Decimal.toBinary false ⟨1, -5⟩).text = "1e-05" ∧
      (tokens (":: n\nvar $r " ++ (Decimal.toBinary false ⟨1, -5⟩).text ++ "\n")).map
          (fun ts => ts.map fun t => (t.kind, t.value)) =
        .ok [(.doubleColon, "::"), (.identifier, "n"), (.newline, "\\n"), (.varWord, "var"), (.reference, "r"),
          (.number, "1"), (.identifier, "e"), (.minus, "-"), (.number, "05"), (.newline, "\\n"), (.eof, "")] := by
  refine ⟨spells_small, Numeral.read?_of_spells spells_small, text_small, ?_⟩
  rw [text_small]
  rfl

end Parley
