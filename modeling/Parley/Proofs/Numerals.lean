import Parley.Number.Numeral
import Mathlib.Data.Bool.AllAny
import Mathlib.Data.List.TakeWhile

/-! # Decimal numerals

A decimal numeral is a run of digits, or two runs with a point between them: what the scanner of code takes for a
number, and what an expression that is written back shows of one. Here is what such a text stands for, apart from the
reader of numerals, which takes much more (signs, exponents, separators, digits of every script). On decimal numerals
the reader agrees: every refusal and every other form it knows is out of reach of a text of digits and a point. -/

namespace Parley
namespace Numeral

/-- The text is a decimal numeral, and stands for the decimal. -/
inductive Spells : List Char → Decimal → Prop
  | whole {ds : List Char} (hne : ds ≠ []) (hds : ∀ c ∈ ds, c.isDigit = true) : Spells ds ⟨value ds, 0⟩
  | point {ws fs : List Char} (hws : ws ≠ []) (hw : ∀ c ∈ ws, c.isDigit = true) (hfs : fs ≠ [])
      (hf : ∀ c ∈ fs, c.isDigit = true) : Spells (ws ++ '.' :: fs) ⟨value (ws ++ fs), -(fs.length : Int)⟩

variable {cs : List Char} {d : Decimal}

/-- A numeral opens with a digit. -/
theorem Spells.head (h : Spells cs d) : ∃ c rest, cs = c :: rest ∧ c.isDigit = true := by
  cases h with
  | whole hne hds =>
    obtain ⟨c, rest, rfl⟩ := List.exists_cons_of_ne_nil hne
    exact ⟨c, rest, rfl, hds c (by simp)⟩
  | point hws hw _ _ =>
    obtain ⟨c, rest, rfl⟩ := List.exists_cons_of_ne_nil hws
    exact ⟨c, _, rfl, hw c (by simp)⟩

theorem Spells.mem (h : Spells cs d) : ∀ c ∈ cs, c.isDigit = true ∨ c = '.' := by
  intro c hc
  cases h with
  | whole _ hds => exact .inl (hds c hc)
  | point _ hw _ hf =>
    simp only [List.mem_append, List.mem_cons] at hc
    rcases hc with hc | rfl | hc
    · exact .inl (hw c hc)
    · exact .inr rfl
    · exact .inl (hf c hc)

section Plain
variable {c : Char}

theorem toNat_of_isDigit (h : c.isDigit = true) : 48 ≤ c.toNat ∧ c.toNat ≤ 57 := by
  simp only [Char.isDigit, Bool.and_eq_true, decide_eq_true_eq] at h
  exact h

/-- No character of a numeral is changed, dropped or taken for something else before the digits are read. -/
theorem plain_of_mem (h : c.isDigit = true ∨ c = '.') :
    plainChar? c = some c ∧ isMargin c = false ∧ c ≠ '_' ∧ c.toLower = c := by
  rcases h with h | rfl
  · have hc := toNat_of_isDigit h
    have hne {d : Char} (hd : d.toNat < 48 ∨ 57 < d.toNat) : c ≠ d := by
      rintro rfl
      omega
    refine ⟨if_pos (by omega), ?_, hne (.inr (by decide)), ?_⟩
    · have hspace : c ≠ ' ' := hne (.inl (by decide))
      simp only [isMargin, Bool.or_eq_false_iff, beq_eq_false_iff_ne, Bool.and_eq_false_iff, decide_eq_false_iff_not]
      exact ⟨hspace, .inr (by omega)⟩
    · have hupper : ¬ (65 ≤ c.val ∧ c.val ≤ 90) := by
        rintro ⟨hle, -⟩
        have : 65 ≤ c.toNat := hle
        omega
      delta Char.toLower
      simp [hupper]
  · decide

end Plain

theorem mapM_plainChar?_eq {cs : List Char} (h : ∀ c ∈ cs, plainChar? c = some c) : cs.mapM plainChar? = some cs := by
  induction cs with
  | nil => rfl
  | cons c cs ih =>
    have hrest := ih fun d hd => h d (List.mem_cons_of_mem c hd)
    simp [List.mapM_cons, h c (by simp), hrest]

theorem strip_eq_self {p : Char → Bool} {cs : List Char} (h : ∀ c ∈ cs, p c = false) : strip p cs = cs := by
  have hdrop {cs : List Char} (h : ∀ c ∈ cs, p c = false) : cs.dropWhile p = cs := by
    cases cs with
    | nil => rfl
    | cons c cs => simp [h c (by simp)]
  unfold strip
  rw [hdrop h, hdrop (by simpa using h), List.reverse_reverse]

theorem withoutSeparators?_eq {cs : List Char} (h : ∀ c ∈ cs, c ≠ '_') (afterDigit : Bool) :
    withoutSeparators? afterDigit cs = some cs := by
  induction cs generalizing afterDigit with
  | nil => rfl
  | cons c cs ih =>
    have hrest := ih (fun d hd => h d (List.mem_cons_of_mem c hd)) c.isDigit
    simp [withoutSeparators?, h c (by simp), hrest]

theorem decimal?_of_spells (h : Spells cs d) : decimal? cs = some d := by
  cases h with
  | whole hne hds =>
    have htake : cs.takeWhile Char.isDigit = cs := List.takeWhile_eq_self_iff.mpr hds
    have hdrop : cs.dropWhile Char.isDigit = [] := List.dropWhile_eq_nil_iff.mpr hds
    simp [decimal?, htake, hdrop, hne, exponent?]
  | @point ws fs hws hw hfs hf =>
    have htake : (ws ++ '.' :: fs).takeWhile Char.isDigit = ws := by
      rw [List.takeWhile_append_of_pos hw]
      simp
    have hdrop : (ws ++ '.' :: fs).dropWhile Char.isDigit = '.' :: fs := by
      rw [List.dropWhile_append_of_pos hw]
      simp
    have htakef : fs.takeWhile Char.isDigit = fs := List.takeWhile_eq_self_iff.mpr hf
    have hdropf : fs.dropWhile Char.isDigit = [] := List.dropWhile_eq_nil_iff.mpr hf
    simp [decimal?, htake, hdrop, htakef, hdropf, hws, exponent?]

/-- The reader takes every decimal numeral, for the number nearest to what it stands for. -/
theorem read?_of_spells (h : Spells cs d) : read? cs = some (d.toBinary false) := by
  have hplain := fun c hc => plain_of_mem (h.mem c hc)
  have hsign : sign cs = (false, cs) := by
    obtain ⟨c, rest, rfl, hc⟩ := h.head
    have := toNat_of_isDigit hc
    unfold sign
    split
    · next heq => cases heq; simp at this
    · next heq => cases heq; simp at this
    · rfl
  have hlower : cs.map Char.toLower = cs := by
    have hid : cs.map Char.toLower = cs.map id := List.map_congr_left fun c hc => (hplain c hc).2.2.2
    rw [hid, List.map_id]
  -- the words that are no decimals open with a letter
  have hword {w : List Char} (hw : w.head?.all (fun c => !c.isDigit) = true) : String.ofList cs ≠ String.ofList w := by
    intro heq
    obtain ⟨c, rest, rfl, hc⟩ := h.head
    rw [← String.ofList_injective heq] at hw
    simp [hc] at hw
  unfold read?
  rw [mapM_plainChar?_eq fun c hc => (hplain c hc).1]
  simp only [Option.bind_eq_bind, Option.bind_some]
  rw [strip_eq_self fun c hc => (hplain c hc).2.1, withoutSeparators?_eq fun c hc => (hplain c hc).2.2.1]
  simp only [Option.bind_some, hsign, hlower]
  split
  · next heq => exact absurd heq (hword (w := "nan".toList) (by decide))
  · next heq => exact absurd heq (hword (w := "inf".toList) (by decide))
  · next heq => exact absurd heq (hword (w := "infinity".toList) (by decide))
  · rw [decimal?_of_spells h]
    rfl

end Numeral
end Parley
