import Parley.Proofs.Passes

/-! # Prose with its marks escaped

A backslash before every mark keeps prose from being read as anything else. Two scanners look at it, each with an escape
loop of its own: the one that finds a speaker at the head of the line and the one that takes free text. Both go over
escaped prose as if it were not there and answer with the prose itself in front of what they make of the rest. -/

namespace Parley

/-- A text with a backslash before every mark. -/
def escapeMarks (cs : List Char) : List Char := cs.flatMap fun c => if isEscapable c then ['\\', c] else [c]

section Escaped
variable {c : Char} {cs rest : List Char} {stops : Char → Bool}

theorem escapeMarks_cons (c : Char) (cs : List Char) :
    escapeMarks (c :: cs) = (if isEscapable c then ['\\', c] else [c]) ++ escapeMarks cs := rfl

theorem inLine_escapeMarks (h : ∀ c ∈ cs, isLineEnd c = false) : ∀ c ∈ escapeMarks cs, isLineEnd c = false := by
  intro c hc
  obtain ⟨d, hd, hc⟩ := List.mem_flatMap.1 hc
  split at hc
  · simp only [List.mem_cons, List.not_mem_nil, or_false] at hc
    rcases hc with rfl | rfl
    · decide
    · exact h _ hd
  · rw [List.mem_singleton.1 hc]
    exact h d hd

/-- Escaped prose opens with a backslash or with a character that is no mark. -/
theorem head_escapeMarks (h : c ∈ (escapeMarks cs).head?) :
    c = '\\' ∨ isEscapable c = false ∧ cs.head? = some c := by
  cases cs with
  | nil => cases h
  | cons d cs =>
    rw [escapeMarks_cons] at h
    split at h
    · exact .inl (by simpa using h.symm)
    · next hd =>
      obtain rfl : d = c := by simpa using h
      exact .inr ⟨by simpa using hd, rfl⟩

theorem plain_of_isEscapable (h : isEscapable c = true) :
    isBlank c = false ∧ isLineEnd c = false ∧ isWordPart c = false ∧ isArrowHead c = false ∧ c ≠ '/' := by
  simp only [isEscapable, isColon, Bool.or_eq_true, beq_iff_eq] at h
  rcases h with (((((rfl | rfl | rfl) | rfl) | rfl) | rfl) | rfl) | rfl <;> decide

theorem plain_of_not_isEscapable (h : isEscapable c = false) :
    c ≠ '#' ∧ isColon c = false ∧ c ≠ '[' ∧ c ≠ ']' ∧ c ≠ '\x7b' ∧ c ≠ '\x7d' ∧ c ≠ '\\' := by
  simp only [isEscapable, Bool.or_eq_false_iff, beq_eq_false_iff_ne] at h
  obtain ⟨⟨⟨⟨⟨⟨hhash, hcolon⟩, hopen⟩, hclose⟩, hbrace⟩, hbrace'⟩, hslash⟩ := h
  exact ⟨hhash, hcolon, hopen, hclose, hbrace, hbrace', hslash⟩

/-! ### Free text -/

theorem textRun_escape (hslash : stops '\\' = false) (hc : isEscapable c = true) :
    textRun stops ('\\' :: c :: rest) = (c :: (textRun stops rest).1, (textRun stops rest).2) := by
  simp [textRun, hslash, hc]

/-- Text that is stopped by marks and line ends only takes escaped prose whole. -/
theorem textRun_escapeMarks (hslash : stops '\\' = false)
    (hstops : ∀ c, stops c = true → isEscapable c = true ∨ isLineEnd c = true) (hcs : ∀ c ∈ cs, isLineEnd c = false) :
    textRun stops (escapeMarks cs ++ rest) = (cs ++ (textRun stops rest).1, (textRun stops rest).2) := by
  induction cs with
  | nil => rfl
  | cons c cs ih =>
    simp only [List.mem_cons, forall_eq_or_imp] at hcs
    rw [escapeMarks_cons, List.append_assoc]
    by_cases hc : isEscapable c = true
    · simp only [hc, if_true, List.cons_append, List.nil_append, textRun_escape hslash hc, ih hcs.2]
    · have hno : stops c = false := by
        by_contra hstop
        rcases hstops c (by simpa using hstop) with h | h
        · exact hc h
        · simp [hcs.1] at h
      have hplain : c ≠ '\\' := (plain_of_not_isEscapable (by simpa using hc)).2.2.2.2.2.2
      simp only [hc, if_false, List.cons_append, List.nil_append, textRun_cons hno fun h => absurd h hplain, ih hcs.2,
        Bool.false_eq_true]

/-! ### Speakers -/

theorem speakerHead?_cons (hc : isEscapable c = false) : speakerHead? (c :: rest) = (speakerHead? rest).map (·.push c 1) := by
  obtain ⟨hhash, hcolon, hbracket, -, hbrace, -, hslash⟩ := plain_of_not_isEscapable hc
  cases rest with
  | nil => simp [speakerHead?, hcolon]
  | cons d tail => simp [speakerHead?, hhash, hbrace, hslash, hcolon, hbracket]

theorem speakerHead?_escape (hc : isEscapable c = true) :
    speakerHead? ('\\' :: c :: rest) = (speakerHead? rest).map (·.push c 2) := by
  simp [speakerHead?, hc]

/-- What stands in front of the colon, escaped, is the name. -/
theorem speakerHead?_escapeMarks (cs rest : List Char) : speakerHead? (escapeMarks cs ++ rest) =
    (speakerHead? rest).map fun h => { h with name := cs ++ h.name, width := h.width + (escapeMarks cs).length } := by
  induction cs with
  | nil => cases h : speakerHead? rest <;> simp [escapeMarks, h]
  | cons c cs ih =>
    rw [escapeMarks_cons, List.append_assoc]
    by_cases hc : isEscapable c = true
    · simp only [hc, if_true, List.cons_append, List.nil_append, speakerHead?_escape hc, ih, Option.map_map]
      rfl
    · simp only [hc, if_false, List.cons_append, List.nil_append, Bool.false_eq_true,
        speakerHead?_cons (by simpa using hc), ih, Option.map_map]
      rfl

theorem speakerHead?_colon (rest : List Char) : speakerHead? (':' :: rest) = some ⟨[], 0, none, 0⟩ := by
  have hcolon : isColon ':' = true := rfl
  cases rest <;> simp [speakerHead?, hcolon]

/-- An emotion in brackets between the name and the colon. -/
theorem speakerHead?_emotion {emotion : List Char} (h : ']' ∉ emotion) (rest : List Char) :
    speakerHead? ('[' :: (emotion ++ ']' :: ':' :: rest)) = some ⟨[], 0, some emotion, 0⟩ := by
  have hinside : ∀ c ∈ emotion, (c != ']') = true := by
    intro c hc
    simpa using fun heq : c = ']' => h (heq ▸ hc)
  have hhead : emotionHead? (emotion ++ ']' :: ':' :: rest) = some ⟨[], 0, some emotion, 0⟩ := by
    have hcolon : isColon ':' = true ∧ isBlank ':' = false := ⟨rfl, rfl⟩
    simp [emotionHead?, List.takeWhile_append_of_pos hinside, List.dropWhile_append_of_pos hinside, hcolon]
  obtain ⟨d, tail, heq⟩ : ∃ d tail, emotion ++ ']' :: ':' :: rest = d :: tail :=
    List.exists_cons_of_ne_nil (by simp)
  rw [heq] at hhead ⊢
  have hbracket : isEscapable '[' = true ∧ isColon '[' = false := ⟨rfl, rfl⟩
  simp [speakerHead?, hbracket, hhead]

end Escaped
end Parley
