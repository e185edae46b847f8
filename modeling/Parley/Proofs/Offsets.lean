import Parley.Proofs.LayoutNoise

/-! # Places as offsets

A line and a column denote an offset of a text: so many lines are ended in front of it, and so many characters stand
between the last of these ends and it (`Stands`). The lexer counts lines and columns as it goes and never counts
anew. That its counters denote the offset where it is (`Lexer.At`) is kept along a stretch of a line (`Lexer.At.along`)
and over the end of one (`Lexer.At.consumeNewline`), and every pass is made of these two. It needs that the lexer never
stops inside a `\r\n`, where the counters would count a line that is not ended yet. -/

namespace Parley

/-- The line and the column are those of the place so many characters behind the start of the text. -/
structure Stands (source : List Char) (offset : Nat) (line column : Int) : Prop where
  inside : offset ≤ source.length
  line : line = 1 + lineTerminators (source.take offset)
  column : column = lastColumn (source.take offset)

section Text
variable {p q : List Char}

theorem lastColumn_plain (hq : ∀ c ∈ q, isLineEnd c = false) : lastColumn (p ++ q) = lastColumn p + q.length := by
  have hq : ∀ c ∈ q.reverse, (!isLineEnd c) = true := fun c hc => by simp [hq c (List.mem_reverse.mp hc)]
  simp only [lastColumn, List.rtakeWhile, List.reverse_append, List.length_reverse, List.takeWhile_append_of_pos hq,
    List.length_append]
  omega

theorem lastColumn_ended {c : Char} (hc : isLineEnd c = true) : lastColumn (p ++ [c]) = 1 := by
  simp [lastColumn, List.rtakeWhile, hc]

/-- A stretch of a line ends none. -/
theorem lineTerminators_append_plain (hq : ∀ c ∈ q, isLineEnd c = false) :
    lineTerminators (p ++ q) = lineTerminators p := by
  have hnone : lineTerminators (q ++ []) = lineTerminators [] := lineTerminators_plain hq
  rw [lineTerminators_seam (seam_plain hq)]
  simpa [lineTerminators] using hnone

/-- More text ends no fewer lines, also where the end of a line goes on with it. -/
theorem lineTerminators_le_append (p q : List Char) : lineTerminators p ≤ lineTerminators (p ++ q) := by
  by_cases hseam : Seam p q
  · rw [lineTerminators_seam hseam]
    exact Nat.le_add_right _ _
  · obtain ⟨hlast, hhead⟩ := not_not.mp hseam
    obtain ⟨p, rfl⟩ := List.getLast?_eq_some_iff.mp hlast
    obtain ⟨q, rfl⟩ := List.head?_eq_some_iff.mp hhead
    have hsplit : p ++ ['\r'] ++ '\n' :: q = p ++ '\r' :: '\n' :: q := by simp
    rw [hsplit, lineTerminators_seam (by simp [Seam]), lineTerminators_seam (by simp [Seam])]
    simp only [lineTerminators]
    exact Nat.add_le_add_left (Nat.succ_le_succ (Nat.zero_le _)) _

/-- Only the last part of a text meets what comes behind it. -/
theorem seam_append_right {r : List Char} (hq : q ≠ []) (h : Seam q r) : Seam (p ++ q) r := by
  rintro ⟨hlast, hhead⟩
  refine h ⟨?_, hhead⟩
  rwa [List.getLast?_append_of_ne_nil _ hq] at hlast

/-- A place further on is on no earlier line. -/
theorem Stands.line_le {source : List Char} {offset later : Nat} {line column line' column' : Int}
    (h : Stands source offset line column) (h' : Stands source later line' column') (hle : offset ≤ later) :
    line ≤ line' := by
  have hmore := lineTerminators_le_append (source.take offset) ((source.drop offset).take (later - offset))
  rw [← List.take_add, Nat.add_sub_cancel' hle] at hmore
  have := h.line
  have := h'.line
  omega

end Text

namespace Lexer

/-- The lexer is so far into the text, and not inside a `\r\n`. -/
structure At (source : List Char) (offset : Nat) (s : Lexer) : Prop where
  stands : Stands source offset s.line s.column
  rest : s.rest = source.drop offset
  whole : Seam (source.take offset) s.rest

section
variable {source p : List Char} {offset : Nat} {s s' : Lexer}

theorem at_ofText (source : String) : (ofText source).At source.toList 0 where
  stands := ⟨Nat.zero_le _, by simp [ofText, lineTerminators], by simp [ofText, lastColumn]⟩
  rest := rfl
  whole := by simp [Seam]

namespace At

theorem take_add (h : s.At source offset) (hrest : s.rest = p ++ s'.rest) :
    source.take (offset + p.length) = source.take offset ++ p := by
  rw [List.take_add, ← h.rest, hrest, List.take_left]

theorem drop_add (h : s.At source offset) (hrest : s.rest = p ++ s'.rest) :
    s'.rest = source.drop (offset + p.length) := by
  rw [← List.drop_drop, ← h.rest, hrest, List.drop_left]

theorem le_length (h : s.At source offset) (hrest : s.rest = p ++ s'.rest) : offset + p.length ≤ source.length := by
  have hlength := congrArg List.length (h.rest.symm.trans hrest)
  have := h.stands.inside
  rw [List.length_drop, List.length_append] at hlength
  omega

theorem along (h : s.At source offset) (hp : Along p s s') : s'.At source (offset + p.length) where
  stands := by
    refine ⟨h.le_length hp.rest, ?_, ?_⟩
    · rw [h.take_add hp.rest, lineTerminators_append_plain hp.plain, hp.line, h.stands.line]
    · have hcolumn := h.stands.column
      rw [h.take_add hp.rest, lastColumn_plain hp.plain, hp.column]
      omega
  rest := h.drop_add hp.rest
  whole := by
    rw [h.take_add hp.rest]
    by_cases hp' : p = []
    · subst hp'
      rw [List.append_nil]
      simpa [hp.rest] using h.whole
    · exact seam_append_right hp' (seam_of_plain hp.plain)

/-- Within a stretch of the line too. -/
theorem advance (h : s.At source offset) (hp : Along p s s') {count : Nat} (hcount : count ≤ p.length) :
    (s.advance count).At source (offset + count) := by
  have hsplit : s.rest = p.take count ++ (p.drop count ++ s'.rest) := by
    rw [← List.append_assoc, List.take_append_drop, hp.rest]
  have hlength : (p.take count).length = count := List.length_take_of_le hcount
  have hpart := Along.advance hsplit fun c hc => hp.plain c (List.mem_of_mem_take hc)
  have hat := h.along hpart
  rwa [hlength] at hat

/-- What has been passed over is the end of a line, and nothing but that. -/
theorem across {ending : List Char} (h : s.At source offset) (hrest : s.rest = ending ++ s'.rest)
    (hending : ending = ['\r', '\n'] ∨ ∃ c, ending = [c] ∧ isLineEnd c = true ∧ Seam ending s'.rest)
    (hline : s'.line = s.line + 1) (hcolumn : s'.column = 1) : s'.At source (offset + ending.length) := by
  have hseam : Seam (source.take offset) ending := by
    rintro ⟨hlast, hhead⟩
    refine h.whole ⟨hlast, ?_⟩
    rw [hrest, List.head?_append, hhead]
    rfl
  have hended : lineTerminators ending = 1 ∧ lastColumn (source.take offset ++ ending) = 1 ∧ Seam ending s'.rest := by
    rcases hending with rfl | ⟨c, rfl, hc, hmeet⟩
    · exact ⟨rfl, List.append_cons _ '\r' _ ▸ lastColumn_ended rfl, by simp [Seam]⟩
    · exact ⟨by simp [lineTerminators, hc], lastColumn_ended hc, hmeet⟩
  obtain ⟨hone, hfirst, hmeet⟩ := hended
  have htake := h.take_add hrest
  refine ⟨⟨h.le_length hrest, ?_, ?_⟩, h.drop_add hrest, ?_⟩
  · have := h.stands.line
    rw [htake, lineTerminators_seam hseam, hone, hline]
    omega
  · rw [htake, hfirst, hcolumn]
  · rw [htake]
    refine seam_append_right ?_ hmeet
    rcases hending with rfl | ⟨c, rfl, -⟩ <;> simp

/-- The end of a line is taken whole; where the text is over there is none to take. -/
theorem consumeNewline (h : s.At source offset) (hend : s.AtLineEnd) :
    ∃ later, offset ≤ later ∧ s.consumeNewline.At source later ∧
      (s.rest ≠ [] → s.consumeNewline.line = s.line + 1) := by
  cases hrest : s.rest with
  | nil =>
    have hsame : s.consumeNewline = s := by simp [Lexer.consumeNewline, hrest]
    exact ⟨offset, Nat.le_refl _, hsame.symm ▸ h, absurd rfl⟩
  | cons c tail =>
    have hc : isLineEnd c = true := hend c (by simp [hrest])
    by_cases hcrlf : c = '\r' ∧ tail.head? = some '\n'
    · obtain ⟨rfl, hhead⟩ := hcrlf
      obtain ⟨tail, rfl⟩ := List.head?_eq_some_iff.mp hhead
      have hover : s.consumeNewline = { s with rest := tail, line := s.line + 1, column := 1 } := by
        simp [Lexer.consumeNewline, hrest]
      rw [hover]
      exact ⟨_, Nat.le_add_right _ _, h.across hrest (.inl rfl) rfl rfl, fun _ => rfl⟩
    · have hover := consumeNewline_cons hrest fun hc hhead => hcrlf ⟨hc, hhead⟩
      have hmeet : Seam [c] tail := fun hmeet => hcrlf ⟨by simpa using hmeet.1, hmeet.2⟩
      rw [hover, if_pos hc]
      exact ⟨_, Nat.le_add_right _ _, h.across hrest (.inr ⟨c, rfl, hc, hmeet⟩) rfl rfl, fun _ => rfl⟩

end At
end

end Lexer
end Parley
