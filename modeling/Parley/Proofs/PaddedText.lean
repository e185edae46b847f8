import Parley.Proofs.LineEnds

/-! # Blanks at the end of a line of text

Blanks behind a line change nothing of what is read of it. No word, numeral, string or mark reaches into them or is
told apart by them, and a run of text that takes them along drops them again. -/

namespace Parley

/-- The text with `b` at the end of its first line. -/
def padLine (b cs : List Char) : List Char :=
  cs.takeWhile (fun c => !isLineEnd c) ++ (b ++ cs.dropWhile fun c => !isLineEnd c)

/-- Neither says anything about what comes before it. -/
def isGap (c : Char) : Bool := isBlank c || isLineEnd c

/-- Nothing of a line is left. -/
def LineOver (cs : List Char) : Prop := ∀ c ∈ cs.head?, isLineEnd c = true

instance (cs : List Char) : Decidable (LineOver cs) :=
  decidable_of_iff (cs.head?.all isLineEnd = true) <| by
    unfold LineOver
    cases cs.head? <;> simp

section Text
variable {b cs q r : List Char} {c : Char} {p : Char → Bool}

theorem lineOver_nil : LineOver [] := nofun

theorem lineOver_cons : LineOver (c :: cs) ↔ isLineEnd c = true := by simp [LineOver]

theorem padLine_over (h : LineOver cs) : padLine b cs = b ++ cs := by
  cases cs with
  | nil => simp [padLine]
  | cons c cs => simp [padLine, lineOver_cons.1 h]

theorem padLine_cons (hc : isLineEnd c = false) (cs : List Char) : padLine b (c :: cs) = c :: padLine b cs := by
  simp [padLine, hc]

theorem padLine_append (hq : ∀ c ∈ q, isLineEnd c = false) : padLine b (q ++ r) = q ++ padLine b r := by
  induction q with
  | nil => rfl
  | cons c q ih =>
    obtain ⟨hc, hq⟩ := List.forall_mem_cons.1 hq
    rw [List.cons_append, padLine_cons hc, ih hq, List.cons_append]

theorem padLine_ne_nil (h : cs ≠ []) : padLine b cs ≠ [] := by
  obtain ⟨c, tail, rfl⟩ := List.exists_cons_of_ne_nil h
  by_cases hc : isLineEnd c = true
  · rw [padLine_over (lineOver_cons.2 hc)]
    simp
  · rw [padLine_cons (by simpa using hc)]
    simp

theorem takeWhile_line_padLine (hb : ∀ c ∈ b, isBlank c = true) (cs : List Char) :
    (padLine b cs).takeWhile (fun c => !isLineEnd c) = cs.takeWhile (fun c => !isLineEnd c) ++ b := by
  have hplain : ∀ c ∈ cs.takeWhile (fun c => !isLineEnd c) ++ b, (!isLineEnd c) = true := by
    intro c hc
    rcases List.mem_append.mp hc with hc | hc
    · exact List.mem_takeWhile_imp (p := fun c => !isLineEnd c) hc
    · simp [isLineEnd_of_isBlank (hb c hc)]
  have hleft : (cs.dropWhile fun c => !isLineEnd c).takeWhile (fun c => !isLineEnd c) = [] := by
    have hhead := List.head?_dropWhile_not (fun c => !isLineEnd c) cs
    cases hdrop : cs.dropWhile fun c => !isLineEnd c with
    | nil => rfl
    | cons c rest =>
      rw [hdrop] at hhead
      simpa using hhead
  rw [padLine, ← List.append_assoc, List.takeWhile_append_of_pos hplain, hleft, List.append_nil]

theorem lineLength_padLine (hb : ∀ c ∈ b, isBlank c = true) (cs : List Char) :
    lineLength (padLine b cs) = lineLength cs + b.length := by
  unfold lineLength
  rw [takeWhile_line_padLine hb, List.length_append]

/-- What comes next is the same, or a gap in both texts. -/
theorem head?_padLine (hb : ∀ c ∈ b, isBlank c = true) (cs : List Char) :
    (padLine b cs).head? = cs.head? ∨
      (∀ c ∈ (padLine b cs).head?, isGap c = true) ∧ ∀ c ∈ cs.head?, isGap c = true := by
  cases cs with
  | nil =>
    refine .inr ⟨fun c hc => ?_, nofun⟩
    rw [padLine_over lineOver_nil, List.append_nil] at hc
    simp [isGap, hb c (List.mem_of_mem_head? hc)]
  | cons c cs =>
    by_cases hc : isLineEnd c = true
    · refine .inr ⟨fun d hd => ?_, by simp [isGap, hc]⟩
      rw [padLine_over (lineOver_cons.2 hc)] at hd
      cases b with
      | nil =>
        cases hd
        simp [isGap, hc]
      | cons e b =>
        obtain rfl : e = d := by simpa using hd
        simp [isGap, hb e (by simp)]
    · rw [padLine_cons (by simpa using hc)]
      exact .inl rfl

/-- A class without gaps cannot tell. -/
theorem any_head?_padLine (hb : ∀ c ∈ b, isBlank c = true) (hp : ∀ c, isGap c = true → p c = false)
    (cs : List Char) : (padLine b cs).head?.any p = cs.head?.any p := by
  have hnone {o : Option Char} (ho : ∀ c ∈ o, isGap c = true) : o.any p = false := by
    cases o with
    | none => rfl
    | some c => exact hp c (ho c rfl)
  rcases head?_padLine hb cs with h | ⟨h, h'⟩
  · rw [h]
  · rw [hnone h, hnone h']

theorem head?_padLine_eq_some (hb : ∀ c ∈ b, isBlank c = true) (hc : isGap c = false) :
    (padLine b cs).head? = some c ↔ cs.head? = some c := by
  have hnone {o : Option Char} (ho : ∀ c ∈ o, isGap c = true) : o ≠ some c := by
    rintro rfl
    rw [ho c rfl] at hc
    cases hc
  rcases head?_padLine hb cs with h | ⟨h, h'⟩
  · rw [h]
  · simp only [hnone h, hnone h']

/-- What is stopped by gaps stops at the same place. -/
theorem takeWhile_padLine (hb : ∀ c ∈ b, isBlank c = true) (hp : ∀ c, isGap c = true → p c = false)
    (cs : List Char) :
    (padLine b cs).takeWhile p = cs.takeWhile p ∧ (padLine b cs).dropWhile p = padLine b (cs.dropWhile p) := by
  have hstop {cs : List Char} (h : cs.head?.any p = false) : cs.takeWhile p = [] ∧ cs.dropWhile p = cs := by
    cases cs with
    | nil => exact ⟨rfl, rfl⟩
    | cons c cs =>
      have hc : p c = false := h
      simp [hc]
  induction cs with
  | nil =>
    obtain ⟨htake, hdrop⟩ := hstop (any_head?_padLine hb hp [])
    rw [htake, hdrop]
    exact ⟨rfl, rfl⟩
  | cons c cs ih =>
    by_cases hc : p c = true
    · have hplain : isLineEnd c = false := by
        by_contra hend
        rw [hp c (by simp [isGap, hend])] at hc
        cases hc
      rw [padLine_cons hplain]
      simp [hc, ih]
    · have hc : (c :: cs).head?.any p = false := by simpa using hc
      obtain ⟨htake, hdrop⟩ := hstop ((any_head?_padLine hb hp (c :: cs)).trans hc)
      obtain ⟨htake', hdrop'⟩ := hstop hc
      rw [htake, hdrop, htake', hdrop']
      exact ⟨rfl, rfl⟩

theorem isDigit_of_isGap (hc : isGap c = true) : c.isDigit = false := by
  simp only [isGap, isBlank, isLineEnd, Bool.or_eq_true, beq_iff_eq] at hc
  rcases hc with (rfl | rfl) | rfl | rfl <;> rfl

theorem isWordPart_of_isGap (hc : isGap c = true) : isWordPart c = false := by
  simp only [isGap, isBlank, isLineEnd, Bool.or_eq_true, beq_iff_eq] at hc
  rcases hc with (rfl | rfl) | rfl | rfl <;> rfl

theorem isEscapable_of_isGap (hc : isGap c = true) : isEscapable c = false := by
  simp only [isGap, isBlank, isLineEnd, Bool.or_eq_true, beq_iff_eq] at hc
  rcases hc with (rfl | rfl) | rfl | rfl <;> rfl

/-- Only a point goes on with a numeral. -/
theorem numeral_padLine (hb : ∀ c ∈ b, isBlank c = true) (cs : List Char) : numeral (padLine b cs) = numeral cs := by
  have hdigits := takeWhile_padLine (p := Char.isDigit) hb fun _ => isDigit_of_isGap
  obtain ⟨hwhole, hdrop⟩ := hdigits cs
  refine numeral_congr hwhole (by rw [hdrop, head?_padLine_eq_some hb rfl]) fun tail tail' htail htail' => ?_
  rw [hdrop, htail, padLine_cons rfl] at htail'
  cases htail'
  exact (hdigits tail).1

theorem isWordStart_of_isGap (hc : isGap c = true) : isWordStart c = false := by
  by_contra hstart
  have hpart := isWordPart_of_isWordStart (by simpa using hstart)
  rw [isWordPart_of_isGap hc] at hpart
  cases hpart

theorem isTagChar_of_isGap (hc : isGap c = true) : isTagChar c = false := by
  rcases Bool.or_eq_true_iff.mp hc with hc | hc <;> simp [isTagChar, hc]

theorem wordHead_padLine (hb : ∀ c ∈ b, isBlank c = true) (cs : List Char) : wordHead (padLine b cs) = wordHead cs := by
  rw [wordHead, wordHead, any_head?_padLine hb fun _ => isWordStart_of_isGap,
    (takeWhile_padLine hb (fun _ => isWordPart_of_isGap) cs).1]

theorem tagHead_padLine (hb : ∀ c ∈ b, isBlank c = true) (h : ¬LineOver cs) : tagHead (padLine b cs) = tagHead cs := by
  cases cs with
  | nil => exact absurd lineOver_nil h
  | cons c tail =>
    have hvalue := (takeWhile_padLine hb (fun _ => isTagChar_of_isGap) (c :: tail)).1
    rw [padLine_cons (by simpa [lineOver_cons] using h)] at hvalue ⊢
    rw [tagHead, tagHead, hvalue]

theorem isColon_of_isGap (hc : isGap c = true) : isColon c = false := by
  simp only [isGap, isBlank, isLineEnd, Bool.or_eq_true, beq_iff_eq] at hc
  rcases hc with (rfl | rfl) | rfl | rfl <;> rfl

theorem lineHead_padLine (hb : ∀ c ∈ b, isBlank c = true) (h : ¬LineOver cs) :
    lineHead (padLine b cs) = lineHead cs := by
  cases cs with
  | nil => exact absurd lineOver_nil h
  | cons c tail =>
    rw [padLine_cons (by simpa [lineOver_cons] using h)]
    simp only [lineHead, head?_padLine_eq_some (c := '/') hb rfl, any_head?_padLine hb fun _ => isColon_of_isGap]

/-! ### Free text -/

theorem textRun_blanks {stops : Char → Bool} (hb : ∀ c ∈ b, isBlank c = true)
    (hfree : ∀ c, isBlank c = true → stops c = false) (hcs : ∀ c ∈ cs.head?, stops c = true) :
    textRun stops (b ++ cs) = (b, cs) := by
  induction b with
  | nil => exact textRun_stop hcs
  | cons c b ih =>
    obtain ⟨hc, hb⟩ := List.forall_mem_cons.1 hb
    have hslash : c ≠ '\\' := by
      rintro rfl
      cases hc
    rw [List.cons_append, textRun_cons (hfree c hc) (absurd · hslash), ih hb]

/-- A run of text that comes to the end of the line takes the blanks there along. -/
theorem textRun_padLine {stops : Char → Bool} (hb : ∀ c ∈ b, isBlank c = true)
    (hstops : ∀ c, isLineEnd c = true → stops c = true) (hfree : ∀ c, isBlank c = true → stops c = false)
    (cs : List Char) :
    LineOver (textRun stops cs).2 ∧ textRun stops (padLine b cs) = ((textRun stops cs).1 ++ b, (textRun stops cs).2) ∨
      ¬LineOver (textRun stops cs).2 ∧
        textRun stops (padLine b cs) = ((textRun stops cs).1, padLine b (textRun stops cs).2) := by
  have hover {cs : List Char} (h : LineOver cs) : textRun stops (padLine b cs) = (b, cs) := by
    rw [padLine_over h]
    exact textRun_blanks hb hfree fun c hc => hstops c (h c hc)
  have hstopped {c : Char} {cs : List Char} (hc : stops c = true) :
      LineOver (c :: cs) ∧ textRun stops (padLine b (c :: cs)) = ([] ++ b, c :: cs) ∨
        ¬LineOver (c :: cs) ∧ textRun stops (padLine b (c :: cs)) = ([], padLine b (c :: cs)) := by
    by_cases hend : isLineEnd c = true
    · exact .inl ⟨lineOver_cons.2 hend, hover (lineOver_cons.2 hend)⟩
    · refine .inr ⟨fun h => hend (lineOver_cons.1 h), ?_⟩
      rw [padLine_cons (by simpa using hend)]
      exact textRun_stop (by simpa using hc)
  have hplain {c : Char} (hc : ¬ stops c = true) : isLineEnd c = false := by
    by_contra hend
    exact hc (hstops c (by simpa using hend))
  fun_induction textRun stops cs with
  | case1 => exact .inl ⟨lineOver_nil, hover lineOver_nil⟩
  | case2 c hc => exact hstopped hc
  | case3 c hc =>
    have hesc : c = '\\' → (padLine b []).head?.any isEscapable = false := fun _ =>
      any_head?_padLine hb (fun _ => isEscapable_of_isGap) []
    rw [padLine_cons (hplain hc), textRun_cons (by simpa using hc) hesc, hover lineOver_nil]
    exact .inl ⟨lineOver_nil, rfl⟩
  | case4 c d tail hc => exact hstopped hc
  | case5 c d tail hc hesc text left heq ih =>
    rw [heq] at ih
    have hrun : textRun stops (padLine b (c :: d :: tail)) =
        (d :: (textRun stops (padLine b tail)).1, (textRun stops (padLine b tail)).2) := by
      rw [padLine_cons (hplain hc), padLine_cons (isLineEnd_of_isEscapable (Bool.and_eq_true_iff.mp hesc).2), textRun,
        if_neg hc, if_pos hesc]
    rw [hrun]
    rcases ih with ⟨hend, ih⟩ | ⟨hend, ih⟩ <;> rw [ih]
    · exact .inl ⟨hend, rfl⟩
    · exact .inr ⟨hend, rfl⟩
  | case6 c d tail hc hesc text left heq ih =>
    rw [heq] at ih
    have hesc : c = '\\' → (padLine b (d :: tail)).head?.any isEscapable = false := by
      rw [any_head?_padLine hb fun _ => isEscapable_of_isGap]
      simpa using hesc
    rw [padLine_cons (hplain hc), textRun_cons (by simpa using hc) hesc]
    rcases ih with ⟨hend, ih⟩ | ⟨hend, ih⟩ <;> rw [ih]
    · exact .inl ⟨hend, rfl⟩
    · exact .inr ⟨hend, rfl⟩

theorem trimEnd_append (hb : ∀ c ∈ b, isBlank c = true) (cs : List Char) : trimEnd (cs ++ b) = trimEnd cs := by
  unfold trimEnd
  rw [List.reverse_append, List.dropWhile_append_of_pos fun c hc => isSpace_of_isBlank (hb c (List.mem_reverse.mp hc))]

/-! ### Strings -/

section StringBody
variable {quote : Char}

theorem stringBody_blanks (hb : ∀ c ∈ b, isBlank c = true) (hquote : isBlank quote = false) (hcs : LineOver cs) :
    stringBody quote (b ++ cs) = (none, cs) := by
  induction b with
  | nil => exact stringBody_stopped hcs
  | cons c b ih =>
    obtain ⟨hc, hb⟩ := List.forall_mem_cons.1 hb
    have hslash : c ≠ '\\' := by
      rintro rfl
      cases hc
    have hne : c ≠ quote := by
      rintro rfl
      rw [hc] at hquote
      cases hquote
    rw [List.cons_append, stringBody_cons (isLineEnd_of_isBlank hc) (absurd · hslash), if_neg hne, ih hb]
    rfl

/-- A string that is not closed takes the blanks along, and one that is closed has not come to them. -/
def StringPadded (quote : Char) (b cs : List Char) : Prop :=
  LineOver (stringBody quote cs).2 ∧ (stringBody quote cs).1 = none ∧
      stringBody quote (padLine b cs) = stringBody quote cs ∨
    stringBody quote (padLine b cs) = ((stringBody quote cs).1, padLine b (stringBody quote cs).2)

theorem stringBody_padLine (hb : ∀ c ∈ b, isBlank c = true) (hquote : isGap quote = false) (cs : List Char) :
    StringPadded quote b cs := by
  obtain ⟨hblank, hplainQuote⟩ := Bool.or_eq_false_iff.mp hquote
  have hover {cs : List Char} (h : LineOver cs) : StringPadded quote b cs := by
    unfold StringPadded
    rw [stringBody_stopped h, padLine_over h, stringBody_blanks hb hblank h]
    exact .inl ⟨h, rfl, rfl⟩
  have hstep {c : Char} {cs : List Char} (hc : isLineEnd c = false) (hesc : c = '\\' → cs.head? ≠ some quote)
      (ih : c ≠ quote → StringPadded quote b cs) : StringPadded quote b (c :: cs) := by
    have hesc' : c = '\\' → (padLine b cs).head? ≠ some quote := fun hslash => by
      rw [ne_eq, head?_padLine_eq_some hb hquote]
      exact hesc hslash
    unfold StringPadded
    rw [padLine_cons hc, stringBody_cons hc hesc, stringBody_cons hc hesc']
    split
    · exact .inr rfl
    · next hne =>
      rcases ih hne with ⟨hend, hnone, ih⟩ | ih
      · exact .inl ⟨hend, by simp [hnone], by rw [ih]⟩
      · exact .inr (by rw [ih])
  have hslash {c d : Char} (hesc : ¬(decide (c = '\\') && decide (d = quote)) = true) {tail : List Char} :
      c = '\\' → (d :: tail).head? ≠ some quote := by
    simpa using hesc
  induction cs using stringBody.induct quote with
  | case1 => exact hover lineOver_nil
  | case2 c hc => exact hover (lineOver_cons.2 hc)
  | case3 hc => exact hstep (by simpa using hc) (by simp) fun _ => hover lineOver_nil
  | case4 c hc hne => exact hstep (by simpa using hc) (by simp) fun _ => hover lineOver_nil
  | case5 c d tail hc => exact hover (lineOver_cons.2 hc)
  | case6 c d tail hc hesc inner after heq ih =>
    simp only [Bool.and_eq_true, decide_eq_true_eq] at hesc
    obtain ⟨rfl, rfl⟩ := hesc
    have hbody (cs : List Char) : stringBody d ('\\' :: d :: cs) =
        ((stringBody d cs).1.map (d :: ·), (stringBody d cs).2) := by
      rw [stringBody, if_neg hc, if_pos (by simp)]
    unfold StringPadded
    rw [padLine_cons rfl, padLine_cons hplainQuote, hbody, hbody]
    rcases ih with ⟨hend, hnone, ih⟩ | ih
    · exact .inl ⟨hend, by simp [hnone], by rw [ih]⟩
    · exact .inr (by rw [ih])
  | case7 d tail hc hesc => exact hstep (by simpa using hc) (hslash hesc) (absurd rfl)
  | case8 c d tail hc hesc hne inner after heq ih => exact hstep (by simpa using hc) (hslash hesc) fun _ => ih

end StringBody

/-! ### Speakers and marks -/

/-- What a class stops in a text it stops there whatever comes behind. -/
theorem takeWhile_append_of_dropWhile (h : cs.dropWhile p = c :: r) (q : List Char) :
    (cs ++ q).takeWhile p = cs.takeWhile p ∧ (cs ++ q).dropWhile p = c :: (r ++ q) := by
  have hc : p c = false := by
    have hhead := List.head?_dropWhile_not p cs
    simpa [h] using hhead
  have hsplit : cs ++ q = cs.takeWhile p ++ (c :: (r ++ q)) := by
    calc cs ++ q
      _ = (cs.takeWhile p ++ cs.dropWhile p) ++ q := by rw [List.takeWhile_append_dropWhile]
      _ = cs.takeWhile p ++ (c :: (r ++ q)) := by rw [h, List.append_assoc, List.cons_append]
  have hall : ∀ d ∈ cs.takeWhile p, p d = true := fun d hd => List.mem_takeWhile_imp hd
  rw [hsplit, List.takeWhile_append_of_pos hall, List.dropWhile_append_of_pos hall]
  simp [hc]

theorem dropWhile_append_eq_nil (h : cs.dropWhile p = []) (hq : ∀ c ∈ q, p c = true) :
    (cs ++ q).dropWhile p = [] := by
  rw [List.dropWhile_eq_nil_iff] at h ⊢
  simpa [or_imp, forall_and] using ⟨h, hq⟩

theorem emotionHead?_append (hb : ∀ c ∈ b, isBlank c = true) (cs : List Char) :
    emotionHead? (cs ++ b) = emotionHead? cs := by
  have hother : ∀ c ∈ b, (c != ']') = true := by
    intro c hc
    have := hb c hc
    simp only [bne_iff_ne]
    rintro rfl
    cases this
  unfold emotionHead?
  dsimp only
  cases hinside : cs.dropWhile fun c => c != ']' with
  | nil => rw [dropWhile_append_eq_nil hinside hother]
  | cons bracket after =>
    obtain ⟨htake, hdrop⟩ := takeWhile_append_of_dropWhile hinside b
    rw [htake, hdrop]
    dsimp only
    cases hgap : after.dropWhile isBlank with
    | nil =>
      rw [dropWhile_append_eq_nil hgap hb]
      rfl
    | cons c r =>
      obtain ⟨htake', hdrop'⟩ := takeWhile_append_of_dropWhile hgap b
      rw [htake', hdrop']
      rfl

theorem speakerHead?_blanks (hb : ∀ c ∈ b, isBlank c = true) : speakerHead? b = none := by
  induction b with
  | nil => rfl
  | cons c b ih =>
    obtain ⟨hc, hrest⟩ := List.forall_mem_cons.1 hb
    have hnone := ih hrest
    simp only [isBlank, Bool.or_eq_true, beq_iff_eq] at hc
    rcases hc with rfl | rfl <;> cases b <;> simp [speakerHead?, isColon, hnone]

/-- No speaker is read off blanks. -/
theorem speakerHead?_append (hb : ∀ c ∈ b, isBlank c = true) (cs : List Char) :
    speakerHead? (cs ++ b) = speakerHead? cs := by
  induction cs using speakerHead?.induct with
  | case1 => exact speakerHead?_blanks hb
  | case2 c hc =>
    have hmark : c ≠ '#' ∧ c ≠ '{' ∧ c ≠ '\\' := by
      refine ⟨?_, ?_, ?_⟩ <;> rintro rfl <;> cases hc
    cases b <;> simp [speakerHead?, hc, hmark]
  | case3 c hc =>
    cases b with
    | nil => rfl
    | cons d b =>
      have hesc : isEscapable d = false := isEscapable_of_isGap (by simp [isGap, hb d (by simp)])
      have hnone : emotionHead? (d :: b) = none := emotionHead?_append hb []
      simp [speakerHead?, hc, hesc, hnone, speakerHead?_blanks hb]
  | case4 c d tail hmark => simp [speakerHead?, hmark]
  | case5 c d tail hmark hesc ih =>
    simp only [List.cons_append, speakerHead?, if_neg hmark, if_pos hesc, ih]
  | case6 c d tail hmark hesc hc =>
    simp only [List.cons_append, speakerHead?, if_neg hmark, if_neg hesc, if_pos hc]
  | case7 d tail hmark hesc hc =>
    have hinside : emotionHead? (d :: (tail ++ b)) = emotionHead? (d :: tail) := emotionHead?_append hb (d :: tail)
    simp only [List.cons_append, speakerHead?, if_neg hmark, if_neg hesc, if_neg hc, if_true, hinside]
  | case8 c d tail hmark hesc hc hbracket ih =>
    simp only [List.cons_append] at ih
    simp only [List.cons_append, speakerHead?, if_neg hmark, if_neg hesc, if_neg hc, if_neg hbracket, ih]

end Text

/-- A gap does not make a mark of two characters. -/
theorem Punctuator.ofChars_gap (c : Char) {second : Option Char} (h : ∀ d ∈ second, isGap d = true) :
    ofChars c second = ofChars c none := by
  cases second with
  | none => rfl
  | some d =>
    have hd := h d rfl
    simp only [isGap, isBlank, isLineEnd, Bool.or_eq_true, beq_iff_eq] at hd
    rcases hd with (rfl | rfl) | rfl | rfl <;> rfl

namespace CodeHead
variable {b tail : List Char} {c quote : Char}

theorem ofMark_gap (c : Char) {second : Option Char} (h : ∀ d ∈ second, isGap d = true) :
    ofMark c second = ofMark c none := by
  have hfits := Punctuator.fits_ofChars c none
  unfold ofMark
  rw [Punctuator.ofChars_gap c h]
  cases hmark : Punctuator.ofChars c none with
  | broken => rfl
  | token kind value width =>
    rw [hmark] at hfits
    obtain ⟨rfl | ⟨-, d, hd, -⟩, -⟩ := hfits
    · rfl
    · cases hd

theorem ofMark_padLine (hb : ∀ c ∈ b, isBlank c = true) (c : Char) (tail : List Char) :
    ofMark c (padLine b tail).head? = ofMark c tail.head? := by
  rcases head?_padLine hb tail with h | ⟨h, h'⟩
  · rw [h]
  · rw [ofMark_gap c h, ofMark_gap c h']

/-- The same comes next in both texts, or what is refused takes the blanks along. -/
def Padded (b cs : List Char) (head head' : CodeHead) : Prop :=
  head' = head ∨ ∃ cause text left, cs = text ++ left ∧ LineOver left ∧ head = .refused cause text ∧
    head' = .refused cause (text ++ b)

theorem padded_ofString (hb : ∀ c ∈ b, isBlank c = true) (hquote : isGap quote = false) (tail : List Char) :
    Padded b (quote :: tail) (ofString quote tail) (ofString quote (padLine b tail)) := by
  have hpadded := stringBody_padLine hb hquote tail
  unfold StringPadded at hpadded
  rcases hbody : stringBody quote tail with ⟨body, left⟩
  rw [hbody] at hpadded
  obtain ⟨p, rfl, hplain⟩ := stringBody_stretch (Bool.or_eq_false_iff.mp hquote).2 hbody
  rcases hpadded with ⟨hend, rfl, hsame⟩ | hsame
  · have hleft : padLine b (p ++ left) = p ++ b ++ left := by
      rw [padLine_append hplain, padLine_over hend, List.append_assoc]
    rw [ofString_eq hbody rfl, ofString_eq hsame hleft]
    exact .inr ⟨.unclosedString, quote :: p, left, rfl, hend, rfl, rfl⟩
  · rw [ofString_eq hbody rfl, ofString_eq hsame (padLine_append hplain)]
    exact .inl rfl

end CodeHead

/-- Only a string that is not closed comes to the blanks behind it. -/
theorem padded_codeHead {b cs : List Char} (hb : ∀ c ∈ b, isBlank c = true) (h : ¬LineOver cs) :
    CodeHead.Padded b cs (codeHead cs) (codeHead (padLine b cs)) := by
  obtain ⟨c, tail, rfl, hc⟩ := exists_cons_of_line h
  have hnot : ¬isLineEnd c = true := by simp [hc]
  have hword := wordHead_padLine hb (c :: tail)
  have hnumeral := numeral_padLine hb (c :: tail)
  rw [padLine_cons hc] at hword hnumeral ⊢
  rw [codeHead, codeHead, hword, hnumeral, wordHead_padLine hb, CodeHead.ofMark_padLine hb]
  simp only [head?_padLine_eq_some (c := '/') hb rfl, if_neg hnot]
  split
  · exact .inl rfl
  split
  · exact .inl rfl
  split
  · exact .inl rfl
  split
  · next hquote =>
    refine CodeHead.padded_ofString hb ?_ tail
    simp only [Bool.or_eq_true, decide_eq_true_eq] at hquote
    rcases hquote with rfl | rfl <;> rfl
  · exact .inl rfl

end Parley
