import Parley.Parser.Holes

/-! # Strings with holes

What a string token stands for, said without the scan that finds it out. A string that lacks one of the two braces is
plain. Any other string is cut into pieces: literal stretches without an opening brace, and between two of them a
hole, an opening brace and the next closing one with the name of a variable inside. A closing brace outside a hole is
an ordinary character, so the cut is the only one there is, and a string has no cut when a hole does not close or
names no variable. -/

namespace Parley

/-- A stretch of literal text as segments: none if it is empty. -/
def literalText (pos : Pos) (text : List Char) : List Segment :=
  if text = [] then [] else [.literal (String.ofList text) pos]

theorem literalSegment_eq (pos : Pos) (cs : List Char) : literalSegment pos cs = literalText pos cs.reverse := by
  cases cs with
  | nil => rfl
  | cons c cs => simp [literalSegment, literalText]

/-- The text is cut at its holes into the segments. -/
inductive Pieces (pos : Pos) : List Char → List Segment → Prop
  | last {text : List Char} (htext : '{' ∉ text) : Pieces pos text (literalText pos text)
  | hole {text body name rest : List Char} {more : List Segment} (htext : '{' ∉ text) (hbody : '}' ∉ body)
      (hname : holeName? body = some name) (hrest : Pieces pos rest more) :
      Pieces pos (text ++ '{' :: (body ++ '}' :: rest))
        (literalText pos text ++ .hole (.reference (String.ofList name) pos) pos :: more)

section Split
variable {pos : Pos}

/-- What the scan has behind it when it is at `cs`. -/
def behind (literal : List Char) : Option (List Char) → List Char → List Char
  | none, cs => literal.reverse ++ cs
  | some body, cs => literal.reverse ++ '{' :: (body.reverse ++ cs)

theorem pieces_of_splitHoles {literal : List Char} {hole : Option (List Char)} {cs : List Char} {segments : List Segment}
    (hliteral : '{' ∉ literal) (hhole : ∀ body, hole = some body → '}' ∉ body)
    (h : splitHoles pos literal hole cs = .ok segments) : Pieces pos (behind literal hole cs) segments := by
  induction cs generalizing literal hole segments with
  | nil =>
    cases hole with
    | none =>
      have hend : literalSegment pos literal = segments := by simpa [splitHoles] using h
      subst hend
      rw [literalSegment_eq]
      simpa [behind] using Pieces.last (by simpa using hliteral)
    | some body => simp [splitHoles] at h
  | cons c rest ih =>
    cases hole with
    | none =>
      by_cases hc : c = '{'
      · subst hc
        have hscan : splitHoles pos literal (some []) rest = .ok segments := by simpa [splitHoles] using h
        simpa [behind] using ih hliteral (by simp) hscan
      · have hscan : splitHoles pos (c :: literal) none rest = .ok segments := by simpa [splitHoles, hc] using h
        have hliteral' : '{' ∉ c :: literal := by simp [hliteral, Ne.symm hc]
        simpa [behind] using ih hliteral' (by simp) hscan
    | some body =>
      have hbody := hhole body rfl
      by_cases hc : c = '}'
      · subst hc
        cases hname : holeName? body.reverse with
        | none => simp [splitHoles, hname] at h
        | some name =>
          cases hmore : splitHoles pos [] none rest with
          | error e => simp [splitHoles, hname, hmore, bind, Except.bind] at h
          | ok more =>
            obtain rfl : literalSegment pos literal ++ .hole (.reference (String.ofList name) pos) pos :: more =
                segments := by
              simpa [splitHoles, hname, hmore, bind, Except.bind, pure, Except.pure] using h
            have hrest : Pieces pos rest more := by
              simpa [behind] using ih (by simp) (by simp) hmore
            rw [literalSegment_eq]
            simpa [behind] using Pieces.hole (by simpa using hliteral) (by simpa using hbody) hname hrest
      · have hscan : splitHoles pos literal (some (c :: body)) rest = .ok segments := by simpa [splitHoles, hc] using h
        have hbody' : ∀ b, some (c :: body) = some b → '}' ∉ b := by
          rintro _ ⟨⟩
          simp [hbody, Ne.symm hc]
        simpa [behind] using ih hliteral hbody' hscan

/-- Literal text is gathered up to the next opening brace. -/
theorem splitHoles_literal {text : List Char} (htext : '{' ∉ text) (literal tail : List Char) :
    splitHoles pos literal none (text ++ tail) = splitHoles pos (text.reverse ++ literal) none tail := by
  induction text generalizing literal with
  | nil => rfl
  | cons c text ih =>
    simp only [List.mem_cons, not_or] at htext
    simp [splitHoles, Ne.symm htext.1, ih htext.2]

/-- The body of a hole is gathered up to the next closing brace. -/
theorem splitHoles_body {body : List Char} (hbody : '}' ∉ body) (literal before tail : List Char) :
    splitHoles pos literal (some before) (body ++ tail) =
      splitHoles pos literal (some (body.reverse ++ before)) tail := by
  induction body generalizing before with
  | nil => rfl
  | cons c body ih =>
    simp only [List.mem_cons, not_or] at hbody
    simp [splitHoles, Ne.symm hbody.1, ih hbody.2]

theorem splitHoles_of_pieces {cs : List Char} {segments : List Segment} (h : Pieces pos cs segments) :
    splitHoles pos [] none cs = .ok segments := by
  induction h with
  | @last text htext =>
    have hgather : splitHoles pos [] none (text ++ []) = splitHoles pos (text.reverse ++ []) none [] :=
      splitHoles_literal htext [] []
    rw [List.append_nil] at hgather
    rw [hgather]
    simp [splitHoles, literalSegment_eq]
  | @hole text body name rest more htext hbody hname _ ih =>
    have hopen (literal tail : List Char) :
        splitHoles pos literal none ('{' :: tail) = splitHoles pos literal (some []) tail := by
      simp [splitHoles]
    rw [splitHoles_literal htext, hopen, splitHoles_body hbody]
    simp [splitHoles, hname, ih, literalSegment_eq, bind, Except.bind, pure, Except.pure]

theorem splitHoles_iff {cs : List Char} {segments : List Segment} :
    splitHoles pos [] none cs = .ok segments ↔ Pieces pos cs segments :=
  ⟨fun h => by simpa [behind] using pieces_of_splitHoles (by simp) (by simp) h, splitHoles_of_pieces⟩

end Split

/-- Both braces occur in the text. -/
def HasBraces (text : List Char) : Prop := '{' ∈ text ∧ '}' ∈ text

/-- A string with both braces has a hole, so it never comes out as one literal segment. -/
theorem Pieces.not_single {pos p : Pos} {cs : List Char} {text : String} (h : Pieces pos cs [.literal text p]) :
    '{' ∉ cs := by
  generalize hs : [Segment.literal text p] = segments at h
  cases h with
  | last htext => exact htext
  | @hole text _ _ _ _ _ _ _ _ =>
    unfold literalText at hs
    split at hs <;> simp at hs

/-- A string token without both braces is a plain string, one with both is the string cut into its pieces. -/
theorem stringLiteral_iff {t : Token} {e : Expr} :
    stringLiteral t = .ok e ↔
      (¬ HasBraces t.value.toList ∧ e = .string t.value t.pos) ∨
        HasBraces t.value.toList ∧ ∃ segments, Pieces t.pos t.value.toList segments ∧ e = .interpolated segments t.pos := by
  by_cases hb : HasBraces t.value.toList
  · have hcond : (t.value.toList.contains '{' && t.value.toList.contains '}') = true := by simpa [HasBraces] using hb
    simp only [stringLiteral, hcond, if_true, hb, not_true_eq_false, false_and, false_or, true_and]
    constructor
    · intro h
      split at h
      · cases h
      · cases h
      · next text p hs => exact absurd hb.1 (splitHoles_iff.mp hs).not_single
      · next segments _ hs =>
        cases h
        exact ⟨segments, splitHoles_iff.mp hs, rfl⟩
    · rintro ⟨segments, hp, rfl⟩
      rw [splitHoles_iff.mpr hp]
      split
      · next heq => cases heq
      · next heq => cases heq
      · next heq =>
        cases heq
        exact absurd hb.1 hp.not_single
      · next heq =>
        cases heq
        rfl
  · have hcond : ¬ (t.value.toList.contains '{' && t.value.toList.contains '}') = true := by simpa [HasBraces] using hb
    have hplain : stringLiteral t = .ok (.string t.value t.pos) := if_neg hcond
    simp only [hplain, hb, not_false_eq_true, true_and, false_and, or_false, Except.ok.injEq]
    exact eq_comm

end Parley
