import Mathlib.Data.List.DropRight
import Parley.Proofs.RawText
import Parley.Proofs.TrailingBlanks

/-! # Layout noise is invisible

The lexer comes to the end of whole lines with nothing but the open blocks, and it passes over a line without content.
So with such a line there it yields the same a line further down (`Lexes.insertLine`), and with blanks at the end of
the line it comes to next it yields the same but for what stands behind that line (`Lexes.insertBlanks`). The other
line ends are read as line feeds are, so both hold of every text. -/

namespace Parley

section Runs
variable {out : List Token} {e : Option LexError}

/-- Behind whole lines two texts are told apart by what the lexer makes of them from there. -/
theorem Lexes.behind {p x y : List Char} (h : Lexes { rest := p ++ x } out e) (hp : p = [] ∨ p.getLast? = some '\n')
    {f : Token → Token} {g : LexError → LexError} (hf : ∀ t : Token, t.line ≤ lineTerminators p → f t = t)
    (hg : ∀ d : LexError, d.line ≤ lineTerminators p → g d = d)
    (hlater : ∀ s : Lexer, s.AtEnd → s.line = lineTerminators p + 1 → ∀ out e, Lexes { s with rest := x } out e →
      Lexes { s with rest := y } (out.map f) (e.map g)) :
    Lexes { rest := p ++ y } (out.map f) (e.map g) := by
  have hwhole : ({ rest := p } : Lexer).Whole := by
    refine ⟨?_, nofun⟩
    rcases hp with rfl | hlast
    · exact .inl ⟨rfl, rfl, rfl, rfl⟩
    · exact .inr ⟨hlast, nofun⟩
  have hkept {ts : List Token} (hts : ∀ t ∈ ts, t.line < ((1 : Nat) : Int) + lineTerminators p) : ts.map f = ts :=
    (List.map_congr_left fun t ht => hf t (by have := hts t ht; omega)).trans (List.map_id ts)
  obtain ⟨own, d, hown⟩ : ∃ own d, Lexes ({ rest := p } : Lexer) own d := ⟨_, _, Lexer.lexes_tokenize nofun⟩
  cases hown.extend hwhole nofun with
  | @broken _ d hout hline hmore =>
    obtain ⟨rfl, rfl⟩ := h.unique (hmore x false false (.inl ⟨rfl, rfl⟩))
    rw [hkept hout, Option.map_some, hg d (by have : d.line < 1 + lineTerminators p := hline; omega)]
    exact hmore y false false (.inl ⟨rfl, rfl⟩)
  | @reached last inner hlast hinner hmore =>
    obtain ⟨a, b, hx⟩ := hmore x false false (.inl ⟨rfl, rfl⟩)
    obtain ⟨a', b', hy⟩ := hmore y false false (.inl ⟨rfl, rfl⟩)
    -- the texts part where the lexer starts a line with the flags that the first of them has left it
    let s : Lexer := { last with inChoice := a, textStart := b }
    have hline : s.line = lineTerminators p + 1 := hlast.line.trans (Nat.add_comm _ _)
    have hpart (z : List Char) (a b : Bool) : last.within 0 z a b = ({ s with rest := z } : Lexer).within 0 [] a b := by
      simp [s, Lexer.within, hlast.atEnd.rest]
    have hsame : last.within 0 x a b = { s with rest := x } := by
      simp [s, Lexer.within, hlast.atEnd.rest]
    obtain ⟨more, d, hrest⟩ : ∃ more d, Lexes ({ s with rest := x } : Lexer) more d :=
      ⟨_, _, Lexer.lexes_tokenize fun t ht => by simp [s, hlast.atEnd.pending] at ht⟩
    obtain ⟨rfl, rfl⟩ := h.unique (hx _ _ (hsame ▸ hrest))
    have hrest' := (hlater s ⟨hlast.atEnd.rest, hlast.atEnd.mode, hlast.atEnd.column, hlast.atEnd.pending⟩ hline _ _
      hrest).down 0 (a := a') (b := b') (.inr (by simp [s, hlast.atEnd.mode]))
    rw [← hpart, Token.down_zero, List.map_id, LexError.down_zero, Option.map_id] at hrest'
    rw [List.map_append, hkept hinner]
    exact hy _ _ hrest'

end Runs

/-! ### Lines without content -/

/-- A token that lies behind these lines moves down one line. -/
def Token.lowered (lines : Nat) (t : Token) : Token := if t.line ≤ lines then t else t.down 1

def LexError.lowered (lines : Nat) (e : LexError) : LexError := if e.line ≤ lines then e else e.down 1

section Insertion
variable {s s' : Lexer} {out : List Token} {e : Option LexError} {line rest : List Char}

/-- A line without content is passed over. -/
theorem Lexer.startLine_blank (hline : ∀ c ∈ line, isLineEnd c = false) (hcontent : hasContent line = false)
    (hrest : s.rest = line ++ '\n' :: rest) : ∃ a b, s.startLine =
      (none, { s with rest := rest, line := s.line + 1, column := 1, inChoice := a, textStart := b }) := by
  have hleft : s.lineLeft = line := by
    unfold Lexer.lineLeft
    rw [hrest, List.takeWhile_append_of_pos (by simpa using hline)]
    simp [isLineEnd]
  rcases hstart : s.startLine with ⟨f, s'⟩
  cases Lexer.started_of_startLine hstart with
  | finish hnil => simp [hrest] at hnil
  | @skip p m _ _ halong hmode hend =>
    have hp : line = p := by
      have hsplit := Lexer.lineLeft_of_along halong
      rwa [hleft, Lexer.lineLeft_atLineEnd hend, List.append_nil] at hsplit
    have hm : m.rest = '\n' :: rest := by
      have hsplit := halong.rest
      rw [hrest, hp] at hsplit
      exact (List.append_cancel_left hsplit).symm
    have hnewline : isLineEnd '\n' = true := rfl
    rw [Lexer.consumeNewline_cons hm (by simp), if_pos hnewline]
    exact ⟨m.inChoice, m.textStart, by simp [halong.line, halong.levels, halong.pending, hmode]⟩
  | header hsome | content hsome | refused hsome =>
    rw [hleft, hcontent] at hsome
    cases hsome

/-- So with one more line of this kind the lexer yields the same a line further down. -/
theorem Lexes.insert (h : Lexes { s with rest := rest } out e) (hs : s.AtEnd)
    (hline : ∀ c ∈ line, isLineEnd c = false) (hcontent : hasContent line = false) :
    Lexes { s with rest := line ++ '\n' :: rest } (out.map (Token.down 1)) (e.map (LexError.down 1)) := by
  obtain ⟨a, b, hstart⟩ :=
    Lexer.startLine_blank (s := { s with rest := line ++ '\n' :: rest }) hline hcontent rfl
  have hdown := h.down 1 (a := a) (b := b) (.inr (by simp [hs.mode]))
  refine Lexes.started ?_ hs.mode hs.pending hstart
  simpa [Lexer.within, hs.column, hs.pending] using hdown

end Insertion

/-! ### Texts with any line ends -/

/-- The texts do not meet inside a `\r\n`. -/
def Seam (p q : List Char) : Prop := ¬(p.getLast? = some '\r' ∧ q.head? = some '\n')

instance (p q : List Char) : Decidable (Seam p q) :=
  decidable_of_iff ((p.getLast?.any (· == '\r') && q.head?.any (· == '\n')) = false) <| by
    unfold Seam
    cases p.getLast? <;> cases q.head? <;> simp

/-- All lines of the text are ended. -/
def WholeLines (p : List Char) : Prop := ∀ c ∈ p.getLast?, isLineEnd c = true

instance (p : List Char) : Decidable (WholeLines p) :=
  decidable_of_iff (p.getLast?.all isLineEnd = true) <| by
    unfold WholeLines
    cases p.getLast? <;> simp

/-- A line of blanks and perhaps a comment, with its end. -/
def LayoutLine (l : List Char) : Prop :=
  ∃ blanks comment ending : List Char, l = blanks ++ (comment ++ ending) ∧ (∀ c ∈ blanks, isBlank c = true) ∧
    (comment = [] ∨ ∃ text, comment = '/' :: '/' :: text ∧ ∀ c ∈ text, isLineEnd c = false) ∧
    (ending = ['\n'] ∨ ending = ['\r'] ∨ ending = ['\r', '\n'])

/-- The column behind the last line of a text. -/
def lastColumn (p : List Char) : Nat := (p.rtakeWhile fun c => !isLineEnd c).length + 1

section LineEnds
variable {p q l : List Char}

theorem Seam.append (h : Seam p q) (h' : Seam l q) : Seam (p ++ l) q := by
  rintro ⟨hlast, hhead⟩
  rw [List.getLast?_append] at hlast
  cases hl : l.getLast? with
  | none =>
    rw [hl] at hlast
    exact h ⟨hlast, hhead⟩
  | some c =>
    rw [hl] at hlast
    exact h' ⟨hl.trans hlast, hhead⟩

theorem seam_of_plain (hp : ∀ c ∈ p, isLineEnd c = false) : Seam p q := by
  rintro ⟨hlast, -⟩
  cases hp _ (List.mem_of_getLast? hlast)

theorem seam_plain (hq : ∀ c ∈ q, isLineEnd c = false) : Seam p q := by
  rintro ⟨-, hhead⟩
  cases hq _ (List.mem_of_mem_head? hhead)

section Cons
variable {c : Char} {rest : List Char}

theorem Seam.tail (h : Seam (c :: rest) q) : Seam rest q := by
  rintro ⟨hlast, hhead⟩
  refine h ⟨?_, hhead⟩
  rw [List.getLast?_cons, hlast]
  rfl

theorem Seam.alone (h : Seam (c :: rest) q) (hno : ∀ tail, c = '\r' → rest = '\n' :: tail → False) (hc : c = '\r') :
    (rest ++ q).head? ≠ some '\n' := by
  intro hhead
  cases rest with
  | nil => exact h ⟨by rw [hc]; rfl, hhead⟩
  | cons d rest =>
    obtain rfl : d = '\n' := by simpa using hhead
    exact hno rest hc rfl

end Cons

theorem unify_seam (h : Seam p q) : unifyLineEnds (p ++ q) = unifyLineEnds p ++ unifyLineEnds q := by
  fun_induction unifyLineEnds p with
  | case1 => rfl
  | case2 rest ih =>
    simp only [List.cons_append, unifyLineEnds]
    rw [ih h.tail.tail]
  | case3 c rest hno ih =>
    rw [List.cons_append, unify_cons_alone (h.alone hno), ih h.tail]
    rfl

theorem lineTerminators_seam (h : Seam p q) : lineTerminators (p ++ q) = lineTerminators p + lineTerminators q := by
  fun_induction lineTerminators p with
  | case1 => simp
  | case2 rest ih =>
    simp only [List.cons_append, lineTerminators]
    rw [ih h.tail.tail]
    omega
  | case3 c rest hno ih =>
    rw [List.cons_append, lineTerminators_cons (h.alone hno), ih h.tail]
    omega

theorem getLast?_unify (p : List Char) : (unifyLineEnds p).getLast? = p.getLast?.map unifyChar := by
  fun_induction unifyLineEnds p with
  | case1 => rfl
  | case2 rest ih =>
    simp only [List.getLast?_cons, ih]
    cases rest.getLast? <;> rfl
  | case3 c rest _ ih =>
    simp only [List.getLast?_cons, ih]
    cases rest.getLast? <;> rfl

theorem lineTerminators_unify (p : List Char) : lineTerminators (unifyLineEnds p) = lineTerminators p := by
  fun_induction unifyLineEnds p with
  | case1 => rfl
  | case2 rest ih => simp [lineTerminators, isLineEnd, ih]
  | case3 c rest hno ih =>
    show lineTerminators (unifyChar c :: unifyLineEnds rest) = _
    rw [lineTerminators_cons (alone_of_cases hno), lineTerminators_cons (absurd · (unifyChar_ne c)),
      isLineEnd_unifyChar, ih]

theorem WholeLines.unify (h : WholeLines p) : unifyLineEnds p = [] ∨ (unifyLineEnds p).getLast? = some '\n' := by
  rw [getLast?_unify]
  cases hlast : p.getLast? with
  | none => exact .inl (by rw [List.getLast?_eq_none_iff.mp hlast]; rfl)
  | some c =>
    have hc : isLineEnd c = true := h c hlast
    simp only [isLineEnd, Bool.or_eq_true, beq_iff_eq] at hc
    rcases hc with rfl | rfl <;> exact .inr rfl

theorem LineOver.unify (h : LineOver q) : LineOver (unifyLineEnds q) := by
  intro c hc
  obtain ⟨d, hd, rfl⟩ := Option.map_eq_some_iff.mp ((head?_unify q).symm.trans hc)
  exact (isLineEnd_unifyChar d).trans (h d hd)

theorem LayoutLine.unify (h : LayoutLine l) : ∃ line, unifyLineEnds l = line ++ ['\n'] ∧
    (∀ c ∈ line, isLineEnd c = false) ∧ hasContent line = false := by
  obtain ⟨blanks, comment, ending, rfl, hblanks, hcomment, hending⟩ := h
  have hplain : ∀ c ∈ blanks ++ comment, isLineEnd c = false := by
    intro c hc
    rcases List.mem_append.mp hc with hc | hc
    · exact isLineEnd_of_isBlank (hblanks c hc)
    · rcases hcomment with rfl | ⟨text, rfl, htext⟩
      · cases hc
      · simp only [List.mem_cons] at hc
        rcases hc with rfl | rfl | hc
        · rfl
        · rfl
        · exact htext c hc
  refine ⟨blanks ++ comment, ?_, hplain, ?_⟩
  · rw [← List.append_assoc, unify_append hplain]
    rcases hending with rfl | rfl | rfl <;> rfl
  · rw [hasContent_append hblanks]
    rcases hcomment with rfl | ⟨text, rfl, -⟩ <;> simp [hasContent, isBlank]

/-- The last line of a text, which nothing ends, stands behind whole lines. -/
theorem exists_lastLine (p : List Char) : ∃ front last, p = front ++ last ∧ WholeLines front ∧
    (∀ c ∈ last, isLineEnd c = false) ∧ lastColumn p = last.length + 1 := by
  refine ⟨p.rdropWhile fun c => !isLineEnd c, p.rtakeWhile fun c => !isLineEnd c, ?_, fun c hc => ?_, fun c hc => ?_,
    rfl⟩
  · rw [List.rdropWhile, List.rtakeWhile, ← List.reverse_append, List.takeWhile_append_dropWhile, List.reverse_reverse]
  · have hlast := List.head?_dropWhile_not (fun c => !isLineEnd c) p.reverse
    rw [List.rdropWhile, List.getLast?_reverse] at hc
    rw [Option.mem_def.mp hc] at hlast
    simpa using hlast
  · simpa using List.mem_rtakeWhile_imp hc

end LineEnds

section Texts
variable {p q l b : List Char} {out : List Token} {e : Option LexError}

/-- A line without content between two texts moves what the second one yields a line down. -/
theorem Lexes.insertLine (h : Lexes { rest := p ++ q } out e) (hp : p = [] ∨ p.getLast? = some '\n')
    (hl : ∀ c ∈ l, isLineEnd c = false) (hcontent : hasContent l = false) :
    Lexes { rest := p ++ (l ++ '\n' :: q) } (out.map (Token.lowered (lineTerminators p)))
      (e.map (LexError.lowered (lineTerminators p))) := by
  refine h.behind hp (fun t ht => if_pos ht) (fun d hd => if_pos hd) fun s hs hline out e h => ?_
  obtain ⟨hout, he⟩ := h.lines (n := lineTerminators p + 1) hline.ge (by simp [hs.pending])
  have htokens : out.map (Token.lowered (lineTerminators p)) = out.map (Token.down 1) :=
    List.map_congr_left fun t ht => if_neg (by have := hout t ht; omega)
  have herror : e.map (LexError.lowered (lineTerminators p)) = e.map (LexError.down 1) :=
    Option.map_congr fun d hd => if_neg (by have := he d hd; omega)
  rw [htokens, herror]
  exact h.insert hs hl hcontent

/-- Blanks at the end of a line only move what stands behind the line. -/
theorem Lexes.insertBlanks (h : Lexes { rest := p ++ (l ++ q) } out e) (hp : p = [] ∨ p.getLast? = some '\n')
    (hl : ∀ c ∈ l, isLineEnd c = false) (hq : LineOver q) (hb : ∀ c ∈ b, isBlank c = true) (hne : b ≠ []) :
    Lexes { rest := p ++ (l ++ (b ++ q)) }
      (out.map (Token.pushed q.isEmpty (lineTerminators p + 1) (l.length + 1) b.length)) e := by
  have hid (e : Option LexError) : e.map id = e := by rw [Option.map_id, id]
  rw [← hid e]
  refine h.behind hp (fun t ht => Token.pushed_of_line (by omega)) (fun _ _ => rfl) fun s hs hline out e h => ?_
  have hover : lineLength q = 0 := by
    cases q with
    | nil => rfl
    | cons c q => simp [lineLength, lineOver_cons.1 hq]
  have hplace : ({ s with rest := l ++ q } : Lexer).lineEnd = l.length + 1 := by
    unfold Lexer.lineEnd
    rw [Lexer.lineLength_append hl, hover, hs.column]
    omega
  have hpadded : ({ s with rest := l ++ q } : Lexer).padded b = { s with rest := l ++ (b ++ q) } := by
    unfold Lexer.padded
    rw [padLine_append hl, padLine_over hq]
  have hlast (h : ({ s with rest := l ++ q } : Lexer).LastLine) : q.isEmpty = true := by
    cases q with
    | nil => rfl
    | cons c q => cases (h c (by simp)).symm.trans (lineOver_cons.1 hq)
  have hrest := h.padLine hb hne hs.mode hs.pending hlast
  rw [hplace, hpadded] at hrest
  rw [hid, ← hline]
  exact hrest

end Texts

/-- What a text yields is what the text with its line ends unified does. -/
theorem Lexes.of_text (x : String) : Lexes { rest := unifyLineEnds x.toList } (Lexer.ofText x).tokenize.tokens
    (Lexer.ofText x).tokenize.error :=
  (Lexer.lexes_tokenize (s := .ofText x) nofun).unified

theorem Lexes.text {x : String} {out : List Token} {e : Option LexError}
    (h : Lexes { rest := unifyLineEnds x.toList } out e) :
    (Lexer.ofText x).tokenize.tokens = out ∧ (Lexer.ofText x).tokenize.error = e :=
  (Lexes.of_text x).unique h

/-- A line of blanks and perhaps a comment, put between whole lines and what follows them, moves what lies behind it
down a line and changes nothing else. -/
theorem layoutLine_invisible {p l q : String} (hp : WholeLines p.toList) (hl : LayoutLine l.toList)
    (hpl : Seam p.toList l.toList) (hlq : Seam l.toList q.toList) (hpq : Seam p.toList q.toList) :
    (Lexer.ofText (p ++ l ++ q)).tokenize.tokens =
        (Lexer.ofText (p ++ q)).tokenize.tokens.map (Token.lowered (lineTerminators p.toList)) ∧
      (Lexer.ofText (p ++ l ++ q)).tokenize.error =
        (Lexer.ofText (p ++ q)).tokenize.error.map (LexError.lowered (lineTerminators p.toList)) := by
  obtain ⟨line, hline, hplain, hcontent⟩ := hl.unify
  have hshort := Lexes.of_text (p ++ q)
  rw [String.toList_append, unify_seam hpq] at hshort
  refine Lexes.text ?_
  rw [String.toList_append, String.toList_append, unify_seam (hpq.append hlq), unify_seam hpl, hline,
    List.append_assoc, List.append_assoc, ← lineTerminators_unify]
  exact hshort.insertLine hp.unify hplain hcontent

/-- Blanks put at the end of a line move only what stands behind the line. -/
theorem trailingBlanks_invisible {p b q : String} (hb : ∀ c ∈ b.toList, isBlank c = true) (hq : LineOver q.toList)
    (hpq : Seam p.toList q.toList) :
    (Lexer.ofText (p ++ b ++ q)).tokenize.tokens = (Lexer.ofText (p ++ q)).tokenize.tokens.map
        (Token.pushed q.toList.isEmpty (lineTerminators p.toList + 1) (lastColumn p.toList) b.length) ∧
      (Lexer.ofText (p ++ b ++ q)).tokenize.error = (Lexer.ofText (p ++ q)).tokenize.error := by
  have hshort := Lexes.of_text (p ++ q)
  obtain ⟨front, last, hsplit, hfront, hlast, hcolumn⟩ := exists_lastLine p.toList
  have hunify : unifyLineEnds p.toList = unifyLineEnds front ++ last := by
    rw [hsplit, unify_seam (seam_plain hlast), unify_plain hlast]
  have hcount : lineTerminators (unifyLineEnds front) = lineTerminators p.toList := by
    have hnone : lineTerminators (last ++ []) = 0 := lineTerminators_plain hlast
    rw [List.append_nil] at hnone
    rw [hsplit, lineTerminators_unify, lineTerminators_seam (seam_plain hlast), hnone, Nat.add_zero]
  have hplain : ∀ c ∈ b.toList, isLineEnd c = false := fun c hc => isLineEnd_of_isBlank (hb c hc)
  rcases eq_or_ne b.toList [] with hnone | hne
  · obtain rfl : b = "" := String.toList_eq_nil_iff.mp hnone
    simp [Token.pushed_zero]
  rw [String.toList_append, unify_seam hpq, hunify, List.append_assoc] at hshort
  have hpad := hshort.insertBlanks hfront.unify hlast hq.unify hb hne
  rw [isEmpty_unify, hcount, ← hcolumn, String.length_toList] at hpad
  refine Lexes.text ?_
  rw [String.toList_append, String.toList_append, unify_seam (hpq.append (seam_of_plain hplain)),
    unify_seam (seam_plain hplain), unify_plain hplain, hunify, List.append_assoc, List.append_assoc]
  exact hpad

/-- Layout noise is invisible. One more line of blanks and perhaps a comment, whatever it is indented by, put where a
line starts moves what lies behind it down a line: the tokens or, where the text cannot be scanned to its end, the
tokens before the error and the error are the same in the same columns. That the texts meet in no `\r\n` is what makes
it a line of its own. Blanks at the end of a line change no token and no error, but the column of the token that ends
the line and, where the text ends there, of those that close its blocks and end the text. -/
theorem layout_invisible (p q : String) :
    (∀ l : String, WholeLines p.toList → LayoutLine l.toList → Seam p.toList l.toList → Seam l.toList q.toList →
      Seam p.toList q.toList →
      (Lexer.ofText (p ++ l ++ q)).tokenize.tokens =
          (Lexer.ofText (p ++ q)).tokenize.tokens.map (Token.lowered (lineTerminators p.toList)) ∧
        (Lexer.ofText (p ++ l ++ q)).tokenize.error =
          (Lexer.ofText (p ++ q)).tokenize.error.map (LexError.lowered (lineTerminators p.toList))) ∧
    ∀ b : String, (∀ c ∈ b.toList, isBlank c = true) → LineOver q.toList → Seam p.toList q.toList →
      (Lexer.ofText (p ++ b ++ q)).tokenize.tokens = (Lexer.ofText (p ++ q)).tokenize.tokens.map
          (Token.pushed q.toList.isEmpty (lineTerminators p.toList + 1) (lastColumn p.toList) b.length) ∧
        (Lexer.ofText (p ++ b ++ q)).tokenize.error = (Lexer.ofText (p ++ q)).tokenize.error :=
  ⟨fun _ hp hl hpl hlq hpq => layoutLine_invisible hp hl hpl hlq hpq,
    fun _ hb hq hpq => trailingBlanks_invisible hb hq hpq⟩

/-- An aside between a menu and its first offer, in a text that cannot be scanned to its end, and blanks at the end of
a text. -/
theorem layout_invisible_menu :
    ((Lexer.ofText ("->\r\n" ++ "\t  // aside\r" ++ "    you\n  no")).tokenize.tokens.map fun t =>
        (t.kind, t.line, t.column)) =
      [(.arrow, 1, 1), (.newline, 1, 3), (.indent, 3, 5), (.text, 3, 5), (.newline, 3, 8)] ∧
    (Lexer.ofText ("->\r\n" ++ "\t  // aside\r" ++ "    you\n  no")).tokenize.error = some ⟨.indentation, 4, 3⟩ ∧
    ((Lexer.ofText ("->\n    you" ++ " \t" ++ "")).tokenize.tokens.map fun t => (t.kind, t.line, t.column)) =
      [(.arrow, 1, 1), (.newline, 1, 3), (.indent, 2, 5), (.text, 2, 5), (.newline, 2, 10), (.dedent, 2, 10),
        (.eof, 2, 10)] := by
  have haside : LayoutLine "\t  // aside\r".toList :=
    ⟨"\t  ".toList, "// aside".toList, "\r".toList, by decide +kernel, by simp [isBlank],
      .inr ⟨" aside".toList, by decide +kernel, by simp [isLineEnd]⟩, .inr (.inl (by decide +kernel))⟩
  obtain ⟨htokens, herror⟩ := (layout_invisible "->\r\n" "    you\n  no").1 "\t  // aside\r" (by decide +kernel) haside
    (by decide +kernel) (by decide +kernel) (by decide +kernel)
  obtain ⟨hended, -⟩ :=
    (layout_invisible "->\n    you" "").2 " \t" (by simp [isBlank]) (by decide +kernel) (by decide +kernel)
  refine ⟨?_, ?_, ?_⟩
  · rw [htokens]
    decide +kernel
  · rw [herror]
    decide +kernel
  · rw [hended]
    decide +kernel

end Parley
