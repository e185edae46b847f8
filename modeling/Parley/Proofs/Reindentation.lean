import Mathlib.Data.List.Forall2
import Mathlib.Order.WellFounded
import Parley.Proofs.Concatenation
import Parley.Proofs.LayoutNoise
import Parley.Proofs.ReindentedScans

/-! # Indentation up to its order

Two texts with the same lines, but for the blanks in front of them, are read side by side (`Lexer.SideBySide`): both
lexers are on the same line, below levels that correspond, and a pass of one is a pass of the other further on in the
line (`Lexer.SideBySide.pass`). Every line is put back to the first column and opened with an indentation that is again
moved as the levels are. So the tokens differ in their columns only (`Lexes.reindented`), and the parser, which only
takes note of columns, makes the same of them. -/

namespace Parley

/-- How many blanks a line is indented by. -/
def indentation (line : List Char) : Nat := (line.takeWhile isBlank).length

/-- The line with as many blanks in front of it as `f` makes of those that are there. -/
structure Reindented (f : Nat → Nat) (line line' : List Char) : Prop where
  indent : indentation line' = f (indentation line)
  text : line'.dropWhile isBlank = line.dropWhile isBlank

/-- How many columns a line of these is moved by; lines are counted from 0. -/
def widening (f : Nat → Nat) (lines : List (List Char)) (i : Nat) : Nat :=
  lines[i]?.elim 0 fun line => f (indentation line) - indentation line

section Text
variable {f : Nat → Nat} {line line' cs cs' q : List Char}

theorem takeWhile_blanks_append (hq : LineOver q) (line : List Char) :
    (line ++ q).takeWhile isBlank = line.takeWhile isBlank ∧
      (line ++ q).dropWhile isBlank = line.dropWhile isBlank ++ q := by
  induction line with
  | nil =>
    cases q with
    | nil => exact ⟨rfl, rfl⟩
    | cons c q => simp [isBlank_of_isLineEnd (lineOver_cons.1 hq)]
  | cons c line ih => by_cases hc : isBlank c = true <;> simp [hc, ih]

theorem Reindented.append (h : Reindented f line line') (hq : LineOver q) : Reindented f (line ++ q) (line' ++ q) where
  indent := by simpa [indentation, takeWhile_blanks_append hq] using h.indent
  text := by rw [(takeWhile_blanks_append hq _).2, (takeWhile_blanks_append hq _).2, h.text]

theorem eq_nil_of_blanks (hindent : indentation line = 0) (htext : line.dropWhile isBlank = []) : line = [] := by
  rw [← List.takeWhile_append_dropWhile (p := isBlank) (l := line), htext, List.append_nil]
  exact List.length_eq_zero_iff.mp hindent

/-- A line stays empty, and no other becomes it. -/
theorem Reindented.eq_nil_iff (h : Reindented f line line') (hf : StrictMono f) (hzero : f 0 = 0) :
    line' = [] ↔ line = [] := by
  constructor
  · rintro rfl
    refine eq_nil_of_blanks (hf.injective ?_) h.text.symm
    rw [← h.indent, hzero]
    rfl
  · rintro rfl
    exact eq_nil_of_blanks (h.indent.trans hzero) h.text

/-- What comes behind a line stays behind it. -/
theorem Reindented.dropWhile_line (h : Reindented f cs cs') :
    cs'.dropWhile (fun c => !isLineEnd c) = cs.dropWhile fun c => !isLineEnd c := by
  have hblanks (cs : List Char) : cs.dropWhile (fun c => !isLineEnd c) =
      (cs.dropWhile isBlank).dropWhile fun c => !isLineEnd c := by
    conv_lhs => rw [← List.takeWhile_append_dropWhile (p := isBlank) (l := cs)]
    exact List.dropWhile_append_of_pos fun c hc => by simp [isLineEnd_of_isBlank (List.mem_takeWhile_imp hc)]
  rw [hblanks, hblanks cs, h.text]

theorem textLines_ne_nil (cs : List Char) : textLines cs ≠ [] := by
  fun_induction textLines cs with
  | case4 c tail _ _ ih =>
    cases htail : textLines tail with
    | nil => exact absurd htail ih
    | cons line lines => simp
  | _ => simp

theorem not_mem_unify (cs : List Char) : '\r' ∉ unifyLineEnds cs := by
  fun_induction unifyLineEnds cs with
  | case1 => simp
  | case2 rest ih => simpa using ih
  | case3 c rest _ ih => exact List.not_mem_cons_of_ne_of_not_mem (unifyChar_ne c).symm ih

theorem textLines_cons {c : Char} (hno : c = '\r' → cs.head? ≠ some '\n') : textLines (c :: cs) =
    if isLineEnd c then [] :: textLines cs else (textLines cs).modifyHead (c :: ·) := by
  rw [textLines]
  rintro tail rfl rfl
  exact hno rfl rfl

theorem textLines_unify (cs : List Char) : textLines (unifyLineEnds cs) = textLines cs := by
  fun_induction unifyLineEnds cs with
  | case1 => rfl
  | case2 rest ih => simp [textLines, isLineEnd, ih]
  | case3 c rest hno ih =>
    show textLines (unifyChar c :: unifyLineEnds rest) = _
    rw [textLines_cons (absurd · (unifyChar_ne c)), textLines_cons (alone_of_cases hno), isLineEnd_unifyChar, ih]
    split
    · rfl
    · next hc => rw [unifyChar_of_plain (by simpa using hc)]

/-- A text starts with a line, and what comes behind the line, if anything does, is a text again. -/
theorem exists_line (h : '\r' ∉ cs) :
    ∃ line ending rest, cs = line ++ (ending ++ rest) ∧ (∀ c ∈ line, isLineEnd c = false) ∧
      (ending = [] ∧ rest = [] ∧ textLines cs = [line] ∨
        ending = ['\n'] ∧ '\r' ∉ rest ∧ textLines cs = line :: textLines rest) := by
  have hsplit := List.takeWhile_append_dropWhile (p := fun c => !isLineEnd c) (l := cs)
  have hplain : ∀ c ∈ cs.takeWhile fun c => !isLineEnd c, isLineEnd c = false :=
    fun c hc => by simpa using List.mem_takeWhile_imp hc
  have hhead := List.head?_dropWhile_not (fun c => !isLineEnd c) cs
  generalize cs.takeWhile (fun c => !isLineEnd c) = line at hsplit hplain
  have hlines := textLines_plain hplain (cs.dropWhile fun c => !isLineEnd c)
  rw [hsplit] at hlines
  cases hrest : cs.dropWhile fun c => !isLineEnd c with
  | nil =>
    rw [hrest] at hsplit hlines
    exact ⟨line, [], [], hsplit.symm, hplain, .inl ⟨rfl, rfl, by simpa [textLines] using hlines⟩⟩
  | cons c rest =>
    rw [hrest] at hsplit hhead hlines
    have hc : isLineEnd c = true := by simpa using hhead
    obtain rfl : c = '\n' := by
      simp only [isLineEnd, Bool.or_eq_true, beq_iff_eq] at hc
      rcases hc with rfl | rfl
      · rfl
      · exact absurd (hsplit ▸ by simp) h
    refine ⟨line, ['\n'], rest, hsplit.symm, hplain, .inr ⟨rfl, fun hmem => h (hsplit ▸ by simp [hmem]), ?_⟩⟩
    simpa [textLines, isLineEnd] using hlines

end Text

/-- What moves the one line as `g` does, and no other. -/
def atLine (g : Nat → Nat) (line later : Nat) : Nat := if later = line then g later else 0

section AtLine
variable {g : Nat → Nat} {line : Nat}

theorem movedUpTo_atLine : Lexer.MovedUpTo (atLine g line) line := fun _ hlater => if_neg hlater.ne'

theorem atLine_self : atLine g line line = g line := if_pos rfl

theorem Token.shifted_atLine {t : Token} (h : t.line = line) : t.shifted (atLine g line) = t.shifted g := by
  simp [Token.shifted, atLine, h]

theorem LexError.shifted_atLine {e : LexError} (h : e.line = line) : e.shifted (atLine g line) = e.shifted g := by
  simp [LexError.shifted, atLine, h]

end AtLine

namespace Lexer

/-- What comes behind the line. -/
def behind (s : Lexer) : List Char := s.rest.dropWhile fun c => !isLineEnd c

theorem Along.behind {p : List Char} {s m : Lexer} (h : Along p s m) : m.behind = s.behind := by
  unfold Lexer.behind
  rw [h.rest, List.dropWhile_append_of_pos fun c hc => by simp [h.plain c hc]]

theorem AtLineEnd.behind {s : Lexer} (h : s.AtLineEnd) : s.behind = s.rest := by
  unfold Lexer.behind
  cases hrest : s.rest with
  | nil => rfl
  | cons c tail => simp [h c (by simp [hrest])]

theorem behind_append {s : Lexer} {line ending : List Char} (hrest : s.rest = line ++ ending)
    (hplain : ∀ c ∈ line, isLineEnd c = false) (hending : LineOver ending) : s.behind = ending :=
  (Along.advance hrest hplain).behind.symm.trans <| by
    have hover : (s.advance line.length).rest = ending := by simp [hrest]
    rw [AtLineEnd.behind (by rwa [AtLineEnd, hover]), hover]

/-- Two lexers on the same line, below levels that correspond. -/
inductive OneLine (f g : Nat → Nat) : Lexer → Lexer → Prop
  /-- Within the line only columns differ. -/
  | inside {s : Lexer} (hmode : s.mode = .lineStart → s.rest = []) : OneLine f g s (s.reindented f g)
  /-- Both are in front of the line, which is indented otherwise for the second one. -/
  | start {s : Lexer} {rest : List Char} (hmode : s.mode = .lineStart) (hpending : s.pending = [])
      (hline : Reindented f s.rest rest) (hshift : indentation s.rest + g s.line = f (indentation s.rest)) :
      OneLine f g s { s with rest := rest, levels := s.levels.map f }

/-- Where a pass leaves a lexer: on its line, or in front of the next one. -/
inductive LineMove (s s' : Lexer) : Prop
  | on (hline : s'.line = s.line) (hbehind : s'.behind = s.behind) (hmode : s'.mode = .lineStart → s'.rest = [])
      (hqueued : ∀ t ∈ s'.pending, t.line = s.line)
  | off (hbehind : s.behind = ['\n']) (hline : s'.line = s.line + 1) (hrest : s'.rest = [])
      (hmode : s'.mode = .lineStart) (hpending : s'.pending = [])

section Passes
variable {f g : Nat → Nat} {s s' m : Lexer} {p : List Char} {t : Token}

theorem OneLine.queue_behind (h : OneLine f g s s') :
    s'.pending = s.pending.map (Token.shifted g) ∧ s'.behind = s.behind := by
  cases h with
  | inside => exact ⟨rfl, rfl⟩
  | start _ hpending hline _ => exact ⟨by simp [hpending], hline.dropWhile_line⟩

/-- On the line a pass of one is a pass of the other. -/
theorem OneLine.pass (h : OneLine f g s s') (hf : StrictMono f) (hzero : f 0 = 0) (hg : MovedUpTo g s.line) :
    s'.pass = s.pass.map (Pass.shifted g) (reindented f g) := by
  cases h with
  | inside hmode => exact pass_reindented hg hmode
  | @start rest hmode hpending hline hshift =>
    by_cases hrest : s.rest = []
    -- where the text is over there is no line to be opened
    · obtain rfl : rest = [] := (hline.eq_nil_iff hf hzero).mpr hrest
      have hsame : ({ s with rest := [], levels := s.levels.map f } : Lexer) = s.reindented f g := by
        have hnone : g s.line = 0 := by simpa [hrest, indentation, hzero] using hshift
        simp [reindented, hrest, hnone, hpending]
      rw [hsame]
      exact pass_reindented hg fun _ => hrest
    · have hrest' : rest ≠ [] := mt (hline.eq_nil_iff hf hzero).mp hrest
      have hindent : (rest.takeWhile isBlank).length = f (s.rest.takeWhile isBlank).length := hline.indent
      have hmoved : (s.rest.takeWhile isBlank).length + g s.line = f (s.rest.takeWhile isBlank).length := hshift
      -- behind the blanks both lexers have the same of the line left
      have hblanks : ({ s with rest := rest, levels := s.levels.map f } : Lexer).skipBlanks =
          s.skipBlanks.reindented f g := by
        simp [skipBlanks, reindented, hline.text, hpending, hindent, ← hmoved, Nat.add_assoc]
      rw [pass_of_lineStart hmode, pass_of_lineStart (by exact hmode), startLine_eq hrest, startLine_eq (by exact hrest'),
        hblanks, rest_reindented, hindent, openLine_reindented (s := s.skipBlanks) hf hzero hg]
      rcases s.skipBlanks.openLine _ _ with ⟨_ | e, m⟩ <;> rfl

/-- The end of the line is the end of the text, or the next line starts behind it. -/
theorem lineMove_newline (h : Along p s m) (hend : m.AtLineEnd) (hbehind : s.behind = [] ∨ s.behind = ['\n'])
    (hpending : s.pending = []) : LineMove s { m.consumeNewline with mode := .lineStart } := by
  have hrest : m.rest = s.behind := hend.behind.symm.trans h.behind
  have hqueue : m.pending = [] := h.pending.trans hpending
  rcases hbehind with hnone | hone
  · have hsame : m.consumeNewline = m := by simp [consumeNewline, hrest, hnone]
    rw [hsame]
    exact .on h.line h.behind (fun _ => hrest.trans hnone) (by simp [hqueue])
  · have hnext : m.consumeNewline = { m with rest := [], line := m.line + 1, column := 1 } := by
      rw [consumeNewline_cons (hrest.trans hone) (by simp)]
      rfl
    rw [hnext]
    exact .off hone (by simp [h.line]) rfl rfl hqueue

theorem lineMove_token (hpass : s.pass = (.token t, s')) (hbehind : s.behind = [] ∨ s.behind = ['\n'])
    (hpending : s.pending = []) : LineMove s s' := by
  rcases pass_token hpass with ⟨-, hinline⟩ | ⟨hmode, -, rfl⟩
  · cases hinline with
    | mark _ halong hmode _ =>
      refine .on halong.line halong.behind (fun h => ?_) (by simp [halong.pending, hpending])
      rw [h] at hmode
      cases hmode
    | stop halong hend _ hs =>
      subst hs
      exact lineMove_newline halong hend hbehind hpending
  · exact .on rfl rfl (fun h => by rw [hmode] at h; cases h) (by simp [hpending])

theorem lineMove_again (hpass : s.pass = (.again, s')) (hbehind : s.behind = [] ∨ s.behind = ['\n'])
    (hpending : s.pending = []) : LineMove s s' := by
  obtain ⟨-, hqueued⟩ := line_pass_again hpending hpass
  rcases pass_again hpass with ⟨hstart, hopening⟩ | ⟨-, p, -, halong, hmode⟩
  · cases hopening with
    | finish hrest hs =>
      subst hs
      exact .on rfl rfl nofun hqueued
    | skip halong hmode hend _ hs =>
      rw [hs, consumeNewline_lineStart (hmode.trans hstart)]
      exact lineMove_newline halong hend hbehind hpending
    | header halong _ hs =>
      subst hs
      exact .on halong.line halong.behind nofun hqueued
    | @content p m m' halong _ hindent hs =>
      obtain ⟨hrest, hline, -⟩ := indentTo_spec hindent
      obtain ⟨hinline, ts, q, hq, -⟩ := classified_classify m'
      have hsame : m'.behind = m.behind := by rw [Lexer.behind, hrest, Lexer.behind]
      subst hs
      refine .on (hq.line.trans (hline.trans halong.line)) (hq.behind.trans (hsame.trans halong.behind)) (fun h => ?_) hqueued
      rw [h] at hinline
      cases hinline
  · exact .on halong.line halong.behind (fun h => by rw [hmode] at h; cases h) hqueued

end Passes

/-- What comes behind the line that two lexers are on, and behind the end of that line. -/
inductive Onward (f g : Nat → Nat) (line : Nat) : List Char → List Char → List Char → Prop
  | none : Onward f g line [] [] []
  | next {r r' : List Char} (hlines : List.Forall₂ (Reindented f) (textLines r) (textLines r')) (hr : '\r' ∉ r)
      (hr' : '\r' ∉ r') (hshift : ∀ i, g (line + 1 + i) = widening f (textLines r) i) : Onward f g line ['\n'] r r'

/-- Two lexers on the same line of two texts that are indented differently from there on. -/
inductive SideBySide (f g : Nat → Nat) : Lexer → Lexer → Prop
  | intro {s s' : Lexer} {r r' : List Char} {a b c d : Bool} (hline : OneLine f (atLine g s.line) s s')
      (honward : Onward f g s.line s.behind r r') (hab : Fits a b s) (hcd : Fits c d s')
      (hqueued : ∀ t ∈ s.pending, t.line = s.line) : SideBySide f g (s.within 0 r a b) (s'.within 0 r' c d)

/-- Passes that come to the same, further on in the line. -/
inductive Advanced (f g : Nat → Nat) : Pass × Lexer → Pass × Lexer → Prop
  | token {s s' : Lexer} {t : Token} (h : SideBySide f g s s') : Advanced f g (.token t, s) (.token (t.shifted g), s')
  | again {s s' : Lexer} (h : SideBySide f g s s') : Advanced f g (.again, s) (.again, s')
  | failed {s s' : Lexer} {e : LexError} : Advanced f g (.failed e, s) (.failed (e.shifted g), s')

section Advanced
variable {f g : Nat → Nat} {s : Lexer} {t : Token} {e : LexError} {r : Pass × Lexer}

theorem Advanced.of_token (h : Advanced f g (.token t, s) r) :
    ∃ s', r = (.token (t.shifted g), s') ∧ SideBySide f g s s' := by
  cases h with
  | token h => exact ⟨_, rfl, h⟩

theorem Advanced.of_again (h : Advanced f g (.again, s) r) : ∃ s', r = (.again, s') ∧ SideBySide f g s s' := by
  cases h with
  | again h => exact ⟨_, rfl, h⟩

theorem Advanced.of_failed (h : Advanced f g (.failed e, s) r) : ∃ s', r = (.failed (e.shifted g), s') := by
  cases h with
  | failed => exact ⟨_, rfl⟩

end Advanced

section Texts
variable {f g : Nat → Nat} {s s' m : Lexer} {cs cs' r r' ending : List Char} {line : Nat} {a b a' b' : Bool}

/-- Two texts start with two lines, and what comes behind the lines are two texts again. -/
theorem exists_lines (hlines : List.Forall₂ (Reindented f) (textLines cs) (textLines cs')) (hcs : '\r' ∉ cs)
    (hcs' : '\r' ∉ cs') (hshift : ∀ i, g (line + i) = widening f (textLines cs) i) :
    ∃ l l' ending r r', cs = l ++ (ending ++ r) ∧ cs' = l' ++ (ending ++ r') ∧ (∀ c ∈ l, isLineEnd c = false) ∧
      Reindented f l l' ∧ g line = f (indentation l) - indentation l ∧ Onward f g line ending r r' := by
  obtain ⟨l, ending, r, hsplit, hplain, hends⟩ := exists_line hcs
  obtain ⟨l', ending', r', hsplit', -, hends'⟩ := exists_line hcs'
  have hfirst := hshift 0
  rcases hends with ⟨rfl, rfl, hone⟩ | ⟨rfl, hr, hcons⟩
  · rcases hends' with ⟨rfl, rfl, hone'⟩ | ⟨rfl, hr', hcons'⟩
    · rw [hone, hone'] at hlines
      rw [hone] at hfirst
      exact ⟨l, l', [], [], [], hsplit, hsplit', hplain, (List.forall₂_cons.mp hlines).1, hfirst, .none⟩
    · rw [hone, hcons'] at hlines
      exact absurd (List.forall₂_nil_left_iff.mp (List.forall₂_cons.mp hlines).2) (textLines_ne_nil r')
  · rcases hends' with ⟨rfl, rfl, hone'⟩ | ⟨rfl, hr', hcons'⟩
    · rw [hcons, hone'] at hlines
      exact absurd (List.forall₂_nil_right_iff.mp (List.forall₂_cons.mp hlines).2) (textLines_ne_nil r)
    · rw [hcons, hcons'] at hlines
      rw [hcons] at hfirst hshift
      obtain ⟨hline, hlines⟩ := List.forall₂_cons.mp hlines
      refine ⟨l, l', ['\n'], r, r', hsplit, hsplit', hplain, hline, hfirst, .next hlines hr hr' fun i => ?_⟩
      rw [Nat.add_assoc, Nat.add_comm 1 i, hshift (i + 1)]
      rfl

theorem Onward.endings (h : Onward f g line ending r r') : ending = [] ∨ ending = ['\n'] := by cases h <;> simp

theorem Onward.lineOver (h : Onward f g line ending r r') : LineOver ending := by
  rcases h.endings with rfl | rfl
  · exact lineOver_nil
  · exact lineOver_cons.2 rfl

theorem Onward.bounded (h : Onward f g line s.behind r r') : Bounded r s.rest ∧ Bounded r' s.rest := by
  have hsplit : s.rest.takeWhile (fun c => !isLineEnd c) ++ s.behind = s.rest := List.takeWhile_append_dropWhile
  generalize s.behind = ending at h hsplit
  cases h with
  | none => exact ⟨.inl rfl, .inl rfl⟩
  | next =>
    rw [← hsplit]
    exact ⟨.inr (by simp), .inr (by simp)⟩

/-- Where both start a line. -/
theorem SideBySide.start (hf : StrictMono f) (hmode : s.mode = .lineStart) (hpending : s.pending = [])
    (hlines : List.Forall₂ (Reindented f) (textLines s.rest) (textLines r)) (hs : '\r' ∉ s.rest) (hr : '\r' ∉ r)
    (hshift : ∀ i, g (s.line + i) = widening f (textLines s.rest) i) (a b : Bool) :
    SideBySide f g s { s with rest := r, levels := s.levels.map f, inChoice := a, textStart := b } := by
  obtain ⟨l, l', ending, r, r', hsplit, rfl, hplain, hline, hfirst, honward⟩ := exists_lines hlines hs hr hshift
  have hover := honward.lineOver
  have hown : ({ s with rest := l ++ ending } : Lexer).within 0 r s.inChoice s.textStart = s := by
    conv_rhs => rw [← within_self s]
    simp [within, hsplit]
  have hother : ({ s with rest := l' ++ ending, levels := s.levels.map f } : Lexer).within 0 r' a b =
      { s with rest := l' ++ (ending ++ r'), levels := s.levels.map f, inChoice := a, textStart := b } := by
    simp [within, hpending]
  have hbehind : ({ s with rest := l ++ ending } : Lexer).behind = ending :=
    behind_append rfl hplain hover
  have hmoved : indentation (l ++ ending) + atLine g s.line s.line = f (indentation (l ++ ending)) := by
    have hsame : indentation (l ++ ending) = indentation l := by
      rw [indentation, (takeWhile_blanks_append hover l).1, indentation]
    have : indentation l ≤ f (indentation l) := hf.le_apply
    rw [hsame, atLine_self, hfirst]
    omega
  have hstart := SideBySide.intro (s := { s with rest := l ++ ending }) (a := s.inChoice) (b := s.textStart) (c := a)
    (d := b) (.start hmode hpending (hline.append hover) hmoved) (by rw [hbehind]; exact honward) (fits_self _)
    (.inr (by simp [hmode])) (by simp [hpending])
  rw [hown] at hstart
  exact hother ▸ hstart

/-- From where a pass of the first leaves it they go on side by side. -/
theorem LineMove.sideBySide (h : LineMove m s) (hf : StrictMono f) (honward : Onward f g m.line m.behind r r')
    (hab : Fits a b s) (hab' : Fits a' b' (s.reindented f (atLine g m.line))) :
    SideBySide f g (s.within 0 r a b) ((s.reindented f (atLine g m.line)).within 0 r' a' b') := by
  cases h with
  | on hline hbehind hmode hqueued =>
    rw [← hline] at honward hqueued hab' ⊢
    exact .intro (.inside hmode) (hbehind ▸ honward) hab hab' hqueued
  | off hbehind hline hrest hmode hpending =>
    rw [hbehind] at honward
    cases honward with
    | next hlines hr hr' hshift =>
      have hown : (s.within 0 r a b).rest = r := by simp [hrest]
      have hnext : (s.within 0 r a b).line = m.line + 1 := hline
      have hother : (s.reindented f (atLine g m.line)).within 0 r' a' b' =
          { s.within 0 r a b with rest := r', levels := s.levels.map f, inChoice := a', textStart := b' } := by
        simp [within, reindented, hrest, hpending, hline, movedUpTo_atLine (g := g) _ (Nat.lt_succ_self m.line)]
      rw [hother]
      exact .start (s := s.within 0 r a b) hf hmode (by simp [within, hpending]) (by rwa [hown]) (by rwa [hown]) hr'
        (by rwa [hown, hnext]) a' b'

theorem SideBySide.pass (h : SideBySide f g s s') (hf : StrictMono f) (hzero : f 0 = 0) (hpending : s.pending = []) :
    Advanced f g s.pass s'.pass := by
  cases h with
  | @intro m m' r r' a b a' b' hline honward hab hab' hqueued =>
    have hpending : m.pending = [] := by simpa [within] using hpending
    have hpass := hline.pass hf hzero movedUpTo_atLine
    have hr := honward.bounded.1
    have hr' : Bounded r' m'.rest := (hline.queue_behind.2 ▸ honward).bounded.2
    rcases hm : m.pass with ⟨t | _ | e, k⟩
    · rw [hm] at hpass
      obtain ⟨c, d, hcd, hown⟩ := pass_token_within (n := 0) hr hab hm
      obtain ⟨c', d', hcd', hother⟩ := pass_token_within (n := 0) hr' hab' hpass
      rw [hown, hother, Token.down_zero, id, id, Token.shifted_atLine (line_pass_token hm)]
      exact .token ((lineMove_token hm honward.endings hpending).sideBySide hf honward hcd hcd')
    · rw [hm] at hpass
      obtain ⟨c, d, hcd, hown⟩ := pass_again_within (n := 0) hr hab hm
      obtain ⟨c', d', hcd', hother⟩ := pass_again_within (n := 0) hr' hab' hpass
      rw [hown, hother]
      exact .again ((lineMove_again hm honward.endings hpending).sideBySide hf honward hcd hcd')
    · rw [hm] at hpass
      obtain ⟨k, hown⟩ := pass_failed_within (n := 0) (a := a) (b := b) hr hm
      obtain ⟨k', hother⟩ := pass_failed_within (n := 0) (a := a') (b := b') hr' hpass
      rw [hown, hother, LexError.down_zero, id, id, LexError.shifted_atLine (line_pass_failed hm)]
      exact .failed

theorem SideBySide.pending_nil (h : SideBySide f g s s') (hpending : s.pending = []) : s'.pending = [] := by
  cases h with
  | @intro m m' r r' a b a' b' hline honward hab hab' hqueued =>
    have hpending : m.pending = [] := by simpa [within] using hpending
    simp [within, hline.queue_behind.1, hpending]

/-- What is queued on one side is queued on the other. -/
theorem SideBySide.queued {t : Token} {ts : List Token} (h : SideBySide f g s s') (hpending : s.pending = t :: ts) :
    ∃ ts', s'.pending = t.shifted g :: ts' ∧ SideBySide f g { s with pending := ts } { s' with pending := ts' } := by
  cases h with
  | @intro m m' r r' a b a' b' hline honward hab hab' hqueued =>
    have hpending : m.pending = t :: ts := by simpa [within] using hpending
    rw [hpending] at hqueued
    obtain ⟨ht, hts⟩ := List.forall_mem_cons.1 hqueued
    cases hline with
    | start _ hnone => simp [hnone] at hpending
    | inside hmode =>
      refine ⟨ts.map (Token.shifted (atLine g m.line)), ?_, ?_⟩
      · simp [within, reindented, hpending, Token.shifted_atLine ht]
      · have hnext := SideBySide.intro (s := { m with pending := ts }) (.inside hmode) honward hab hab' hts
        simpa [within, reindented] using hnext

end Texts
end Lexer

section Runs
variable {f g : Nat → Nat} {s s' : Lexer} {out : List Token} {e : Option LexError}

/-- Side by side two lexers yield the same, but for the columns. -/
theorem Lexes.reindented (h : Lexes s out e) (hs : Lexer.SideBySide f g s s') (hf : StrictMono f) (hzero : f 0 = 0) :
    Lexes s' (out.map (Token.shifted g)) (e.map (LexError.shifted g)) := by
  induction h generalizing s' with
  | queued hpending ht _ ih =>
    obtain ⟨ts', hpending', hs⟩ := hs.queued hpending
    exact .queued hpending' ht (ih hs)
  | again hpending hpass _ ih =>
    obtain ⟨k, hpass', hnext⟩ := (hpass ▸ hs.pass hf hzero hpending).of_again
    exact .again (hs.pending_nil hpending) hpass' (ih hnext)
  | token hpending hpass ht _ ih =>
    obtain ⟨k, hpass', hnext⟩ := (hpass ▸ hs.pass hf hzero hpending).of_token
    exact .token (hs.pending_nil hpending) hpass' ht (ih hnext)
  | last hpending hpass ht =>
    obtain ⟨k, hpass', -⟩ := (hpass ▸ hs.pass hf hzero hpending).of_token
    exact .last (hs.pending_nil hpending) hpass' ht
  | failed hpending hpass =>
    obtain ⟨k, hpass'⟩ := (hpass ▸ hs.pass hf hzero hpending).of_failed
    exact .failed (hs.pending_nil hpending) hpass'

end Runs

/-- How many columns a line of the text is moved by; lines are counted from 1. -/
def lineShift (f : Nat → Nat) (text : String) (line : Nat) : Nat := widening f (textLines text.toList) (line - 1)

/-- The place, as many columns further on as its line is moved. -/
def Pos.shifted (g : Nat → Nat) (p : Pos) : Pos := { p with column := p.column + g p.line.toNat }

/-- The place, so many columns back. -/
def Pos.unshifted (g : Nat → Nat) (p : Pos) : Pos := { p with column := p.column - g p.line.toNat }

def Token.unshifted (g : Nat → Nat) (t : Token) : Token := { t with column := t.column - g t.line.toNat }

section Token
variable (g : Nat → Nat) (t : Token)

theorem Token.unshifted_shifted : Token.unshifted g ∘ Token.shifted g = id := by
  funext t
  simp [Token.shifted, Token.unshifted]

theorem Token.alike_shifted : t.Alike (Pos.shifted g) (t.shifted g) := ⟨rfl, rfl, fun _ => rfl⟩

theorem Token.alike_unshifted : t.Alike (Pos.unshifted g) (t.unshifted g) := ⟨rfl, rfl, fun _ => rfl⟩

end Token

/-- A text with the tokens of another one in other places parses to the same nodes in those places. -/
theorem parseScript_moved {x y : String} {place : Pos → Pos} {move : Token → Token}
    (hmove : ∀ t : Token, t.Alike place (move t))
    (htokens : ∀ ts, Emits (.ofText x) ts → Emits (.ofText y) (ts.map move)) {s : Script}
    (h : (parseScript x).result = .ok s) :
    (parseScript y).result = .ok ⟨s.nodes.map (Node.relocate place)⟩ := by
  obtain ⟨ts, u, hts, hrun⟩ := parseScript_eq_ok_iff.mp h
  have hlined := (hts.lined fun _ ht => (List.not_mem_nil ht).elim).1
  have hroom : ts.length ≤ Reading.patience ts := by
    unfold Reading.patience
    omega
  have hsame : Reading.patience ts = Reading.patience (ts.map move) := by simp [Reading.patience]
  obtain ⟨u', hrun'⟩ := ParseM.nodes_map hlined hroom hrun hmove hsame.le 0 []
  exact parseScript_eq_ok_iff.mpr ⟨_, u', htokens ts hts, hrun'⟩

section Sources
variable {f : Nat → Nat} {x y : String} {ts : List Token}

theorem emits_iff_tokenize :
    Emits (.ofText x) ts ↔ (Lexer.ofText x).tokenize.tokens = ts ∧ (Lexer.ofText x).tokenize.error = none := by
  rw [emits_iff_lexes]
  refine ⟨Lexes.tokenize, ?_⟩
  rintro ⟨rfl, herror⟩
  rw [← herror]
  exact Lexer.lexes_tokenize nofun

theorem lexes_reindented (hf : StrictMono f) (hzero : f 0 = 0)
    (h : List.Forall₂ (Reindented f) (textLines x.toList) (textLines y.toList)) :
    Lexes { rest := unifyLineEnds y.toList }
      ((Lexer.ofText x).tokenize.tokens.map (Token.shifted (lineShift f x)))
      ((Lexer.ofText x).tokenize.error.map (LexError.shifted (lineShift f x))) := by
  refine (Lexes.of_text x).reindented ?_ hf hzero
  refine .start hf rfl rfl ?_ (not_mem_unify _) (not_mem_unify _) (fun i => ?_) false false
  · rwa [textLines_unify, textLines_unify]
  · show widening f (textLines x.toList) (1 + i - 1) = _
    rw [textLines_unify, Nat.add_sub_cancel_left]

end Sources

/-- Indenting a script otherwise does not change it. Let every line of a text have `f n` blanks in front of it in place
of `n`, spaces or tabs, for a strictly increasing `f` that keeps 0. Then the tokens or, where the text cannot be scanned
to its end, the tokens before the error and the error are the same, on the same lines, and in each line `f n - n`
columns further on. One of the texts parses if the other one does, and to the same nodes up to these columns. -/
theorem reindentation_invisible {f : Nat → Nat} (hf : StrictMono f) (hzero : f 0 = 0) {x y : String}
    (h : List.Forall₂ (Reindented f) (textLines x.toList) (textLines y.toList)) :
    (Lexer.ofText y).tokenize.tokens = (Lexer.ofText x).tokenize.tokens.map (Token.shifted (lineShift f x)) ∧
      (Lexer.ofText y).tokenize.error = (Lexer.ofText x).tokenize.error.map (LexError.shifted (lineShift f x)) ∧
      ∀ s', (parseScript y).result = .ok s' ↔ ∃ s, (parseScript x).result = .ok s ∧
        s' = ⟨s.nodes.map (Node.relocate (Pos.shifted (lineShift f x)))⟩ := by
  obtain ⟨htokens, herror⟩ := (lexes_reindented hf hzero h).text
  refine ⟨htokens, herror, fun s' => ?_⟩
  have hforth : ∀ ts, Emits (.ofText x) ts → Emits (.ofText y) (ts.map (Token.shifted (lineShift f x))) := by
    intro ts hts
    obtain ⟨rfl, hnone⟩ := emits_iff_tokenize.mp hts
    exact emits_iff_tokenize.mpr ⟨htokens, by rw [herror, hnone]; rfl⟩
  have hback : ∀ ts, Emits (.ofText y) ts → Emits (.ofText x) (ts.map (Token.unshifted (lineShift f x))) := by
    intro ts hts
    obtain ⟨rfl, hnone⟩ := emits_iff_tokenize.mp hts
    refine emits_iff_tokenize.mpr ⟨?_, Option.map_eq_none_iff.mp (herror.symm.trans hnone)⟩
    rw [htokens, List.map_map, Token.unshifted_shifted, List.map_id]
  constructor
  · intro hs'
    have hs := parseScript_moved (Token.alike_unshifted (lineShift f x)) hback hs'
    refine ⟨_, hs, ?_⟩
    have hagain := parseScript_moved (Token.alike_shifted (lineShift f x)) hforth hs
    rw [hs'] at hagain
    exact Except.ok.inj hagain
  · rintro ⟨s, hs, rfl⟩
    exact parseScript_moved (Token.alike_shifted (lineShift f x)) hforth hs

instance (f : Nat → Nat) (line line' : List Char) : Decidable (Reindented f line line') :=
  decidable_of_iff (indentation line' = f (indentation line) ∧ line'.dropWhile isBlank = line.dropWhile isBlank)
    ⟨fun h => ⟨h.1, h.2⟩, fun h => ⟨h.1, h.2⟩⟩

/-- A choice with a block, its jump in the column that is given. -/
def choiceNode (column : Int) : Node :=
  ⟨"a", [.choice ⟨[.literal "Yes" ⟨2, 4⟩], none, [.command (.jump "b") ⟨3, column⟩], ⟨2, 1⟩⟩], ⟨1, 1⟩⟩

/-- With `n * n` blanks in place of `n`, in a text that parses and in one that cannot be scanned to its end. -/
theorem reindentation_invisible_squares :
    (parseScript "::a\r\n-> Yes\n \t\t jump b\n\t").result = .ok ⟨[choiceNode 5]⟩ ∧
      ((Lexer.ofText "->\n\t        you\n  \t no").tokenize.tokens.map fun t => (t.kind, t.line, t.column)) =
        [(.arrow, 1, 1), (.newline, 1, 3), (.indent, 2, 10), (.text, 2, 10), (.newline, 2, 13)] ∧
      (Lexer.ofText "->\n\t        you\n  \t no").tokenize.error = some ⟨.indentation, 3, 5⟩ := by
  have hsquares : StrictMono fun n : Nat => n * n := fun m n h => Nat.mul_self_lt_mul_self h
  obtain ⟨-, -, hparse⟩ := reindentation_invisible hsquares rfl (x := "::a\r\n-> Yes\n  jump b\n ")
    (y := "::a\r\n-> Yes\n \t\t jump b\n\t") (by decide +kernel)
  obtain ⟨htokens, herror, -⟩ := reindentation_invisible hsquares rfl (x := "->\n   you\n  no")
    (y := "->\n\t        you\n  \t no") (by decide +kernel)
  have hown : (parseScript "::a\r\n-> Yes\n  jump b\n ").result = .ok ⟨[choiceNode 3]⟩ := by rfl
  refine ⟨(hparse _).mpr ⟨_, hown, by rfl⟩, ?_, ?_⟩
  · rw [htokens]
    decide +kernel
  · rw [herror]
    decide +kernel

end Parley
