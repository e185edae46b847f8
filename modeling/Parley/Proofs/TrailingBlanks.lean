import Parley.Proofs.Joining
import Parley.Proofs.PaddedScans
import Parley.Proofs.Places

/-! # Blanks at the end of a line

A run over a line with blanks at its end is the run over the line without them, one pass for one pass, until the end of
the line. From there on both texts are the same, or both are over and the lexer is as many columns further on
(`Lexes.ended`). So only what stands behind the line is moved (`Lexes.padLine`). -/

namespace Parley

/-- The token, further on if it ends the line that is over in this place or, on the final line of the text, if it
closes a block there or ends the text. -/
def Token.pushed (final : Bool) (line column k : Nat) (t : Token) : Token :=
  if t.line = line ∧ t.column = column ∧ (t.kind = .newline ∨ final = true ∧ (t.kind = .dedent ∨ t.kind = .eof)) then
    { t with column := t.column + k }
  else t

section Token
variable {t : Token} {final : Bool} {line column k : Nat}

theorem Token.pushed_of_line (h : t.line ≠ line) : t.pushed final line column k = t := if_neg fun hplace => h hplace.1

theorem Token.pushed_of_column (h : t.column ≠ column) : t.pushed final line column k = t :=
  if_neg fun hplace => h hplace.2.1

theorem Token.pushed_zero (final : Bool) (line column : Nat) : Token.pushed final line column 0 = id := by
  funext t
  simp [Token.pushed]

theorem Token.pushed_of_isLayout (h : t.kind.isLayout = false) : t.pushed final line column k = t := by
  refine if_neg ?_
  rintro ⟨-, -, hk | ⟨-, hk | hk⟩⟩ <;> rw [hk] at h <;> cases h

end Token

namespace Lexer

/-- The column behind the line. -/
def lineEnd (s : Lexer) : Nat := s.column + lineLength s.rest

/-- The text is over where the line is. -/
def LastLine (s : Lexer) : Prop := ∀ c ∈ s.rest, isLineEnd c = false

section Places
variable {s s' m : Lexer} {p : List Char} {n k : Nat} {e : Option LexError}

theorem Along.lineEnd (h : Along p s m) : m.lineEnd = s.lineEnd := by
  unfold Lexer.lineEnd
  rw [h.column, h.rest, lineLength_append h.plain]
  omega

theorem lastLine_of_nil (h : s.rest = []) : s.LastLine := by simp [LastLine, h]

theorem Along.lastLine (h : Along p s m) (hm : m.LastLine) : s.LastLine := by
  intro c hc
  rw [h.rest] at hc
  exact (List.mem_append.mp hc).elim (h.plain c) (hm c)

theorem AtLineEnd.lineEnd (h : s.AtLineEnd) : s.lineEnd = s.column := by
  have hlength : lineLength s.rest = 0 := by
    cases hrest : s.rest with
    | nil => rfl
    | cons c tail => simp [lineLength, h c (by simp [hrest])]
  rw [Lexer.lineEnd, hlength, Nat.add_zero]

theorem column_lt_lineEnd (h : ¬s.AtLineEnd) : s.column < s.lineEnd := by
  unfold Lexer.lineEnd
  cases hrest : s.rest with
  | nil => exact absurd (atLineEnd_nil hrest) h
  | cons c tail =>
    have hc : isLineEnd c = false := by simpa [AtLineEnd, hrest] using h
    simp [lineLength, hc]

/-- Blocks are opened and closed where the line is indented to. -/
theorem column_indentTo (h : s.indentTo n = (e, m)) : ∀ t ∈ m.pending, t ∈ s.pending ∨ t.column = s.column := by
  unfold indentTo at h
  dsimp only at h
  split at h
  · cases h
    simp +contextual [queue, tokenHere, or_imp]
  · split at h <;> cases h <;> simp +contextual [queue, tokenHere, or_imp]

/-- A line of content queues nothing that stands behind it. -/
theorem Opening.lineEnd (h : Opening s s') (hmode : s.mode = .lineStart) (hmode' : s'.mode.inLine = true)
    (hpending : s.pending = []) :
    s'.line = s.line ∧ s'.lineEnd = s.lineEnd ∧ (s'.LastLine → s.LastLine) ∧
      ∀ final k, ∀ t ∈ s'.pending, t.pushed final s.line s.lineEnd k = t := by
  have hfront {final : Bool} {k : Nat} {p : List Char} {m : Lexer} {t : Token} (halong : Along p s m)
      (hline : ¬m.AtLineEnd) (ht : t.column = m.column) : t.pushed final s.line s.lineEnd k = t := by
    refine Token.pushed_of_column ?_
    have := column_lt_lineEnd hline
    rw [halong.lineEnd] at this
    omega
  cases h with
  | finish _ hs => simp [hs, Mode.inLine] at hmode'
  | skip halong hm _ _ hs =>
    rw [hs, mode_consumeNewline, hm, hmode] at hmode'
    cases hmode'
  | @header p m halong hline hs =>
    subst hs
    refine ⟨halong.line, halong.lineEnd, halong.lastLine, fun final k t ht => hfront halong hline ?_⟩
    have ht : t ∈ List.replicate m.levels.length (m.tokenHere .dedent "") := by
      simpa [closeBlocks, queue, halong.pending.trans hpending] using ht
    rw [List.eq_of_mem_replicate ht]
    rfl
  | @content p m m' halong hline hindent hs =>
    obtain ⟨hrest, hl, hc, -⟩ := indentTo_spec hindent
    obtain ⟨-, ts, q, hq, hheads, -⟩ := classified_classify m'
    have hplace : m'.lineEnd = m.lineEnd := by
      unfold Lexer.lineEnd
      rw [hrest, hc]
    subst hs
    refine ⟨hq.line.trans (hl.trans halong.line), hq.lineEnd.trans (hplace.trans halong.lineEnd),
      fun h => halong.lastLine (m := m) ?_, fun final k t ht => ?_⟩
    · have h : m'.LastLine := hq.lastLine h
      rwa [LastLine, hrest] at h
    rw [hq.pending] at ht
    rcases List.mem_append.mp ht with ht | ht
    · refine hfront halong hline ((column_indentTo hindent t ht).resolve_left ?_)
      simp [halong.pending, hpending]
    · exact Token.pushed_of_isLayout (isLayout_of_headKinds _ (hheads t ht))

end Places
end Lexer

section Runs
variable {s s' m : Lexer} {out : List Token} {e : Option LexError} {b : List Char} {final : Bool}

/-- Nothing that a lexer yields stands in front of it. -/
theorem Lexes.lines (h : Lexes s out e) {n : Nat} (hn : n ≤ s.line) (hqueued : ∀ t ∈ s.pending, (n : Int) ≤ t.line) :
    (∀ t ∈ out, (n : Int) ≤ t.line) ∧ ∀ f ∈ e, n ≤ f.line := by
  induction h with
  | queued hpending _ _ ih =>
    rw [hpending] at hqueued
    obtain ⟨ht, hts⟩ := List.forall_mem_cons.1 hqueued
    obtain ⟨hout, he⟩ := ih hn hts
    exact ⟨List.forall_mem_cons.2 ⟨ht, hout⟩, he⟩
  | again hpending hpass _ ih =>
    obtain ⟨hline, hlines⟩ := Lexer.line_pass_again hpending hpass
    exact ih (by omega) fun t ht => by rw [hlines t ht]; omega
  | @token s s' t out e hpending hpass ht _ ih =>
    have hline := Lexer.line_pass_token hpass
    obtain ⟨-, hinline⟩ := Lexer.inLine_of_pass hpass ht
    obtain ⟨hout, he⟩ := ih (Nat.le_trans hn hinline.line_le) (by simp [hinline.pending, hpending])
    exact ⟨List.forall_mem_cons.2 ⟨by omega, hout⟩, he⟩
  | last hpending hpass _ =>
    have hline := Lexer.line_pass_token hpass
    exact ⟨by simpa [hline] using hn, by simp⟩
  | failed hpending hpass =>
    have hline := Lexer.line_pass_failed hpass
    exact ⟨by simp, by simpa [hline] using hn⟩

/-- Behind the end of the line both texts are the same, or both are over. -/
theorem Lexes.ended (hend : m.AtLineEnd) (hpending : m.pending = []) (hover : m.rest = [] → final = true)
    (h : Lexes { m.consumeNewline with mode := .lineStart } out e) (k : Nat) :
    Lexes { (m.pushed k).consumeNewline with mode := .lineStart }
      (out.map (Token.pushed final m.line m.column k)) e := by
  by_cases hrest : m.rest = []
  · have hstay {m : Lexer} (hrest : m.rest = []) : m.consumeNewline = m := by simp [Lexer.consumeNewline, hrest]
    rw [hstay hrest] at h
    rw [hstay (m := m.pushed k) hrest]
    obtain ⟨rfl, rfl⟩ := h.unique (Lexer.lexes_atEnd hrest rfl hpending)
    have hend' := Lexer.lexes_atEnd (s := { m.pushed k with mode := .lineStart }) hrest rfl hpending
    simpa [Lexer.closings, Lexer.tokenHere, Token.pushed, Lexer.pushed, hover hrest] using hend'
  · obtain ⟨-, -, hline, -⟩ := Lexer.consumeNewline_spec hend hrest
    have hqueue : m.consumeNewline.pending = [] := (Lexer.consumeNewline_eq m).2.1.trans hpending
    obtain ⟨hlines, -⟩ := h.lines (n := m.line + 1) hline.ge (by simp [hqueue])
    have hkept : out.map (Token.pushed final m.line m.column k) = out :=
      (List.map_congr_left fun t ht => Token.pushed_of_line (by have := hlines t ht; omega)).trans (List.map_id out)
    rw [Lexer.consumeNewline_pushed hend hrest, hkept]
    exact h

/-- The token that ends the line stands behind it. -/
theorem Token.pushed_newline (final : Bool) (m : Lexer) (k : Nat) :
    m.newline.1.pushed final m.line m.column k = (m.pushed k).newline.1 := by
  simp [Token.pushed, Lexer.newline, Lexer.tokenHere, Lexer.pushed]

/-- A lexer that has taken the blanks along has only to end the line. -/
theorem Lexes.pushed (h : Lexes s out e) (hmode : s.mode.inLine = true) (hend : s.AtLineEnd)
    (hpending : s.pending = []) (hlast : s.LastLine → final = true) (k : Nat) :
    Lexes (s.pushed k) (out.map (Token.pushed final s.line s.lineEnd k)) e := by
  obtain ⟨m, halong, hover, hpass⟩ := Lexer.pass_atLineEnd hmode hend
  have hlast : m.rest = [] → final = true := fun hrest => hlast (halong.lastLine (Lexer.lastLine_of_nil hrest))
  have hown : s.pass = (.token m.newline.1, m.newline.2) := hpass 0
  rw [← halong.line, ← halong.lineEnd, hover.lineEnd]
  cases h with
  | queued hqueue =>
    rw [hpending] at hqueue
    cases hqueue
  | again _ h | failed _ h =>
    rw [hown] at h
    cases h
  | last _ h ht =>
    rw [hown] at h
    cases h
    cases ht
  | token _ h ht hrest =>
    rw [hown] at h
    cases h
    rw [List.map_cons, Token.pushed_newline]
    exact .token hpending (hpass k) rfl (hrest.ended hover (halong.pending.trans hpending) hlast k)

/-- Before the blanks a lexer goes on as it does without them, and behind them it has only to end the line. -/
theorem Lexes.abreast {k : Lexer} (h : Lexes s out e) (hk : Lexer.Abreast b s k) (hmode : s.mode.inLine = true)
    (hpending : s.pending = []) (hlast : s.LastLine → final = true)
    (hbefore : Lexes (s.padded b) (out.map (Token.pushed final s.line s.lineEnd b.length)) e) :
    Lexes k (out.map (Token.pushed final s.line s.lineEnd b.length)) e := by
  cases hk with
  | before => exact hbefore
  | behind hend => exact h.pushed hmode hend hpending hlast b.length

/-- With blanks at the end of its line a lexer on the line yields the same but for what stands behind it. -/
theorem Lexes.padded (h : Lexes s out e) (hb : ∀ c ∈ b, isBlank c = true) (hne : b ≠ [])
    (hmode : s.mode.inLine = true) (hlast : s.LastLine → final = true)
    (hqueued : ∀ t ∈ s.pending, t.pushed final s.line s.lineEnd b.length = t) :
    Lexes (s.padded b) (out.map (Token.pushed final s.line s.lineEnd b.length)) e := by
  induction h with
  | @queued s t ts out e hpending ht _ ih =>
    rw [hpending] at hqueued
    obtain ⟨hkept, hqueued⟩ := List.forall_mem_cons.1 hqueued
    rw [List.map_cons, hkept]
    exact .queued hpending ht (ih hmode hlast hqueued)
  | @again s s' out e hpending hpass h ih =>
    rcases Lexer.pass_padded hb hne hmode with hpad | ⟨hend, hpad⟩
    · rw [hpass] at hpad
      obtain ⟨p, halong⟩ := Lexer.along_of_pass hpass hmode
      have hpending' : s'.pending = [] := halong.pending.trans hpending
      have hlast' : s'.LastLine → final = true := fun h => hlast (halong.lastLine h)
      rw [← halong.line, ← halong.lineEnd]
      generalize hpass' : (s.padded b).pass = r at hpad
      cases hpad with
      | stays _ hmode' hk =>
        exact .again hpending hpass' (h.abreast hk hmode' hpending' hlast' (ih hmode' hlast' (by simp [hpending'])))
    · exact .again hpending hpad ((Lexes.again hpending hpass h).pushed hmode hend hpending hlast b.length)
  | @token s s' t out e hpending hpass ht h ih =>
    rcases Lexer.pass_padded hb hne hmode with hpad | ⟨hend, hpad⟩
    · rw [hpass] at hpad
      obtain ⟨-, hline⟩ := Lexer.inLine_of_pass hpass ht
      generalize hpass' : (s.padded b).pass = r at hpad
      cases hpad with
      | stays _ hmode' hk =>
        obtain ⟨hkind, p, halong⟩ := hline.along hmode'
        have hpending' : s'.pending = [] := halong.pending.trans hpending
        have hlast' : s'.LastLine → final = true := fun h => hlast (halong.lastLine h)
        rw [List.map_cons, Token.pushed_of_isLayout hkind, ← halong.line, ← halong.lineEnd]
        exact .token hpending hpass' ht (h.abreast hk hmode' hpending' hlast' (ih hmode' hlast' (by simp [hpending'])))
      | @stop p m halong hend =>
        rw [List.map_cons, ← halong.line, ← halong.lineEnd, hend.lineEnd, Token.pushed_newline]
        have hlast : m.rest = [] → final = true := fun hrest => hlast (halong.lastLine (Lexer.lastLine_of_nil hrest))
        exact .token hpending hpass' rfl (h.ended hend (halong.pending.trans hpending) hlast b.length)
    · exact .again hpending hpad ((Lexes.token hpending hpass ht h).pushed hmode hend hpending hlast b.length)
  | last hpending hpass ht =>
    rw [(Lexer.done_of_pass hpass ht).1] at hmode
    cases hmode
  | @failed s s' f hpending hpass =>
    rcases Lexer.pass_padded hb hne hmode with hpad | ⟨hend, hpad⟩
    · rw [hpass] at hpad
      generalize hpass' : (s.padded b).pass = r at hpad
      cases hpad with
      | stays => exact .failed hpending hpass'
    · exact .again hpending hpad ((Lexes.failed hpending hpass).pushed hmode hend hpending hlast b.length)

/-- What is yielded from the start of a line. -/
theorem Lexes.of_startLine (h : Lexes s out e) (hmode : s.mode = .lineStart) (hpending : s.pending = []) :
    (∃ s', s.startLine = (none, s') ∧ Lexes s' out e) ∨
      ∃ f s', s.startLine = (some f, s') ∧ out = [] ∧ e = some f := by
  have hstart := Lexer.pass_of_lineStart hmode
  generalize s.startLine = r at hstart ⊢
  rcases r with ⟨_ | f, s'⟩
  · cases h with
    | queued hqueue =>
      rw [hpending] at hqueue
      cases hqueue
    | again _ hpass hrest =>
      rw [hstart] at hpass
      cases hpass
      exact .inl ⟨_, rfl, hrest⟩
    | token _ hpass | last _ hpass | failed _ hpass =>
      rw [hstart] at hpass
      cases hpass
  · cases h with
    | queued hqueue =>
      rw [hpending] at hqueue
      cases hqueue
    | failed _ hpass =>
      rw [hstart] at hpass
      cases hpass
      exact .inr ⟨_, _, rfl, rfl, rfl⟩
    | again _ hpass | token _ hpass | last _ hpass =>
      rw [hstart] at hpass
      cases hpass

theorem Lexes.started (h : Lexes s' out e) (hmode : s.mode = .lineStart) (hpending : s.pending = [])
    (hstart : s.startLine = (none, s')) : Lexes s out e :=
  .again hpending (by rw [Lexer.pass_of_lineStart hmode, hstart]; rfl) h

/-- And so does a lexer that is to start the line. -/
theorem Lexes.padLine (h : Lexes s out e) (hb : ∀ c ∈ b, isBlank c = true) (hne : b ≠ [])
    (hmode : s.mode = .lineStart) (hpending : s.pending = []) (hlast : s.LastLine → final = true) :
    Lexes (s.padded b) (out.map (Token.pushed final s.line s.lineEnd b.length)) e := by
  by_cases hrest : s.rest = []
  · obtain ⟨rfl, rfl⟩ := h.unique (Lexer.lexes_atEnd hrest hmode hpending)
    have hend := Lexer.lexes_atEnd (s := s.pushed b.length) hrest hmode hpending
    rw [(Lexer.atLineEnd_nil hrest).lineEnd]
    refine Lexes.started (s := s.padded b) ?_ hmode hpending (Lexer.startLine_blanks hb hne hrest)
    simpa [Lexer.closings, Lexer.tokenHere, Token.pushed, Lexer.pushed, hlast (Lexer.lastLine_of_nil hrest)] using hend
  rcases Lexer.startLine_padded hb hrest with ⟨p, m, halong, hend, hm, hstart, hstart'⟩ | ⟨hsame, hinside⟩
  · have hm : m.mode = .lineStart := hm.trans hmode
    obtain ⟨s', hstart'', hrest⟩ | ⟨f, s', hstart'', -⟩ := h.of_startLine hmode hpending
    · rw [hstart] at hstart''
      cases hstart''
      rw [Lexer.consumeNewline_lineStart hm] at hrest
      rw [Lexer.consumeNewline_lineStart (s := m.pushed b.length) hm] at hstart'
      have hlast : m.rest = [] → final = true := fun hrest => hlast (halong.lastLine (Lexer.lastLine_of_nil hrest))
      rw [← halong.line, ← halong.lineEnd, hend.lineEnd]
      exact (hrest.ended hend (halong.pending.trans hpending) hlast b.length).started hmode hpending hstart'
    · rw [hstart] at hstart''
      cases hstart''
  · obtain ⟨s', hstart, hrest⟩ | ⟨f, s', hstart, rfl, rfl⟩ := h.of_startLine hmode hpending
    · have hmode' := hinside s' hstart
      obtain ⟨hline, hplace, hrestlast, hqueued⟩ := (Lexer.opening_of_startLine hstart).lineEnd hmode hmode' hpending
      rw [hstart] at hsame
      rw [← hline, ← hplace] at hqueued ⊢
      have hpadded := hrest.padded hb hne hmode' (fun h => hlast (hrestlast h)) (hqueued final b.length)
      exact hpadded.started (s := s.padded b) hmode hpending hsame
    · rw [hstart] at hsame
      exact .failed hpending (by rw [Lexer.pass_of_lineStart (s := s.padded b) hmode, hsame]; rfl)

end Runs
end Parley
