import Parley.Proofs.Places

/-! # The block structure of a token stream

However often a lexer is asked for a token, and whatever it has refused in between, what it has returned is laid out in
lines and blocks (`BlockStructure`). What a token tells of those before it (`Follows`) follows from the place of the lexer
that returns it (`Place.fits`), and the open levels from the tokens (`Aligned`). -/

namespace Parley

/-- The tokens that a lexer of this text has returned, and the lexer after it. -/
structure BlockStructure (source : List Char) (out : List Token) (s : Lexer) : Prop where
  /-- Every open level has been opened and not closed, as far as the tokens that are returned or queued tell. -/
  balance : opened (out ++ s.pending) = closed (out ++ s.pending) + (s.indents.length - 1)
  increasing : s.indents.Pairwise (· < ·)
  /-- No more blocks are closed than have been opened. -/
  nested : ∀ before, before <+: out → closed before ≤ opened before
  /-- Where the end of the text is told no block is open. -/
  even : ∀ before t, before ++ [t] <+: out → t.kind = .eof → opened before = closed before
  /-- Blocks are opened and closed at the start of a line and before its first token, or before the end of the text. -/
  heads : ∀ before t after, out = before ++ t :: after → t.kind.isBlock = true →
    AtStart before ∧ (∀ u ∈ after.head?, u.line = t.line) ∧
      (lineTokens t.line before = [] ∨ ∀ u ∈ after, u.kind = .dedent ∨ u.kind = .eof)
  /-- Before anything of a later line, or the end of the text, the tokens of a line with content end with one token that
  ends it, and a line without content has none. -/
  lines : ∀ (i : Nat) line before t, (textLines source)[i]? = some line → before ++ [t] <+: out →
    (i : Int) + 1 < t.line ∨ t.kind = .eof →
      if hasContent line then EndsOnce (lineTokens (i + 1) before) else lineTokens (i + 1) before = []
  /-- Where a header opens a line no block is open. -/
  headers : ∀ before t, before ++ [t] <+: out → t.kind = .doubleColon → lineTokens t.line before = [] →
    opened before = closed before

namespace Lexer

/-- What a token tells of those returned before it. -/
structure Follows (source : List Char) (before : List Token) (t : Token) : Prop where
  start : t.kind.isBlock = true → AtStart before
  follows : ∀ u ∈ before.getLast?, u.kind.isBlock = true → t.line = u.line
  settled : ∀ (i : Nat) line, (textLines source)[i]? = some line → i + 1 < t.line ∨ t.kind = .eof →
    Settled line (lineTokens (i + 1) before)
  ready : t.kind = .eof → Ready before
  margin : t.kind = .eof ∨ t.kind = .doubleColon ∧ (lineTokens t.line before = [] ∨ Ready before) →
    opened before = closed before

section
variable {source : List Char} {past : List (List Char)} {p : List Char} {out new : List Token} {s s' : Lexer} {t : Token}

theorem Aligned.even (h : Aligned out s) (hpending : s.pending = []) (hlevels : s.levels = []) :
    opened out = closed out := by
  simpa [hpending, hlevels] using h.leveled.balance

/-- A token of the current line, which is not the end of the text. -/
theorem Upto.fits (h : Upto source past p out s) (hline : t.line = s.line) (heof : t.kind ≠ .eof)
    (hstart : t.kind.isBlock = true → AtStart out)
    (hheader : t.kind = .doubleColon → lineTokens s.line out = [] ∨ Ready out → opened out = closed out) :
    Follows source out t where
  start := hstart
  follows u hu hblock := hline.trans (h.block u hu hblock).symm
  settled i line hi hbefore := by
    have hbefore := hbefore.resolve_right heof
    rw [hline, h.line] at hbefore
    refine h.settled i line ?_
    rwa [h.split, List.getElem?_append_left (by omega)] at hi
  ready hk := absurd hk heof
  margin hmargin := by
    obtain ⟨hk, hopens⟩ := hmargin.resolve_left heof
    exact hheader hk (hline ▸ hopens)

theorem kind_of_isBlock {kind : TokenKind} (h : kind.isBlock = true) : kind ≠ .eof ∧ kind ≠ .doubleColon := by
  constructor <;>
  · rintro rfl
    cases h

theorem kind_of_headKinds : ∀ kind ∈ headKinds, kind ≠ .eof ∧ kind.isBlock = false ∧ kind ≠ .doubleColon := by decide

theorem Place.fits_queued (h : Place source out s) (ht : s.pending.head? = some t) : Follows source out t := by
  have hmem : t ∈ s.pending := List.mem_of_mem_head? ht
  have hhead (hkind : t.kind ∈ headKinds) {past : List (List Char)} {p : List Char} (h : Upto source past p out s) :
      Follows source out t := by
    obtain ⟨heof, hblock, hheader⟩ := kind_of_headKinds _ hkind
    exact h.fits (h.queued t hmem) heof (by simp [hblock]) fun hk => absurd hk hheader
  cases h with
  | between h _ _ _ hstart hpending =>
    obtain ⟨heof, hheader⟩ := kind_of_isBlock (hpending t hmem)
    exact h.fits (h.queued t hmem) heof (fun _ => hstart) fun hk => absurd hk hheader
  | @opening past p h _ _ _ hstart blocks heads hpending hblocks hheads _ =>
    cases blocks with
    | nil => exact hhead (hheads t (by simpa [hpending] using hmem)) h
    | cons u blocks =>
      obtain rfl : u = t := by simpa [hpending] using ht
      obtain ⟨heof, hheader⟩ := kind_of_isBlock (hblocks u (by simp))
      exact h.fits (h.queued u hmem) heof (fun _ => hstart) fun hk => absurd hk hheader
  | within h _ _ _ _ hpending => exact hhead (hpending t hmem) h
  | finished _ _ _ _ hsettled hpending hblock hstart _ =>
    obtain ⟨hkind, hline⟩ := hpending t hmem
    refine ⟨fun _ => hstart (List.ne_nil_of_mem hmem), fun u hu hu' => hline.trans (hblock u hu hu').symm,
      fun i line hi _ => hsettled i line hi, ?_, ?_⟩ <;>
    simp [hkind]

theorem Place.fits_inLine (h : Place source out s) (ha : Aligned out s) (hpending : s.pending = [])
    (hmode : s.mode.inLine = true) (hpass : s.pass = (.token t, s')) (hline : InLine s t s') : Follows source out t := by
  have hnumber := line_pass_token hpass
  have heof : t.kind ≠ .eof := by simpa [Token.isEof] using hline.isEof
  have hblock : t.kind.isBlock = false := by
    cases hline with
    | mark _ _ _ hkind => exact isBlock_of_isLayout hkind
    | stop _ _ ht _ =>
      rw [ht]
      rfl
  cases h with
  | between _ hstart => simp [hstart, Mode.inLine] at hmode
  | finished hfinished => rcases hfinished with hfinished | ⟨hfinished, -⟩ <;> simp [hfinished, Mode.inLine] at hmode
  | opening h _ _ _ _ _ _ _ hfirst =>
    refine h.fits hnumber heof (by simp [hblock]) fun hheader _ => ?_
    rcases hfirst with hlevels | hleads
    · exact ha.even hpending hlevels
    · exact absurd hheader (hleads.token hpass)
  | within h _ _ hsome _ _ hlast =>
    refine h.fits hnumber heof (by simp [hblock]) fun _ hopens => ?_
    rcases hopens with hnone | hready
    · exact absurd hnone hsome
    · obtain ⟨u, hu⟩ : ∃ u, u ∈ out.getLast? := Option.ne_none_iff_exists'.mp fun hnone => hsome (by simp_all [lineTokens])
      have := hready u hu
      rw [hlast u hu] at this
      cases this

theorem Place.fits_last (h : Place source out s) (ha : Aligned out s) (hpending : s.pending = []) (hmode : s.mode = .done) :
    Follows source out (s.tokenHere .eof "") := by
  cases h with
  | between _ hstart => simp [hstart] at hmode
  | opening _ hinline | within _ hinline => simp [hmode, Mode.inLine] at hinline
  | finished _ _ _ _ hsettled _ hblock _ hready =>
    exact ⟨by simp [tokenHere, TokenKind.isBlock], fun u hu hu' => (hblock u hu hu').symm, fun i line hi _ => hsettled i line hi,
      fun _ => hready, fun _ => ha.even hpending (ha.finished hmode)⟩

theorem Place.fits (h : Place source out s) (ha : Aligned out s) (hmove : Move s new s') : ∀ t ∈ new, Follows source out t := by
  cases hmove with
  | pop hpending => simpa using h.fits_queued (by simp [hpending])
  | start | pass => simp
  | token hpending hmode hpass hline => simpa using h.fits_inLine ha hpending hmode hpass hline
  | last hpending hmode => simpa using h.fits_last ha hpending hmode

/-- Everything known of a lexer and of the tokens that it has returned. -/
structure Surveyed (source : List Char) (out : List Token) (s : Lexer) : Prop where
  aligned : Aligned out s
  place : Place source out s
  fits : ∀ before t, before ++ [t] <+: out → Follows source before t

theorem Surveyed.move (h : Surveyed source out s) (hmove : Move s new s') : Surveyed source (out ++ new) s' := by
  refine ⟨h.aligned.move hmove, h.place.move hmove, fun before t ht => ?_⟩
  have hnew := h.place.fits h.aligned hmove
  cases new with
  | nil => exact h.fits before t (by simpa using ht)
  | cons u more =>
    have hone : more = [] := by cases hmove <;> rfl
    subst hone
    rcases prefix_concat ht with ht | ⟨rfl, rfl⟩
    · exact h.fits before t ht
    · exact hnew t (by simp)

theorem Surveyed.ofText (source : String) : Surveyed source.toList [] (ofText source) :=
  ⟨aligned_ofText source, .ofText source, by simp⟩

/-- Once the text is over only closings and its end are told. -/
theorem Place.heads (h : Place source out s) {before after : List Token} (hout : out = before ++ t :: after)
    (hblock : t.kind.isBlock = true) :
    lineTokens t.line before = [] ∨ ∀ u ∈ after, u.kind = .dedent ∨ u.kind = .eof := by
  have hsome (h : Heads out) : lineTokens t.line before = [] := h before t ⟨after, by simp [hout]⟩ hblock
  cases h with
  | between h | opening h | within h => exact .inl (hsome h.heads)
  | @finished head tail _ hsplit hheads htail =>
    rw [hsplit] at hout
    rcases List.append_eq_append_iff.mp hout with ⟨mid, rfl, htail'⟩ | ⟨mid, hhead, hafter⟩
    · exact .inr fun u hu => htail u (by rw [htail']; simp [hu])
    · cases mid with
      | nil => exact .inr fun u hu => htail u (by rw [List.nil_append] at hafter; rw [← hafter]; exact List.mem_cons_of_mem t hu)
      | cons v mid =>
        obtain ⟨rfl, rfl⟩ := List.cons.inj hafter
        exact .inl (hheads before t ⟨mid, by simp [hhead]⟩ hblock)

theorem Surveyed.blockStructure (h : Surveyed source out s) : BlockStructure source out s where
  balance := by simpa [indents] using h.aligned.leveled.balance
  increasing := by
    have := h.aligned.leveled.increasing
    rw [← List.pairwise_reverse] at this
    simpa [indents] using this
  nested before hbefore := h.aligned.leveled.nested before (hbefore.trans (List.prefix_append ..))
  even before t ht hk := (h.fits before t ht).margin (.inl hk)
  heads before t after hout hblock := by
    have ht : before ++ [t] <+: out := ⟨after, by simp [hout]⟩
    refine ⟨(h.fits before t ht).start hblock, fun u hu => ?_, h.place.heads hout hblock⟩
    obtain ⟨after, rfl⟩ := List.head?_eq_some_iff.mp hu
    exact (h.fits (before ++ [t]) u ⟨after, by simp [hout]⟩).follows t (by simp) hblock
  lines i line before t hi ht hbefore := (h.fits before t ht).settled i line hi hbefore
  headers before t ht hk hnone := (h.fits before t ht).margin (.inr ⟨hk, .inl hnone⟩)

end

/-- The tokens of every text are laid out in lines and blocks, also where calls fail and the lexer is used on. -/
theorem blockStructure_draw (source : String) (count : Nat) :
    BlockStructure source.toList ((ofText source).draw count).tokens ((ofText source).draw count).lexer :=
  (draw_invariant (I := Surveyed source.toList) Surveyed.move (.ofText source) count).blockStructure

/-- The third line goes back to no open level: the call fails, and the line is read at the margin. -/
example : ((ofText "->\n  a\n b").draw 11).tokens.map Token.kind =
    [.arrow, .newline, .indent, .text, .newline, .dedent, .text, .newline, .eof, .eof] := by decide +kernel

end Lexer
end Parley
