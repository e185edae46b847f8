import Parley.Proofs.BlockStructure
import Parley.Proofs.Grammar

/-! # Tokens that are laid out

What a parser needs of the tokens of a text: wherever it has come to, a block closes only if one is open, and neither a
header that opens a line nor the end of the text comes while a block is open (`Laid`). Between two places the levels
that are open at the first one may stay open all the way (`Stays`), and the same levels may be open at the second one
(`Level`); the tokens of a line, for one, open and close nothing. -/

namespace Parley

/-- The tokens are laid out as those of a text: `taken` are those in front of some place, and `rest` those behind it. -/
structure Laid (ts : List Token) : Prop where
  dedent : ∀ taken rest, ts = taken ++ rest → (Reading.peek rest).kind = .dedent → levelsAfter taken ≠ []
  header : ∀ taken rest, ts = taken ++ rest → (Reading.peek rest).kind = .doubleColon → Ready taken →
    levelsAfter taken = []
  eof : ∀ taken rest, ts = taken ++ rest → (Reading.peek rest).kind = .eof → Ready taken ∧ levelsAfter taken = []

/-- The levels `kept` stay open all the way. -/
structure Stays (kept : List Nat) (taken after : List Token) : Prop where
  more : taken <+: after
  levels : ∀ mid, taken <+: mid → mid <+: after → kept <:+ levelsAfter mid

/-- The levels that are open here stay open all the way, and no others are open there. -/
structure Level (taken after : List Token) : Prop where
  stays : Stays (levelsAfter taken) taken after
  same : levelsAfter after = levelsAfter taken

section
variable {source : List Char} {s : Lexer} {taken mid after rest ts used : List Token} {t : Token} {kept deep : List Nat}

theorem prefix_of_split (hts : ts = taken ++ rest) {kind : TokenKind} (hpeek : (Reading.peek rest).kind = kind)
    (hkind : kind ≠ .eof) : taken ++ [Reading.peek rest] <+: ts :=
  ⟨Reading.skip rest, by rw [hts, List.append_assoc, List.singleton_append, ← Reading.eq_cons_of_kind hpeek hkind]⟩

theorem levelsAfter_eq_nil (hnested : Nested ts) (heven : opened ts = closed ts) : levelsAfter ts = [] := by
  have := hnested.length_levelsAfter
  exact List.length_eq_zero_iff.mp (by omega)

/-- All tokens of a text, the end of it being the last of them, are laid out. -/
theorem Lexer.Surveyed.laid (h : Surveyed source ts s) (hlast : ∃ t, ts.getLast? = some t ∧ t.isEof = true) : Laid ts := by
  have hnested (before : List Token) (hbefore : before <+: ts) : Nested before := fun p hp =>
    h.aligned.leveled.nested p ((hp.trans hbefore).trans (List.prefix_append ..))
  have hmargin {before : List Token} {t : Token} (ht : before ++ [t] <+: ts)
      (hwhy : t.kind = .eof ∨ t.kind = .doubleColon ∧ (lineTokens t.line before = [] ∨ Ready before)) :
      levelsAfter before = [] :=
    levelsAfter_eq_nil (hnested before ((List.prefix_append ..).trans ht)) ((h.fits before t ht).margin hwhy)
  obtain ⟨eof, heof, hkind⟩ := hlast
  obtain ⟨front, rfl⟩ := List.getLast?_eq_some_iff.mp heof
  have hkind : eof.kind = .eof := by simpa [Token.isEof] using hkind
  refine ⟨fun taken rest hts hpeek hnone => ?_, fun taken rest hts hpeek hready => ?_, fun taken rest hts hpeek => ?_⟩
  · have hprefix := prefix_of_split hts hpeek (by decide)
    have hall := hnested _ hprefix _ (List.prefix_refl _)
    have hbalance := (hnested taken ((List.prefix_append ..).trans hprefix)).length_levelsAfter
    simp only [opened_append, closed_append, opened_of_kind hpeek, closed_of_kind hpeek, hnone] at hall hbalance
    simp at hall hbalance
    omega
  · exact hmargin (prefix_of_split hts hpeek (by decide)) (.inr ⟨hpeek, .inr hready⟩)
  · cases rest with
    | nil =>
      rw [List.append_nil] at hts
      subst hts
      refine ⟨.concat (by rw [hkind]; rfl), ?_⟩
      rw [levelsAfter_concat, levels_of_not_block (by rw [hkind]; rfl)]
      exact hmargin (List.prefix_refl _) (.inl hkind)
    | cons t rest =>
      have hprefix : taken ++ [t] <+: front ++ [eof] := ⟨rest, by rw [hts]; simp⟩
      exact ⟨(h.fits taken t hprefix).ready hpeek, hmargin hprefix (.inl hpeek)⟩

theorem laid_of_tokens {source : String} (h : tokens source = .ok ts) : Laid ts := by
  have hemits := tokens_eq_ok_iff.mp h
  obtain ⟨s, hs⟩ := Lexer.emits_invariant (I := Lexer.Surveyed source.toList) Lexer.Surveyed.move
    (.ofText source) hemits
  exact hs.laid hemits.getLast?_isEof

namespace Stays

theorem refl (h : kept <:+ levelsAfter taken) : Stays kept taken taken :=
  ⟨List.prefix_refl _, fun mid hmid hmid' => by rwa [hmid'.eq_of_length_le hmid.length_le]⟩

theorem trans (h : Stays kept taken mid) (h' : Stays kept mid after) : Stays kept taken after := by
  refine ⟨h.more.trans h'.more, fun between hbetween hafter => ?_⟩
  rcases List.prefix_or_prefix_of_prefix hafter h'.more with hle | hle
  · exact h.levels between hbetween hle
  · exact h'.levels between hle hafter

theorem weaken (hkept : kept <:+ deep) (h : Stays deep taken after) : Stays kept taken after :=
  ⟨h.more, fun mid hmid hmid' => hkept.trans (h.levels mid hmid hmid')⟩

/-- Over one token. -/
theorem step (h : kept <:+ levelsAfter taken) (h' : kept <:+ levelsAfter (taken ++ [t])) :
    Stays kept taken (taken ++ [t]) := by
  refine ⟨List.prefix_append .., fun mid hmid hmid' => ?_⟩
  rcases List.prefix_concat_iff.mp hmid' with rfl | hle
  · exact h'
  · rwa [hle.eq_of_length_le hmid.length_le]

end Stays

namespace Level

theorem refl (taken : List Token) : Level taken taken := ⟨.refl (List.suffix_refl _), rfl⟩

theorem trans (h : Level taken mid) (h' : Level mid after) : Level taken after :=
  ⟨h.stays.trans (h.same ▸ h'.stays), h'.same.trans h.same⟩

/-- Tokens that are no block tokens open and close nothing. -/
theorem plain (hused : ∀ t ∈ used, t.kind.isBlock = false) : Level taken (taken ++ used) := by
  have hsame {some : List Token} (hsome : ∀ t ∈ some, t.kind.isBlock = false) :
      levelsAfter (taken ++ some) = levelsAfter taken := by
    rw [levelsAfter, List.foldl_append, foldl_levels_of_not_block hsome]
    rfl
  refine ⟨⟨List.prefix_append .., fun mid hmid hmid' => ?_⟩, hsame hused⟩
  obtain ⟨some, rfl⟩ := hmid
  have hsome := (List.prefix_append_right_inj taken).mp hmid'
  simp only [hsame fun t ht => hused t (hsome.subset ht), List.suffix_refl]

end Level
end
end Parley
