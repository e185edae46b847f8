import Parley.Proofs.Scanning

/-! # What the tokens read

A scanner makes its token before it moves on. So the token stands where the lexer is after the blanks in front of it
(`made_of_pass`), and what is left of the text begins with it (`Lexer.Makes`): with its value, or with another form of
it (`TokenKind.Reads`). An error is reported there too (`place_of_pass_failed`). Only the tokens of a speaker are made
ahead of the lexer, with columns that are computed from the head of the line. The words in it are no stretches of the
text, since escapes are resolved and white space is trimmed; its brackets and its colon are (`SpeakerHead.Opens`). -/

namespace Parley

/-- The ASCII form of a colon or of the head of an arrow. -/
def narrow (c : Char) : Char := if isColon c then ':' else if isArrowHead c then '>' else c

/-- A token of this kind and value is what the text begins with. Tokens of layout have no spelling, and free text is
read without its escapes. -/
def TokenKind.Reads (kind : TokenKind) (value text : List Char) : Prop :=
  match kind with
  | .eof | .newline | .indent | .dedent | .text => True
  | .reference => '$' :: value <+: text
  | .string => ∃ quote body, (quote = '"' ∨ quote = '\'') ∧ text = quote :: body ∧ (stringBody quote body).1 = some value
  | .colon | .doubleColon | .arrow | .jump => value <+: text.map narrow
  | _ => value <+: text

section Reading
variable {kind : TokenKind} {value text : List Char} {c : Char} {tail : List Char}

theorem narrow_arrowHead (h : isArrowHead c = true) : narrow c = '>' ∧ isLineEnd c = false := by
  simp only [isArrowHead, Bool.or_eq_true, beq_iff_eq] at h
  rcases h with rfl | rfl <;> exact ⟨rfl, rfl⟩

theorem prefix_narrow_colon (hc : isColon c = true) : [':'] <+: (c :: tail).map narrow :=
  ⟨tail.map narrow, by rw [List.map_cons, narrow, if_pos hc]; rfl⟩

theorem reads_word (h : value <+: text) : (wordKind value).Reads value text := by
  unfold wordKind
  split
  · exact h
  · trivial

theorem reads_keyword {word : String} (h : word.toList <+: text) :
    ((keyword? word).getD .identifier).Reads word.toList text := by
  unfold keyword?
  split
  -- only this one shares its kind with a mark
  case h_14 => exact h.map narrow
  all_goals exact h

namespace Punctuator

/-- The mark is what the text begins with. -/
def Reads (text : List Char) : Punctuator → Prop
  | .broken => True
  | .token kind value _ => kind.Reads value.toList text

theorem reads_oneOrTwo {double : Bool} {two one : TokenKind × String}
    (htwo : double = true → two.1.Reads two.2.toList text) (hone : one.1.Reads one.2.toList text) :
    (oneOrTwo double two one).Reads text := by
  cases double with
  | false => exact hone
  | true => exact htwo rfl

/-- Every mark of code is spelled as it is written. -/
theorem reads_ofChars (c : Char) (tail : List Char) : (ofChars c tail.head?).Reads (c :: tail) := by
  have hpair (c : Char) {d : Char} (h : (tail.head? == some d) = true) : [c, d] <+: c :: tail := by
    obtain ⟨more, rfl⟩ := List.head?_eq_some_iff.mp (by simpa using h)
    exact ⟨more, rfl⟩
  have hwide (c : Char) {p : Char → Bool} {d : Char} (hd : ∀ wide, p wide = true → narrow wide = d)
      (h : tail.head?.any p = true) : [narrow c, d] <+: (c :: tail).map narrow := by
    cases tail with
    | nil => cases h
    | cons wide more => exact ⟨more.map narrow, by rw [← hd wide h]; rfl⟩
  have hhead (wide : Char) (h : isArrowHead wide = true) : narrow wide = '>' := (narrow_arrowHead h).1
  have hcolon (wide : Char) (h : isColon wide = true) : narrow wide = ':' := if_pos h
  have hone (c : Char) : [c] <+: c :: tail := ⟨tail, rfl⟩
  unfold ofChars
  dsimp only
  split
  · next hc =>
    have htwo (h : tail.head?.any isColon = true) : [':', ':'] <+: (c :: tail).map narrow := by
      simpa [hcolon c hc] using hwide c hcolon h
    have hone : [':'] <+: (c :: tail).map narrow := hcolon c hc ▸ (hone c).map narrow
    exact reads_oneOrTwo htwo hone
  · split
    · exact reads_oneOrTwo (hwide '-' hhead) (hone '-')
    · split
      · next h => exact hwide '=' hhead h
      · exact reads_oneOrTwo (hpair '=') (hone '=')
    · exact reads_oneOrTwo (hpair '!') (hone '!')
    · exact reads_oneOrTwo (hpair '>') (hone '>')
    · exact reads_oneOrTwo (hpair '<') (hone '<')
    · split
      · next h => exact hpair '&' h
      · trivial
    · split
      · next h => exact hpair '|' h
      · trivial
    all_goals first | exact hone _ | trivial

end Punctuator
namespace CodeHead

theorem reads_ofString {quote : Char} {read : String} (hquote : quote = '"' ∨ quote = '\'')
    (h : ofString quote tail = .token kind read text) : kind.Reads read.toList (quote :: tail) := by
  unfold ofString at h
  rcases hbody : stringBody quote tail with ⟨_ | body, left⟩ <;> rw [hbody] at h <;> cases h
  exact ⟨quote, tail, hquote, rfl, by rw [hbody, String.toList_ofList]⟩

theorem reads_ofName {read : String} (h : ofName (wordHead tail) = .token kind read text) :
    kind.Reads read.toList ('$' :: tail) := by
  have hbegins := wordHead_begins tail
  cases hname : wordHead tail with
  | nil =>
    rw [hname] at h
    cases h
  | cons d name =>
    rw [hname] at h hbegins
    cases h
    show '$' :: (String.ofList (d :: name)).toList <+: '$' :: tail
    rw [String.toList_ofList]
    exact List.cons_prefix_cons.mpr ⟨rfl, hbegins⟩

theorem reads_ofMark {read : String} (h : ofMark c tail.head? = .token kind read text) :
    kind.Reads read.toList (c :: tail) := by
  have hreads := Punctuator.reads_ofChars c tail
  unfold ofMark at h
  cases hmark : Punctuator.ofChars c tail.head? <;> rw [hmark] at h hreads <;> cases h
  exact hreads

end CodeHead

/-- What comes next in code is read as it is spelled. -/
theorem reads_codeHead {cs : List Char} {read : String} (h : codeHead cs = .token kind read text) :
    kind.Reads read.toList cs := by
  cases cs with
  | nil => cases h
  | cons c tail =>
    rw [codeHead] at h
    split at h
    · cases h
    split at h
    · cases h
    split at h
    · cases h
      exact reads_keyword (by rw [String.toList_ofList]; exact wordHead_begins _)
    split at h
    · next hdigit =>
      cases h
      obtain ⟨left, hsplit, -⟩ := @numeral_stretch c tail hdigit
      exact ⟨left, by rw [String.toList_ofList]; exact hsplit.symm⟩
    split at h
    · next hquote => exact CodeHead.reads_ofString (by simpa using hquote) h
    split at h
    · next hdollar => exact hdollar ▸ CodeHead.reads_ofName h
    · exact CodeHead.reads_ofMark h

/-- And so is what comes next between tags. -/
theorem reads_tagHead {cs : List Char} (h : tagHead cs = some (kind, text)) : kind.Reads text cs := by
  cases cs with
  | nil => cases h
  | cons c tail =>
    have hone : [c] <+: c :: tail := ⟨tail, rfl⟩
    rw [tagHead] at h
    split at h
    · cases h
    split at h
    · next hcomma =>
      cases h
      exact hcomma ▸ hone
    split at h
    · next hhash =>
      cases h
      exact hhash ▸ hone
    · cases h
      exact reads_word (List.takeWhile_prefix _)

theorem reads_textHead {inChoice : Bool} {mode : Mode} {read : String}
    (h : Lexer.textHead inChoice text.head? = .mark kind read mode) : kind.Reads read.toList text := by
  cases text with
  | nil => cases h
  | cons c tail =>
    have hone : [c] <+: c :: tail := ⟨tail, rfl⟩
    rw [List.head?_cons, Lexer.textHead] at h
    split at h
    · cases h
    split at h
    · next hc =>
      cases h
      exact hc ▸ hone
    split at h
    · next hc =>
      cases h
      exact hc ▸ hone
    split at h
    · next hc =>
      cases h
      simp only [Bool.and_eq_true, decide_eq_true_eq] at hc
      exact hc.1 ▸ hone
    · cases h

end Reading

namespace Lexer

/-- The token is made here, of what comes next. -/
structure Makes (m : Lexer) (t : Token) : Prop where
  line : t.line = m.line
  column : t.column = m.column
  reads : t.kind.Reads t.value.toList m.rest

section Scanners
variable {s s' m : Lexer} {t : Token} {e : LexError}

theorem makes_tokenHere {kind : TokenKind} {value : String} (h : kind.Reads value.toList m.rest) :
    m.Makes (m.tokenHere kind value) := ⟨rfl, rfl, h⟩

theorem makes_scanCode (hs : s.scanCode = (.ok t, s')) (hkind : t.kind ≠ .newline) : s.skipBlanks.Makes t := by
  rw [scanCode_eq] at hs
  cases hhead : codeHead s.skipBlanks.rest with
  | ending | comment =>
    rw [hhead] at hs
    cases hs
    exact absurd rfl hkind
  | token kind value text =>
    rw [hhead] at hs
    cases hs
    exact makes_tokenHere (reads_codeHead hhead)
  | refused =>
    rw [hhead] at hs
    cases hs

theorem makes_scanTag (hs : s.scanTag = (t, s')) (hkind : t.kind ≠ .newline) : s.skipBlanks.Makes t := by
  rw [scanTag_eq] at hs
  cases hhead : tagHead s.skipBlanks.rest with
  | none =>
    rw [hhead] at hs
    cases hs
    exact absurd rfl hkind
  | some head =>
    rw [hhead] at hs
    cases hs
    exact makes_tokenHere (by rw [String.toList_ofList]; exact reads_tagHead hhead)

theorem makes_scanText (hs : s.scanText = (some t, s')) (hkind : t.kind ≠ .newline) : s.begun.Makes t := by
  rw [scanText_eq] at hs
  generalize s.begun = m at hs ⊢
  cases hhead : textHead m.inChoice m.rest.head? with
  | ending =>
    rw [hhead] at hs
    cases hs
    exact absurd rfl hkind
  | mark kind value mode =>
    rw [hhead] at hs
    cases hs
    exact makes_tokenHere (reads_textHead hhead)
  | run =>
    rw [hhead] at hs
    obtain ⟨-, htext⟩ := Option.ite_none_left_eq_some.mp (congrArg Prod.fst hs)
    cases htext
    exact makes_tokenHere trivial

/-- What a pass inside a line yields is made behind a stretch of the line, and then read. -/
theorem made_of_pass (hmode : s.mode.inLine = true) (h : s.pass = (.token t, s')) :
    ∃ p m, Along p s m ∧ InLine m t s' ∧ (t.kind ≠ .newline → m.Makes t) := by
  cases ran_of_pass h with
  | code hmode hscan =>
    have hagain : s.skipBlanks.scanCode = (.ok t, s') := by
      rw [← hscan, scanCode_eq, scanCode_eq, skipBlanks_skipBlanks]
    exact ⟨_, _, .skipBlanks s, inLine_scanCode hmode hagain, makes_scanCode hscan⟩
  | text hmode hscan =>
    obtain ⟨p, hp⟩ := along_begun s
    have hagain : s.begun.scanText = (some t, s') := by rw [← hscan, scanText_eq, scanText_eq, begun_begun]
    rcases inLine_scanText ((mode_begun s).trans hmode) hagain with ⟨_, hsome, hline⟩ | ⟨hnone, -⟩
    · cases hsome
      exact ⟨p, _, hp, hline, makes_scanText hscan⟩
    · cases hnone
  | tags hmode hscan =>
    have hagain : s.skipBlanks.scanTag = (t, s') := by
      rw [← hscan, scanTag_eq, scanTag_eq, skipBlanks_skipBlanks]
    have hline := inLine_scanTag (s := s.skipBlanks) hmode
    rw [hagain] at hline
    exact ⟨_, _, .skipBlanks s, hline, makes_scanTag hscan⟩
  | done hdone =>
    rw [hdone] at hmode
    cases hmode

/-- What is refused is refused where it comes next. -/
theorem place_of_pass_failed (h : s.pass = (.failed e, s')) : e.line = s.skipBlanks.line ∧ e.column = s.skipBlanks.column := by
  cases ran_of_pass h with
  | refused _ hscan =>
    cases started_of_startLine hscan with
    | refused _ _ hindent =>
      unfold indentTo at hindent
      dsimp only at hindent
      split at hindent
      · cases hindent
      · split at hindent <;> cases hindent
        exact ⟨rfl, rfl⟩
  | broken _ hscan =>
    rw [scanCode_eq] at hscan
    cases hhead : codeHead s.skipBlanks.rest <;> rw [hhead] at hscan <;> cases hscan
    exact ⟨rfl, rfl⟩

end Scanners
end Lexer

/-! ### The head of a line -/

namespace SpeakerHead

/-- The brackets and the colon stand on the line where they are looked for. -/
structure Opens (head : SpeakerHead) (line : List Char) : Prop where
  emotion : ∀ inside ∈ head.emotion, '[' :: (inside ++ [']']) <+: line.drop head.width
  colon : [':'] <+: (line.drop head.beforeColon).map narrow

section
variable {head : SpeakerHead} {line : List Char}

theorem Opens.push (h : head.Opens line) (c : Char) {p : List Char} {width : Nat} (hwidth : p.length = width) :
    (head.push c width).Opens (p ++ line) where
  emotion := fun inside hinside => by
    have hdrop : (p ++ line).drop (head.width + width) = line.drop head.width := by
      rw [Nat.add_comm, ← hwidth, List.drop_length_add_append]
    exact hdrop ▸ h.emotion inside hinside
  colon := by
    have hdrop : (p ++ line).drop (head.beforeColon + width) = line.drop head.beforeColon := by
      rw [Nat.add_comm, ← hwidth, List.drop_length_add_append]
    rw [beforeColon_push, hdrop]
    exact h.colon

theorem opens_of_colon {c : Char} {tail : List Char} (hc : isColon c = true) : Opens ⟨[], 0, none, 0⟩ (c :: tail) :=
  ⟨nofun, prefix_narrow_colon hc⟩

theorem opens_of_emotionHead? (h : emotionHead? line = some head) : head.Opens ('[' :: line) := by
  have hsplit := List.takeWhile_append_dropWhile (p := fun c => c != ']') (l := line)
  have hclosing := List.head?_dropWhile_not (fun c => c != ']') line
  unfold emotionHead? at h
  dsimp only at h
  split at h
  · cases h
  · next bracket after hafter =>
    split at h
    · next hcolon =>
      cases h
      rw [hafter] at hclosing hsplit
      obtain rfl : bracket = ']' := by simpa using hclosing
      generalize line.takeWhile (fun c => c != ']') = inside at hsplit ⊢
      subst hsplit
      refine ⟨fun raw hraw => ?_, ?_⟩
      · cases hraw
        exact ⟨after, by simp⟩
      · have hbracket : '[' :: (inside ++ ']' :: after) = ('[' :: (inside ++ [']'])) ++ after := by simp
        have hwidth (gap : Nat) : SpeakerHead.beforeColon ⟨[], 0, some inside, gap⟩ =
            ('[' :: (inside ++ [']'])).length + gap := by
          simp only [SpeakerHead.beforeColon, List.length_cons, List.length_append, List.length_nil]
          omega
        rw [hbracket, hwidth, List.drop_length_add_append, Lexer.drop_length_takeWhile]
        cases hrest : after.dropWhile isBlank with
        | nil =>
          rw [hrest] at hcolon
          cases hcolon
        | cons colon rest =>
          rw [hrest] at hcolon
          exact prefix_narrow_colon hcolon
    · cases h

theorem opens_of_speakerHead? (h : speakerHead? line = some head) : head.Opens line := by
  fun_induction speakerHead? line generalizing head with
  | case1 => cases h
  | case2 c hc =>
    cases h
    exact opens_of_colon hc
  | case3 => cases h
  | case4 => cases h
  | case5 c d tail _ _ ih =>
    obtain ⟨inner, hinner, rfl⟩ := Option.map_eq_some_iff.mp h
    exact (ih hinner).push d (p := [c, d]) rfl
  | case6 c d tail _ _ hc =>
    cases h
    exact opens_of_colon hc
  | case7 d tail => exact opens_of_emotionHead? h
  | case8 c d tail _ _ _ _ ih =>
    obtain ⟨inner, hinner, rfl⟩ := Option.map_eq_some_iff.mp h
    exact (ih hinner).push c (p := [c]) rfl

end
end SpeakerHead

end Parley
