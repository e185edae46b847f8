import Parley.Proofs.Offsets
import Parley.Proofs.TokenReadings

/-! # Tokens stand where they are read

The place of every token is an offset of the source, the offsets do not fall along the stream, and the source reads the
token there (`tokens_located`). What a scanner makes stands where the lexer is, and what opens a line is queued before
the line is read and stands between the head of the line and what is left of it (`located_classify`). So with every pass
the lexer is at an offset behind all that it has returned or queued (`Lexer.Tracks`). -/

namespace Parley

/-- A speaker is the word that opens its line, and its emotion the word behind the bracket that comes next. No line of
code begins with a name. -/
def Token.IsSpeech (before : List Token) (t : Token) : Prop :=
  t.kind = .identifier ∧
    (lineTokens t.line before = [] ∨
      ∃ name bracket, lineTokens t.line before = [name, bracket] ∧ (name.kind = .text ∨ name.kind = .identifier) ∧
        bracket.kind = .leftBracket)

/-- The tokens stand one behind the other between two offsets of the source, and are what it reads there, except for
the words of a speaker. -/
inductive Located (source : List Char) : List Token → Nat → List Token → Nat → Prop
  | nil {before : List Token} {low high : Nat} (h : low ≤ high) : Located source before low [] high
  | cons {before ts : List Token} {low offset high : Nat} {t : Token} (hlow : low ≤ offset)
      (hstands : Stands source offset t.line t.column)
      (hreads : ¬ t.IsSpeech before → t.kind.Reads t.value.toList (source.drop offset))
      (h : Located source (before ++ [t]) offset ts high) : Located source before low (t :: ts) high

section Run
variable {source : List Char} {before ts us out : List Token} {low low' mid high high' offset : Nat} {s s' m : Lexer}
  {t : Token} {e : Option LexError}

namespace Located

theorem le (h : Located source before low ts high) : low ≤ high := by
  induction h with
  | nil h => exact h
  | cons hle _ _ _ ih => exact Nat.le_trans hle ih

theorem mono (h : Located source before low ts high) (hlow : low' ≤ low) (hhigh : high ≤ high') :
    Located source before low' ts high' := by
  induction h generalizing low' with
  | nil h => exact .nil (by omega)
  | cons hle hstands hreads _ ih => exact .cons (by omega) hstands hreads (ih (Nat.le_refl _) hhigh)

theorem append (h : Located source before low ts mid) (h' : Located source (before ++ ts) mid us high) :
    Located source before low (ts ++ us) high := by
  induction h with
  | nil h => simpa using h'.mono h (Nat.le_refl _)
  | cons hle hstands hreads _ ih => exact .cons hle hstands hreads (ih (by simpa using h'))

/-- Tokens of one place. -/
theorem here (hlow : low ≤ offset)
    (h : ∀ t ∈ ts, Stands source offset t.line t.column ∧ t.kind.Reads t.value.toList (source.drop offset)) :
    Located source before low ts offset := by
  induction ts generalizing before low with
  | nil => exact .nil hlow
  | cons t ts ih =>
    obtain ⟨⟨hstands, hreads⟩, hts⟩ := List.forall_mem_cons.mp h
    exact .cons hlow hstands (fun _ => hreads) (ih (Nat.le_refl _) hts)

/-- All of them are on the lines up to here. -/
theorem line_le {line column : Int} (h : Located source before low ts high) (hhigh : Stands source high line column) :
    ∀ t ∈ ts, t.line ≤ line := by
  induction h with
  | nil => nofun
  | @cons before ts low offset high t hlow hstands hreads h ih =>
    exact List.forall_mem_cons.mpr ⟨hstands.line_le hhigh h.le, ih hhigh⟩

end Located

namespace Lexer

/-- What is made here stands here, and is what the source reads. -/
theorem At.located (h : m.At source offset) (hts : ∀ t ∈ ts, m.Makes t) : Located source before offset ts offset := by
  refine .here (Nat.le_refl _) fun t ht => ?_
  rw [(hts t ht).line, (hts t ht).column, ← h.rest]
  exact ⟨h.stands, (hts t ht).reads⟩

theorem At.located_token (h : m.At source offset) (ht : m.Makes t) : Located source before offset [t] offset :=
  h.located (List.forall_mem_singleton.mpr ht)

/-- A word of a speaker need not be what the source reads. -/
theorem reads_speech {word value text : List Char} {P : Prop} (hspeech : wordKind word = .identifier → P) (h : ¬ P) :
    (wordKind word).Reads value text := by
  unfold wordKind at hspeech ⊢
  split
  · next hword => exact absurd (hspeech (if_pos hword)) h
  · trivial

theorem lineTokens_bracket {name bracket : Token} {line : Int} (hnone : lineTokens line before = [])
    (hline : name.line = line ∧ bracket.line = line) (hname : name.kind = .text ∨ name.kind = .identifier)
    (hbracket : bracket.kind = .leftBracket) : lineTokens line (before ++ [name] ++ [bracket]) = [name, bracket] := by
  obtain ⟨rfl, hline⟩ := hline
  have hkind : name.kind.isBlock = false ∧ name.isEof = false := by
    rcases hname with h | h <;> simp [h, TokenKind.isBlock, Token.isEof]
  have hown : lineTokens name.line (before ++ [name]) = [name] := by rw [lineTokens_own hkind.1 hkind.2, hnone]; rfl
  rw [← hline, lineTokens_own (by rw [hbracket]; rfl) (by simp [Token.isEof, hbracket]), hline, hown]
  rfl

/-- The tokens of a speaker stand along the speaker. -/
theorem located_speakerTokens {head : SpeakerHead} (name : List Char) (hat : s.At source offset)
    (hhead : speakerHead? (s.rest.take (lineLength s.rest)) = some head) (hlow : low ≤ offset)
    (hnone : lineTokens s.line before = []) :
    Located source before low (s.speakerTokens head name) (offset + head.beforeColon) := by
  obtain ⟨p, hp, halong⟩ := Along.speaker hhead
  obtain ⟨hinside, hcolon⟩ := SpeakerHead.opens_of_speakerHead? hhead
  have hstands (count : Nat) {column : Int} (hcount : count ≤ head.beforeColon) (hcolumn : column = s.column + count) :
      Stands source (offset + count) s.line column := by
    rw [hcolumn, ← Int.natCast_add]
    exact (hat.advance halong (by omega)).stands
  have hdrop (count : Nat) : (s.rest.take (lineLength s.rest)).drop count <+: source.drop (offset + count) := by
    rw [← List.drop_drop, ← hat.rest, List.drop_take]
    exact List.take_prefix _ _
  have hname : ¬ Token.IsSpeech before (s.tokenHere (wordKind name) (String.ofList name)) →
      (wordKind name).Reads (String.ofList name).toList (source.drop offset) :=
    reads_speech fun hkind => ⟨hkind, .inl hnone⟩
  have hcolon : TokenKind.colon.Reads ":".toList (source.drop (offset + head.beforeColon)) :=
    hcolon.trans ((hdrop head.beforeColon).map narrow)
  unfold speakerTokens
  cases hemotion : head.emotion with
  | none =>
    refine .cons hlow hat.stands hname (.cons (Nat.le_add_right _ _) (hstands _ (Nat.le_refl _) rfl) (fun _ => hcolon) ?_)
    exact .nil (Nat.le_refl _)
  | some raw =>
    have hbefore : head.beforeColon = head.width + 1 + raw.length + 1 + head.gap := by
      simp [SpeakerHead.beforeColon, hemotion]
    obtain ⟨left, hleft⟩ := (hinside raw hemotion).trans (hdrop head.width)
    have hopening : TokenKind.leftBracket.Reads "[".toList (source.drop (offset + head.width)) :=
      ⟨raw ++ ']' :: left, by rw [← hleft]; simp⟩
    have hclosing : TokenKind.rightBracket.Reads "]".toList (source.drop (offset + (head.width + 1 + raw.length))) := by
      refine ⟨left, ?_⟩
      have hlength : offset + (head.width + 1 + raw.length) = offset + head.width + ('[' :: raw).length := by
        simp only [List.length_cons]
        omega
      rw [hlength, ← List.drop_drop, ← hleft]
      simp
    refine .cons hlow hat.stands hname ?_
    refine .cons (Nat.le_add_right _ _) (hstands head.width (by omega) rfl) (fun _ => hopening) ?_
    refine .cons (by omega) (hstands (head.width + 1) (by omega) rfl) (reads_speech fun hkind => ⟨hkind, .inr ?_⟩) ?_
    · refine ⟨_, _, lineTokens_bracket hnone ?_ ?_ ?_, ?_, ?_⟩
      exacts [⟨rfl, rfl⟩, kind_wordKind name, rfl, kind_wordKind name, rfl]
    refine .cons (by omega) (hstands (head.width + 1 + raw.length) (by omega) ?_) (fun _ => hclosing) ?_
    · push_cast
      omega
    exact .cons (by omega) (hstands _ (Nat.le_refl _) rfl) (fun _ => hcolon) (.nil (Nat.le_refl _))

theorem At.congr (h : s.At source offset) (hrest : s'.rest = s.rest) (hline : s'.line = s.line)
    (hcolumn : s'.column = s.column) : s'.At source offset :=
  ⟨by rw [hline, hcolumn]; exact h.stands, hrest.trans h.rest, by rw [hrest]; exact h.whole⟩

/-- Blocks are opened and closed where the line begins. -/
theorem located_indentTo {n : Nat} (hat : m.At source offset) (hindent : m.indentTo n = (none, s'))
    (h : Located source [] 0 (before ++ m.pending) offset) : Located source [] 0 (before ++ s'.pending) offset := by
  have hqueue : ∃ ds, s'.pending = m.pending ++ ds ∧ ∀ t ∈ ds, m.Makes t := by
    have hsame (count : Nat) : ∀ t ∈ List.replicate count (m.tokenHere .dedent ""), m.Makes t := fun t ht => by
      rw [List.eq_of_mem_replicate ht]
      exact makes_tokenHere trivial
    unfold indentTo at hindent
    dsimp only at hindent
    split at hindent
    · cases hindent
      exact ⟨[m.tokenHere .indent ""], rfl, List.forall_mem_singleton.mpr (makes_tokenHere trivial)⟩
    · split at hindent <;> cases hindent
      exact ⟨_, rfl, hsame _⟩
  obtain ⟨ds, hds, hmade⟩ := hqueue
  rw [hds, ← List.append_assoc]
  exact h.append (hat.located hmade)

theorem located_closeBlocks (hat : m.At source offset) (h : Located source [] 0 (before ++ m.pending) offset) :
    Located source [] 0 (before ++ m.closeBlocks.pending) offset := by
  show Located source [] 0 (before ++ (m.pending ++ List.replicate m.levels.length (m.tokenHere .dedent ""))) offset
  rw [← List.append_assoc]
  refine h.append (hat.located fun t ht => ?_)
  rw [List.eq_of_mem_replicate ht]
  exact makes_tokenHere trivial

/-- What opens a line is queued before the line is read, and stands in front of what is left of it. -/
theorem located_classify (hat : m.At source offset) (h : Located source [] 0 (before ++ m.pending) offset)
    (hnone : lineTokens m.line (before ++ m.pending) = []) :
    ∃ later, m.classify.At source later ∧ Located source [] 0 (before ++ m.classify.pending) later := by
  have hqueue {ts : List Token} {later high : Nat} (hts : Located source (before ++ m.pending) offset ts later)
      (hhigh : later ≤ high) : Located source [] 0 (before ++ (m.pending ++ ts)) high := by
    rw [← List.append_assoc]
    exact (h.append hts).mono (Nat.le_refl _) hhigh
  unfold classify
  dsimp only
  split
  · next harrow =>
    simp only [Bool.and_eq_true, decide_eq_true_eq] at harrow
    obtain ⟨tail, hrest⟩ := List.head?_eq_some_iff.mp harrow.1
    obtain ⟨d, hd, hhead⟩ := (Option.any_eq_true _ _).mp harrow.2
    rw [hrest, List.tail_cons] at hd
    obtain ⟨more, rfl⟩ := List.head?_eq_some_iff.mp hd
    obtain ⟨hnarrow, hplain⟩ := narrow_arrowHead hhead
    have hmakes : m.Makes (m.tokenHere .arrow "->") := by
      refine makes_tokenHere ⟨more.map narrow, ?_⟩
      rw [hrest, List.map_cons, List.map_cons, hnarrow]
      rfl
    have halong := Along.advance (p := ['-', d]) (q := more) hrest <|
      List.forall_mem_cons.mpr ⟨by decide, List.forall_mem_singleton.mpr hplain⟩
    refine ⟨offset + 2, (hat.along halong).congr rfl rfl rfl, ?_⟩
    exact hqueue (hat.located_token hmakes) (Nat.le_add_right _ _)
  · split
    · exact ⟨offset, hat.congr rfl rfl rfl, h⟩
    · split
      · exact ⟨offset, hat.congr rfl rfl rfl, h⟩
      · unfold queueSpeaker
        split
        · exact ⟨offset, hat.congr rfl rfl rfl, h⟩
        · next head hhead =>
          dsimp only
          split
          · exact ⟨offset, hat.congr rfl rfl rfl, h⟩
          · obtain ⟨p, hp, halong⟩ := Along.speaker hhead
            have hspeaker := located_speakerTokens (trim head.name) hat hhead (Nat.le_refl _) hnone
            refine ⟨offset + (head.beforeColon + 1), ?_, hqueue hspeaker (by omega)⟩
            have hat' := hat.along halong
            rw [hp] at hat'
            exact hat'.congr rfl rfl rfl

/-- Where the lexer is once these tokens have been returned. A line is started with nothing queued and nothing of the
line returned. -/
structure Tracks (source : List Char) (before : List Token) (s : Lexer) : Prop where
  place : ∃ offset, s.At source offset ∧ Located source [] 0 (before ++ s.pending) offset
  fresh : s.mode = .lineStart → s.pending = [] ∧ (s.rest ≠ [] → ∀ t ∈ before, t.line < s.line)

theorem tracks_ofText (source : String) : Tracks source.toList [] (.ofText source) :=
  ⟨⟨0, at_ofText source, .nil (Nat.le_refl _)⟩, fun _ => ⟨rfl, fun _ => nofun⟩⟩

/-- Over the end of a line, all tokens of it are behind the lexer. -/
theorem tracks_consumeNewline (hat : m.At source offset) (h : Located source [] 0 before offset)
    (hpending : m.pending = []) (hend : m.AtLineEnd) (mode : Mode) :
    Tracks source before { m.consumeNewline with mode := mode } := by
  obtain ⟨later, hle, hat', hline⟩ := hat.consumeNewline hend
  have hpending' : m.consumeNewline.pending = [] := (consumeNewline_eq m).2.1.trans hpending
  refine ⟨⟨later, hat'.congr rfl rfl rfl, ?_⟩, fun _ => ⟨hpending', fun hne t ht => ?_⟩⟩
  · show Located source [] 0 (before ++ m.consumeNewline.pending) later
    rw [hpending', List.append_nil]
    exact h.mono (Nat.le_refl _) hle
  · have hmore : m.rest ≠ [] := by
      rcases rest_consumeNewline hend with ⟨-, hnil⟩ | hlt
      · exact absurd hnil hne
      · exact List.ne_nil_of_length_pos (Nat.zero_lt_of_lt hlt)
    have hle := h.line_le hat.stands t ht
    show t.line < (m.consumeNewline.line : Int)
    rw [hline hmore]
    omega

namespace Tracks

/-- Only the mode changes, and what closes the blocks is queued. -/
theorem closeBlocks (hat : m.At source offset) (h : Located source [] 0 (before ++ m.pending) offset) {mode : Mode}
    (hmode : mode ≠ .lineStart) : Tracks source before { m.closeBlocks with mode := mode } :=
  ⟨⟨offset, hat.congr rfl rfl rfl, located_closeBlocks hat h⟩, fun hstart => absurd hstart hmode⟩

/-- A line with content is started where no token of it has been returned. -/
theorem content {n : Nat} (hat : m.At source offset) (h : Located source [] 0 before offset) (hpending : m.pending = [])
    (hindent : m.indentTo n = (none, s')) (hfresh : ∀ t ∈ before, t.line < m.line) :
    Tracks source before s'.classify := by
  obtain ⟨hrest, hline, hcolumn, ds, hds, hblocks, -⟩ := indentTo_spec hindent
  rw [hpending, List.nil_append] at hds
  have hnone : lineTokens s'.line (before ++ s'.pending) = [] := by
    refine List.filter_eq_nil_iff.mpr fun t ht => ?_
    rcases List.mem_append.mp ht with ht | ht
    · have := hfresh t ht
      simp [hline, show t.line ≠ m.line by omega]
    · rcases hblocks t (hds ▸ ht) with hk | hk <;> simp [hk, TokenKind.isBlock]
  have hqueued : Located source [] 0 (before ++ s'.pending) offset :=
    located_indentTo hat hindent (by rwa [hpending, List.append_nil])
  obtain ⟨later, hat', hlocated⟩ := located_classify (hat.congr hrest hline hcolumn) hqueued hnone
  refine ⟨⟨later, hat', hlocated⟩, fun hstart => ?_⟩
  have hmode := (classified_classify s').mode
  rw [hstart] at hmode
  cases hmode

/-- A queued token is returned. -/
theorem pop (h : Tracks source before s) (hpending : s.pending = t :: ts) :
    Tracks source (before ++ [t]) { s with pending := ts } := by
  obtain ⟨offset, hat, hlocated⟩ := h.place
  refine ⟨⟨offset, hat.congr rfl rfl rfl, ?_⟩, fun hstart => ?_⟩
  · rw [hpending] at hlocated
    rwa [List.append_assoc]
  · have hnone := (h.fresh hstart).1
    rw [hpending] at hnone
    cases hnone

theorem again (h : Tracks source before s) (hpending : s.pending = []) (hpass : s.pass = (.again, s')) :
    Tracks source before s' := by
  obtain ⟨offset, hat, hlocated⟩ := h.place
  rw [hpending, List.append_nil] at hlocated
  have hmoved {p : List Char} {m : Lexer} (hp : Along p s m) :
      m.At source (offset + p.length) ∧ Located source [] 0 before (offset + p.length) ∧ m.pending = [] :=
    ⟨hat.along hp, hlocated.mono (Nat.le_refl _) (Nat.le_add_right _ _), hp.pending.trans hpending⟩
  rcases pass_again hpass with ⟨hmode, hopening⟩ | ⟨-, p, -, hp, hmode⟩
  · cases hopening with
    | finish _ hs =>
      subst hs
      exact closeBlocks hat (by rwa [hpending, List.append_nil]) nofun
    | skip hp _ hend _ hs =>
      obtain ⟨hat', hlocated', hpending'⟩ := hmoved hp
      subst hs
      exact tracks_consumeNewline hat' hlocated' hpending' hend _
    | header hp _ hs =>
      obtain ⟨hat', hlocated', hpending'⟩ := hmoved hp
      subst hs
      exact closeBlocks hat' (by rwa [hpending', List.append_nil]) nofun
    | @content p m m' hp hline hindent hs =>
      obtain ⟨hat', hlocated', hpending'⟩ := hmoved hp
      have hne : s.rest ≠ [] := by
        rw [hp.rest]
        exact fun hnil => hline (atLineEnd_nil (List.append_eq_nil_iff.mp hnil).2)
      subst hs
      exact content hat' hlocated' hpending' hindent (hp.line ▸ (h.fresh hmode).2 hne)
  · obtain ⟨hat', hlocated', hpending'⟩ := hmoved hp
    refine ⟨⟨_, hat', by rwa [hpending', List.append_nil]⟩, fun hstart => ?_⟩
    rw [hmode] at hstart
    cases hstart

theorem token (h : Tracks source before s) (hpending : s.pending = []) (hmode : s.mode.inLine = true)
    (hpass : s.pass = (.token t, s')) : Tracks source (before ++ [t]) s' := by
  obtain ⟨offset, hat, hlocated⟩ := h.place
  rw [hpending, List.append_nil] at hlocated
  obtain ⟨p, m, hp, hline, hmakes⟩ := made_of_pass hmode hpass
  have hat := hat.along hp
  have hlocated := hlocated.mono (Nat.le_refl 0) (Nat.le_add_right offset p.length)
  have hpending : m.pending = [] := hp.pending.trans hpending
  cases hline with
  | @mark q _ hq hmode' hkind =>
    have hnewline : t.kind ≠ .newline := by
      intro hnewline
      rw [hnewline] at hkind
      cases hkind
    have hmade := hmakes hnewline
    have hout := hlocated.append (hat.located_token hmade)
    refine ⟨⟨_, hat.along hq, ?_⟩, fun hstart => ?_⟩
    · rw [hq.pending, hpending, List.append_nil]
      exact hout.mono (Nat.le_refl _) (Nat.le_add_right _ _)
    · rw [hstart] at hmode'
      cases hmode'
  | @stop q k hq hend ht hs =>
    have hat := hat.along hq
    have hlocated := hlocated.mono (Nat.le_refl 0) (Nat.le_add_right _ q.length)
    have hstands : k.Makes t := ht ▸ makes_tokenHere trivial
    have hout := hlocated.append (hat.located_token hstands)
    rw [hs]
    exact tracks_consumeNewline hat hout (hq.pending.trans hpending) hend _

end Tracks
end Lexer

/-- What the lexer yields from here, and where it breaks off, stands behind what it has returned. -/
theorem Lexes.located (h : Lexes s out e) (hs : s.Tracks source before) :
    ∃ high, Located source [] 0 (before ++ out) high ∧
      ∀ f ∈ e, ∃ offset, high ≤ offset ∧ Stands source offset f.line f.column := by
  induction h generalizing before with
  | queued hpending _ _ ih =>
    have hpop := ih (hs.pop hpending)
    rwa [List.append_assoc] at hpop
  | again hpending hpass _ ih => exact ih (hs.again hpending hpass)
  | token hpending hpass ht _ ih =>
    have htoken := ih (hs.token hpending (Lexer.inLine_of_pass hpass ht).1 hpass)
    rwa [List.append_assoc] at htoken
  | last hpending hpass ht =>
    obtain ⟨offset, hat, hlocated⟩ := hs.place
    rw [hpending, List.append_nil] at hlocated
    obtain ⟨-, rfl, -⟩ := Lexer.done_of_pass hpass ht
    exact ⟨offset, hlocated.append (hat.located_token (Lexer.makes_tokenHere trivial)), nofun⟩
  | failed hpending hpass =>
    obtain ⟨offset, hat, hlocated⟩ := hs.place
    rw [hpending] at hlocated
    obtain ⟨hline, hcolumn⟩ := Lexer.place_of_pass_failed hpass
    refine ⟨offset, hlocated, fun f hf => ?_⟩
    cases hf
    have hat := hat.along (.skipBlanks _)
    exact ⟨_, Nat.le_add_right _ _, hline ▸ hcolumn ▸ hat.stands⟩

/-- Every token of a source stands at an offset of it, behind the tokens before it, and is what the source reads there;
so does the place where the lexer breaks off. -/
theorem tokens_located (source : String) :
    ∃ high, Located source.toList [] 0 (Lexer.ofText source).tokenize.tokens high ∧
      ∀ e ∈ (Lexer.ofText source).tokenize.error,
        ∃ offset, high ≤ offset ∧ Stands source.toList offset e.line e.column := by
  have hlexes := Lexer.lexes_tokenize (s := .ofText source) nofun
  simpa using hlexes.located (Lexer.tracks_ofText source)
end Run

end Parley
