import Parley.Proofs.Setting
import Parley.Proofs.TextLines

/-! # The tokens of two texts put together

Where the first text ends in a line feed the lexer comes to the second one at the start of a line, with nothing queued
(`Whole`), or it has broken off before. It hands over its open levels and nothing else (`Lexes.extend`), and the first
line of the second text that has content closes them all, if it stands at the margin (`Emits.close`). So the tokens of
both are then those of the first up to the closing of its blocks, as many closings, and those of the second further
down (`Emits.append`). -/

namespace Parley

/-- How many lines are ended in a text. -/
def lineTerminators : List Char → Nat
  | [] => 0
  | '\r' :: '\n' :: rest => lineTerminators rest + 1
  | c :: rest => lineTerminators rest + if isLineEnd c then 1 else 0

theorem lineTerminators_cons {c : Char} {rest : List Char} (hno : c = '\r' → rest.head? ≠ some '\n') :
    lineTerminators (c :: rest) = lineTerminators rest + if isLineEnd c then 1 else 0 := by
  rw [lineTerminators]
  rintro more rfl rfl
  exact hno rfl rfl

theorem lineTerminators_plain {p rest : List Char} (hp : ∀ c ∈ p, isLineEnd c = false) :
    lineTerminators (p ++ rest) = lineTerminators rest := by
  induction p with
  | nil => rfl
  | cons c p ih =>
    obtain ⟨hc, hp⟩ := List.forall_mem_cons.1 hp
    have hno : c ≠ '\r' := by
      rintro rfl
      cases hc
    rw [List.cons_append, lineTerminators_cons (absurd · hno), hc, ih hp]
    rfl

theorem lineTerminators_pos {cs : List Char} (h : '\n' ∈ cs) : 0 < lineTerminators cs := by
  fun_induction lineTerminators cs with
  | case1 => cases h
  | case2 => exact Nat.succ_pos _
  | case3 c rest _ ih =>
    rcases List.mem_cons.mp h with rfl | h
    · exact Nat.succ_pos _
    · exact Nat.lt_of_lt_of_le (ih h) (Nat.le_add_right _ _)

namespace Lexer
variable {s s' m : Lexer} {t : Token} {n : Nat} {a b : Bool} {out : List Token}

/-- The end of a line is taken as a whole. -/
theorem consumeNewline_spec (hend : m.AtLineEnd) (hne : m.rest ≠ []) :
    ∃ e, m.rest = e ++ m.consumeNewline.rest ∧ m.consumeNewline.line = m.line + 1 ∧ m.consumeNewline.column = 1 ∧
      lineTerminators m.rest = lineTerminators m.consumeNewline.rest + 1 := by
  obtain ⟨c, tail, hrest⟩ := List.exists_cons_of_ne_nil hne
  have hc : isLineEnd c = true := hend c (by simp [hrest])
  by_cases hcrlf : c = '\r' ∧ tail.head? = some '\n'
  · obtain ⟨rfl, hhead⟩ := hcrlf
    obtain ⟨tail, rfl⟩ := List.head?_eq_some_iff.mp hhead
    refine ⟨['\r', '\n'], ?_, ?_, ?_, ?_⟩ <;> simp [consumeNewline, hrest, lineTerminators]
  · have hno : c = '\r' → tail.head? ≠ some '\n' := fun hc hhead => hcrlf ⟨hc, hhead⟩
    have hcount : lineTerminators (c :: tail) = lineTerminators tail + 1 := by
      rw [lineTerminators_cons hno, if_pos hc]
    rw [consumeNewline_cons hrest hno, if_pos hc]
    exact ⟨[c], by simp [hrest], rfl, rfl, by rw [hrest, hcount]⟩

end Lexer

/-- The lexer yields the same further down. -/
theorem Lexes.down {s : Lexer} {out : List Token} {e : Option LexError} (h : Lexes s out e) (n : Nat) {a b : Bool}
    (hab : Lexer.Fits a b s) : Lexes (s.within n [] a b) (out.map (Token.down n)) (e.map (LexError.down n)) := by
  induction h generalizing a b with
  | @queued s t ts out e hpending ht _ ih =>
    exact .queued (by simp [Lexer.within, hpending]) ht (ih hab)
  | again hpending hpass _ ih =>
    obtain ⟨a', b', hfits, hpass⟩ := Lexer.pass_again_within (n := n) (.inl rfl) hab hpass
    exact .again (by simp [Lexer.within, hpending]) hpass (ih hfits)
  | token hpending hpass ht _ ih =>
    obtain ⟨a', b', hfits, hpass⟩ := Lexer.pass_token_within (n := n) (.inl rfl) hab hpass
    exact .token (by simp [Lexer.within, hpending]) hpass ht (ih hfits)
  | last hpending hpass ht =>
    obtain ⟨a', b', -, hpass⟩ := Lexer.pass_token_within (n := n) (.inl rfl) hab hpass
    exact .last (by simp [Lexer.within, hpending]) hpass ht
  | failed hpending hpass =>
    obtain ⟨m, hpass⟩ := Lexer.pass_failed_within (n := n) (a := a) (b := b) (.inl rfl) hpass
    exact .failed (by simp [Lexer.within, hpending]) hpass

namespace Lexer

/-- The lexer is at the end of a text whose last line is ended. -/
structure AtEnd (s : Lexer) : Prop where
  rest : s.rest = []
  mode : s.mode = .lineStart
  column : s.column = 1
  pending : s.pending = []

/-- The text that is left ends its last line, and every open level is indented. -/
structure Whole (s : Lexer) : Prop where
  last : s.AtEnd ∨ s.rest.getLast? = some '\n' ∧ s.mode ≠ .done
  levels : ∀ level ∈ s.levels, 0 < level

section Whole
variable {s s' m : Lexer} {t : Token} {p : List Char}

theorem last_of_along (h : Along p s m) (hlast : s.rest.getLast? = some '\n') : m.rest.getLast? = some '\n' := by
  have hbounded : Bounded ['\n'] s.rest := .inr hlast
  rw [h.rest] at hbounded
  exact (hbounded.of_append h.plain).resolve_left (by simp)

theorem levels_indentTo {indent : Nat} (hs : ∀ level ∈ s.levels, 0 < level) (h : s.indentTo indent = (none, s')) :
    ∀ level ∈ s'.levels, 0 < level := by
  unfold indentTo at h
  dsimp only at h
  split at h
  · next hdeeper =>
    cases h
    simpa using ⟨Nat.lt_of_le_of_lt (Nat.zero_le _) hdeeper, hs⟩
  · split at h
    · cases h
      exact fun level hlevel => hs level ((List.dropWhile_suffix _).subset hlevel)
    · cases h

/-- After the end of a line the text is over or goes on. -/
theorem Whole.of_newline (hend : m.AtLineEnd) (hlast : m.rest.getLast? = some '\n') (hpending : m.pending = [])
    (hlevels : ∀ level ∈ m.levels, 0 < level) {k : Lexer} (hk : k = { m.consumeNewline with mode := .lineStart }) :
    k.Whole ∧ k.line + lineTerminators k.rest = m.line + lineTerminators m.rest := by
  have hne : m.rest ≠ [] := by
    rintro hnil
    simp [hnil] at hlast
  obtain ⟨e, hrest, hline, hcolumn, hcount⟩ := consumeNewline_spec hend hne
  obtain ⟨hl, hp, -⟩ := consumeNewline_eq m
  subst hk
  refine ⟨⟨?_, by simpa [hl] using hlevels⟩, by simp only [hline, hcount]; omega⟩
  by_cases hnil : m.consumeNewline.rest = []
  · exact .inl ⟨hnil, rfl, hcolumn, hp.trans hpending⟩
  · refine .inr ⟨?_, by simp⟩
    obtain ⟨c, tail, hcons⟩ := List.exists_cons_of_ne_nil hnil
    rw [hrest, hcons] at hlast
    simpa [hcons, List.getLast?_append, List.getLast?_cons] using hlast

theorem Whole.inLine (hs : s.Whole) (hne : ¬ s.AtEnd) (hpending : s.pending = []) (h : InLine s t s') :
    s'.Whole ∧ s'.line + lineTerminators s'.rest = s.line + lineTerminators s.rest := by
  obtain ⟨hlast, -⟩ := hs.last.resolve_left hne
  cases h with
  | @mark p hp h hmode _ =>
    refine ⟨⟨.inr ⟨last_of_along h hlast, ?_⟩, by simpa [h.levels] using hs.levels⟩, ?_⟩
    · rintro hdone
      rw [hdone] at hmode
      cases hmode
    · rw [h.line, h.rest, lineTerminators_plain h.plain]
  | @stop p m h hend _ hs' =>
    obtain ⟨hwhole, hcount⟩ := Whole.of_newline hend (last_of_along h hlast) (h.pending.trans hpending)
      (by simpa [h.levels] using hs.levels) (k := s') hs'
    exact ⟨hwhole, by rw [hcount, h.line, h.rest, lineTerminators_plain h.plain]⟩

theorem Whole.opening (hs : s.Whole) (hne : ¬ s.AtEnd) (hmode : s.mode = .lineStart) (hpending : s.pending = [])
    (h : Opening s s') : s'.Whole ∧ s'.line + lineTerminators s'.rest = s.line + lineTerminators s.rest := by
  obtain ⟨hlast, -⟩ := hs.last.resolve_left hne
  cases h with
  | finish hrest _ => simp [hrest] at hlast
  | @skip p m h hm hend _ hs' =>
    have hsame := hs'.trans (consumeNewline_lineStart (hm.trans hmode))
    obtain ⟨hwhole, hcount⟩ := Whole.of_newline hend (last_of_along h hlast) (h.pending.trans hpending)
      (by simpa [h.levels] using hs.levels) (k := s') hsame
    exact ⟨hwhole, by rw [hcount, h.line, h.rest, lineTerminators_plain h.plain]⟩
  | @header p m h _ hs' =>
    subst hs'
    have hm : m.rest.getLast? = some '\n' := last_of_along h hlast
    refine ⟨⟨.inr ⟨hm, by simp⟩, by simp [closeBlocks]⟩, ?_⟩
    show m.line + lineTerminators m.rest = _
    rw [h.line, h.rest, lineTerminators_plain h.plain]
  | @content p m m' h _ hindent hs' =>
    obtain ⟨hrest, hline, -, -⟩ := indentTo_spec hindent
    obtain ⟨hinline, ts, q, hq, -⟩ := classified_classify m'
    have hm' : m'.rest.getLast? = some '\n' := hrest ▸ last_of_along h hlast
    subst hs'
    refine ⟨⟨.inr ⟨last_of_along hq hm', ?_⟩, ?_⟩, ?_⟩
    · rintro hdone
      rw [hdone] at hinline
      cases hinline
    · have hlevels : m'.classify.levels = m'.levels := hq.levels
      rw [hlevels]
      exact levels_indentTo (by simpa [h.levels] using hs.levels) hindent
    · have hcount : lineTerminators m'.rest = lineTerminators m'.classify.rest := by
        have : m'.rest = q ++ m'.classify.rest := hq.rest
        rw [this, lineTerminators_plain hq.plain]
      have hline' : m'.classify.line = m'.line := hq.line
      rw [hline', ← hcount, hline, hrest, h.line, h.rest, lineTerminators_plain h.plain]

theorem Whole.again (hs : s.Whole) (hne : ¬ s.AtEnd) (hpending : s.pending = []) (h : s.pass = (.again, s')) :
    s'.Whole ∧ s'.line + lineTerminators s'.rest = s.line + lineTerminators s.rest := by
  obtain ⟨hlast, -⟩ := hs.last.resolve_left hne
  rcases pass_again h with ⟨hstart, hopening⟩ | ⟨-, p, -, halong, htext⟩
  · exact hs.opening hne hstart hpending hopening
  · refine ⟨⟨.inr ⟨last_of_along halong hlast, by simp [htext]⟩, by simpa [halong.levels] using hs.levels⟩, ?_⟩
    rw [halong.line, halong.rest, lineTerminators_plain halong.plain]

/-- There is a line left to be ended. -/
theorem lt_lines (hlast : s.rest.getLast? = some '\n') {line : Int} (hline : line ≤ s.line) :
    line < s.line + lineTerminators s.rest := by
  have := lineTerminators_pos (List.mem_of_getLast? hlast)
  omega

end Whole
end Lexer

section Joined
variable {s s' : Lexer} {out : List Token} {e : Option LexError}

/-- What the lexer comes to at the end of its text. -/
structure Lexer.Reaches (s last : Lexer) : Prop where
  atEnd : last.AtEnd
  line : last.line = s.line + lineTerminators s.rest
  levels : ∀ level ∈ last.levels, 0 < level

/-- The blocks that are still open are closed with the text. -/
def Lexer.closings (s : Lexer) : List Token := List.replicate s.levels.length (s.tokenHere .dedent "")

/-- Once the text is over only what is queued is left. -/
theorem Lexes.finish (h : Lexes s out e) (hmode : s.mode = .done) :
    out = s.pending ++ [s.tokenHere .eof ""] ∧ e = none := by
  induction h with
  | @queued s t ts out e hpending _ _ ih =>
    obtain ⟨rfl, rfl⟩ := ih hmode
    rw [hpending]
    exact ⟨rfl, rfl⟩
  | again hpending hpass _ _ => simp [Lexer.pass, hmode] at hpass
  | @token s s' t out e hpending hpass ht _ _ =>
    simp only [Lexer.pass, hmode, Prod.mk.injEq, Lexer.Pass.token.injEq] at hpass
    rw [← hpass.1] at ht
    cases ht
  | @last s s' t hpending hpass _ =>
    simp only [Lexer.pass, hmode, Prod.mk.injEq, Lexer.Pass.token.injEq] at hpass
    rw [hpending, hpass.1]
    exact ⟨rfl, rfl⟩
  | failed hpending hpass => simp [Lexer.pass, hmode] at hpass

/-- At the end of the text the open blocks are closed, and that is all. -/
theorem Lexer.lexes_atEnd {s : Lexer} (hrest : s.rest = []) (hmode : s.mode = .lineStart) (hpending : s.pending = []) :
    Lexes s (s.closings ++ [s.tokenHere .eof ""]) none := by
  have hpass : s.pass = (.again, { s.closeBlocks with mode := .done }) :=
    Lexer.Ran.pass (.opened hmode (Lexer.startLine_nil hrest))
  have hqueue : s.closeBlocks.pending = s.closings := by simp [closeBlocks, queue, hpending, closings]
  have hdone : Lexes { s.closeBlocks with mode := .done } _ _ := Lexer.lexes_tokenize fun t ht => by
    have ht : t ∈ s.closings := hqueue ▸ ht
    rw [List.eq_of_mem_replicate ht]
    rfl
  obtain ⟨hout, he⟩ := hdone.finish rfl
  rw [hout, he] at hdone
  exact .again hpending hpass (hqueue ▸ hdone)

/-- What becomes of the tokens of a text once there is more text behind it. -/
inductive Extended (s : Lexer) : List Token → Option LexError → Prop
  /-- The lexer breaks off on a line of its own text, whatever comes behind it. -/
  | broken {out : List Token} {f : LexError} (hout : ∀ t ∈ out, t.line < s.line + lineTerminators s.rest)
      (hline : f.line < s.line + lineTerminators s.rest)
      (hmore : ∀ x a b, Lexer.Fits a b s → Lexes (s.within 0 x a b) out (some f)) : Extended s out (some f)
  /-- On the lines of its own text it yields the same tokens, and then those that the rest yields below the open
  levels. -/
  | reached {last : Lexer} {inner : List Token} (hlast : s.Reaches last)
      (hinner : ∀ t ∈ inner, t.line < s.line + lineTerminators s.rest)
      (hmore : ∀ x a b, Lexer.Fits a b s → ∃ a' b', ∀ more e, Lexes (last.within 0 x a' b') more e →
        Lexes (s.within 0 x a b) (inner ++ more) e) :
      Extended s (inner ++ (last.closings ++ [last.tokenHere .eof ""])) none

/-- One step on, what the rest of the text comes to this text comes to. -/
theorem Extended.step (h : Extended s' out e) (new : List Token)
    (hcount : s'.line + lineTerminators s'.rest = s.line + lineTerminators s.rest)
    (hnew : ∀ t ∈ new, t.line < s.line + lineTerminators s.rest)
    (hstep : ∀ x a b, Lexer.Fits a b s → ∃ a' b', Lexer.Fits a' b' s' ∧
      ∀ more e, Lexes (s'.within 0 x a' b') more e → Lexes (s.within 0 x a b) (new ++ more) e) :
    Extended s (new ++ out) e := by
  cases h with
  | broken hout hline hmore =>
    refine .broken (fun t ht => ?_) (by omega) fun x a b hab => ?_
    · rcases List.mem_append.mp ht with ht | ht
      · exact hnew t ht
      · rw [← Int.natCast_add, ← hcount]
        exact hout t ht
    · obtain ⟨a', b', hfits, hyields⟩ := hstep x a b hab
      exact hyields _ _ (hmore x a' b' hfits)
  | @reached last inner hlast hinner hmore =>
    rw [← List.append_assoc]
    refine .reached ⟨hlast.atEnd, hlast.line.trans hcount, hlast.levels⟩ (fun t ht => ?_) fun x a b hab => ?_
    · rcases List.mem_append.mp ht with ht | ht
      · exact hnew t ht
      · rw [← Int.natCast_add, ← hcount]
        exact hinner t ht
    · obtain ⟨a', b', hfits, hyields⟩ := hstep x a b hab
      obtain ⟨a'', b'', hseam⟩ := hmore x a' b' hfits
      refine ⟨a'', b'', fun more e h => ?_⟩
      rw [List.append_assoc]
      exact hyields _ _ (hseam more e h)

/-- Every text whose last line is ended can have more text behind it. -/
theorem Lexes.extend (h : Lexes s out e) (hs : s.Whole) (hqueued : ∀ t ∈ s.pending, t.line ≤ s.line) :
    Extended s out e := by
  induction h with
  | @queued s t ts out e hpending ht _ ih =>
    have hne : ¬ s.AtEnd := fun hend => by simp [hend.pending] at hpending
    obtain ⟨hlast, hmode⟩ := hs.last.resolve_left hne
    rw [hpending] at hqueued
    have hrest := ih ⟨.inr ⟨hlast, hmode⟩, hs.levels⟩ fun u hu => hqueued u (List.mem_cons_of_mem t hu)
    refine hrest.step [t] rfl (by simpa using Lexer.lt_lines hlast (hqueued t (by simp))) fun x a b hab => ?_
    exact ⟨a, b, hab, fun more e h => .queued (by simp [Lexer.within, hpending]) ht h⟩
  | @again s s' out e hpending hpass h ih =>
    by_cases hend : s.AtEnd
    · obtain ⟨rfl, rfl⟩ := (Lexes.again hpending hpass h).unique (Lexer.lexes_atEnd hend.rest hend.mode hpending)
      exact .reached ⟨hend, by simp [hend.rest, lineTerminators], hs.levels⟩ (List.forall_mem_nil _)
        fun x a b _ => ⟨a, b, fun _ _ => id⟩
    · obtain ⟨hlast, -⟩ := hs.last.resolve_left hend
      obtain ⟨hwhole, hcount⟩ := hs.again hend hpending hpass
      obtain ⟨hline, hlines⟩ := Lexer.line_pass_again hpending hpass
      have hrest := ih hwhole fun t ht => by rw [hlines t ht]; exact_mod_cast hline
      refine hrest.step [] hcount (by simp) fun x a b hab => ?_
      obtain ⟨a', b', hfits, hpass⟩ := Lexer.pass_again_within (n := 0) (x := x) (.inr hlast) hab hpass
      exact ⟨a', b', hfits, fun more e h => .again (by simp [Lexer.within, hpending]) hpass h⟩
  | @token s s' t out e hpending hpass ht _ ih =>
    obtain ⟨hmode, hline⟩ := Lexer.inLine_of_pass hpass ht
    have hend : ¬ s.AtEnd := fun hend => by simp [hend.mode, Mode.inLine] at hmode
    obtain ⟨hwhole, hcount⟩ := hs.inLine hend hpending hline
    obtain ⟨hlast, -⟩ := hs.last.resolve_left hend
    have hrest := ih hwhole (by simp [hline.pending, hpending])
    have hnew := Lexer.lt_lines hlast (Int.le_of_eq (Lexer.line_pass_token hpass))
    refine hrest.step [t] hcount (by simpa using hnew) fun x a b hab => ?_
    obtain ⟨a', b', hfits, hpass⟩ := Lexer.pass_token_within (n := 0) (x := x) (.inr hlast) hab hpass
    rw [Token.down_zero] at hpass
    exact ⟨a', b', hfits, fun more e h => .token (by simp [Lexer.within, hpending]) hpass ht h⟩
  | @last s s' t hpending hpass ht =>
    obtain ⟨hdone, -⟩ := Lexer.done_of_pass hpass ht
    rcases hs.last with hend | ⟨-, hne⟩
    · rw [hend.mode] at hdone
      cases hdone
    · exact absurd hdone hne
  | @failed s s' f hpending hpass =>
    have hend : ¬ s.AtEnd := fun hend => by
      rw [Lexer.Ran.pass (.opened hend.mode (Lexer.startLine_nil hend.rest))] at hpass
      cases hpass
    obtain ⟨hlast, -⟩ := hs.last.resolve_left hend
    have hline := Lexer.lt_lines hlast (Int.ofNat_le.mpr (Lexer.line_pass_failed hpass).le)
    refine .broken (by simp) (by exact_mod_cast hline) fun x a b _ => ?_
    obtain ⟨m, hpass⟩ := Lexer.pass_failed_within (n := 0) (x := x) (a := a) (b := b) (.inr hlast) hpass
    exact .failed (by simp [Lexer.within, hpending]) hpass

end Joined

/-- The token closes a block. -/
structure Token.Closes (t : Token) : Prop where
  kind : t.kind = .dedent
  value : t.value = ""

namespace Lexer

/-- The lexer with tokens queued before its own. -/
def after (ds : List Token) (s : Lexer) : Lexer := { s with pending := ds ++ s.pending }

/-- The lexer with these levels open. -/
def below (levels : List Nat) (s : Lexer) : Lexer := { s with levels := levels }

section Below
variable {s s' : Lexer} {levels : List Nat} {ds : List Token}

theorem classify_after : (s.after ds).classify = s.classify.after ds := by
  have hqueue (ts : List Token) : (s.after ds).queue ts = (s.queue ts).after ds := by simp [after, queue]
  have hword : (s.after ds).opensStatement = s.opensStatement := rfl
  have hspeaker : (s.after ds).queueSpeaker = s.queueSpeaker.after ds := by
    have htokens (head : SpeakerHead) (name : List Char) :
        (s.after ds).speakerTokens head name = s.speakerTokens head name :=
      rfl
    have hrest : (s.after ds).rest = s.rest := rfl
    unfold queueSpeaker
    rw [hrest]
    split
    · rfl
    · dsimp only
      rw [htokens, hqueue, apply_ite (after ds)]
      rfl
  unfold classify
  dsimp only
  rw [hword, hspeaker, hqueue]
  simp only [apply_ite (after ds)]
  rfl

theorem consumeNewline_below : (s.below levels).consumeNewline = s.consumeNewline.below levels := by
  unfold consumeNewline
  have hrest : (s.below levels).rest = s.rest := rfl
  rw [hrest]
  split
  · rfl
  · split <;> rfl
  · rfl

/-- A line at the margin below no block opens and closes none. -/
theorem indentTo_margin (hlevels : s.levels = []) : s.indentTo 0 = (none, s) := by
  obtain ⟨rest, line, column, levels, pending, mode, inChoice, textStart⟩ := s
  obtain rfl : levels = [] := hlevels
  simp [indentTo, queue]

/-- A line deeper than the margin opens a block; a line at the margin closes the open levels before anything else. -/
theorem openContent_below {indent : Nat} (hlevels : s.levels = []) (hpending : s.pending = [])
    (hpos : ∀ level ∈ levels, 0 < level) (h : s.openContent indent = (none, s')) :
    (∃ t ts, s'.pending = t :: ts ∧ t.kind = .indent) ∨ (s.below levels).openContent indent =
      (none, s'.after (List.replicate levels.length (s.tokenHere .dedent ""))) := by
  by_cases hindent : 0 < indent
  · have hdeeper : s.indentTo indent =
        (none, { s.queue [s.tokenHere .indent ""] with levels := indent :: s.levels }) := by
      simp [indentTo, hlevels, hindent]
    unfold openContent at h
    rw [hdeeper] at h
    cases h
    generalize hk : ({ s.queue [s.tokenHere .indent ""] with levels := indent :: s.levels } : Lexer) = k
    obtain ⟨-, ts, q, hq, -⟩ := classified_classify k
    refine .inl ⟨s.tokenHere .indent "", ts, ?_, rfl⟩
    rw [hq.pending, ← hk]
    simp [queue, hpending]
  · obtain rfl : indent = 0 := by omega
    have hall : (s.below levels).indentTo 0 =
        (none, s.after (List.replicate levels.length (s.tokenHere .dedent ""))) := by
      have hkept : levels.dropWhile (fun level => decide (0 < level)) = [] := by
        simpa [List.dropWhile_eq_nil_iff] using hpos
      obtain ⟨rest, line, column, slevels, pending, mode, inChoice, textStart⟩ := s
      obtain rfl : slevels = [] := hlevels
      obtain rfl : pending = [] := hpending
      simp [indentTo, below, Lexer.after, queue, hkept, tokenHere]
    unfold openContent at h ⊢
    rw [indentTo_margin hlevels] at h
    cases h
    rw [hall]
    exact .inr (congrArg _ classify_after)

/-- What the start of a line does below open levels: a line without content is passed over; a line at the margin, and
the end of the text, close them all before anything else. -/
theorem startLine_below (hlevels : s.levels = []) (hpending : s.pending = []) (hpos : ∀ level ∈ levels, 0 < level)
    (h : s.startLine = (none, s')) :
    (s'.mode = s.mode ∧ s'.levels = [] ∧ s'.pending = [] ∧ (s.below levels).startLine = (none, s'.below levels)) ∨
      (∃ t ts, s'.pending = t :: ts ∧ t.kind = .indent) ∨
        ∃ ds, ds.length = levels.length ∧ (∀ t ∈ ds, t.Closes) ∧
          (s.below levels).startLine = (none, s'.after ds) := by
  have hdedents (m : Lexer) : ∀ t ∈ List.replicate levels.length (m.tokenHere .dedent ""), t.Closes :=
    fun t ht => by rw [List.eq_of_mem_replicate ht]; exact ⟨rfl, rfl⟩
  -- closing every level below which the line stands
  have hclose (m : Lexer) (hm : m.levels = []) (hp : m.pending = []) :
      (m.below levels).closeBlocks = m.closeBlocks.after (List.replicate levels.length (m.tokenHere .dedent "")) := by
    simp [closeBlocks, queue, Lexer.after, below, hm, hp, tokenHere]
  have hpassed (m : Lexer) (hmode : m.mode = s.mode) (hm : m.levels = []) (hp : m.pending = []) :
      m.consumeNewline.mode = s.mode ∧ m.consumeNewline.levels = [] ∧ m.consumeNewline.pending = [] := by
    obtain ⟨hlevels, hpending, hmode'⟩ := consumeNewline_eq m
    exact ⟨hmode'.trans hmode, hlevels.trans hm, hpending.trans hp⟩
  by_cases hnil : s.rest = []
  · rw [startLine_nil hnil] at h
    cases h
    refine .inr (.inr ⟨_, List.length_replicate, hdedents s, ?_⟩)
    rw [startLine_nil (s := s.below levels) hnil, hclose s hlevels hpending]
    rfl
  have hblanks : (s.below levels).skipBlanks = s.skipBlanks.below levels := rfl
  have hrest (m : Lexer) : (m.below levels).rest = m.rest := rfl
  have hmode : s.skipBlanks.mode = s.mode := rfl
  have hlevels : s.skipBlanks.levels = [] := hlevels
  have hpending : s.skipBlanks.pending = [] := hpending
  rw [startLine_eq hnil] at h
  rw [startLine_eq (s := s.below levels) hnil, hblanks, hrest, hrest]
  generalize (s.rest.takeWhile isBlank).length = indent at *
  generalize s.skipBlanks = m at *
  cases hhead : lineHead m.rest with
  | nothing =>
    rw [hhead] at h
    cases h
    obtain ⟨hm, hl, hp⟩ := hpassed m hmode hlevels hpending
    exact .inl ⟨hm, hl, hp, congrArg (Prod.mk none) consumeNewline_below⟩
  | comment =>
    rw [hhead] at h
    cases h
    obtain ⟨hm, hl, hp⟩ := hpassed (m.advance (lineLength m.rest)) hmode hlevels hpending
    have hover : (m.below levels).advance (lineLength (m.below levels).rest) =
        (m.advance (lineLength m.rest)).below levels := rfl
    refine .inl ⟨hm, hl, hp, ?_⟩
    unfold openLine
    dsimp only
    rw [hover, consumeNewline_below]
  | header =>
    rw [hhead] at h
    cases h
    refine .inr (.inr ⟨_, List.length_replicate, hdedents m, ?_⟩)
    unfold openLine
    dsimp only
    rw [hclose m hlevels hpending]
    rfl
  | content =>
    rw [hhead] at h
    rcases openContent_below hlevels hpending hpos h with hindent | hbelow
    · exact .inr (.inl hindent)
    · exact .inr (.inr ⟨_, List.length_replicate, hdedents m, hbelow⟩)

end Below
end Lexer

section Joined
variable {s : Lexer} {out : List Token}

theorem Emits.after (h : Emits s out) {ds : List Token} (hds : ∀ t ∈ ds, t.isEof = false) :
    Emits (s.after ds) (ds ++ out) := by
  induction ds with
  | nil => exact h
  | cons t ds ih =>
    simp only [List.mem_cons, forall_eq_or_imp] at hds
    exact .queued rfl hds.1 (ih hds.2)

/-- A text that does not open with an indented line closes the levels above it, and goes on as if there were none. -/
theorem Emits.close (h : Emits s out) (hmode : s.mode = .lineStart) (hlevels : s.levels = []) (hpending : s.pending = [])
    (hfirst : (Reading.peek out).kind ≠ .indent) {levels : List Nat} (hpos : ∀ level ∈ levels, 0 < level) :
    ∃ ds, ds.length = levels.length ∧ (∀ t ∈ ds, t.Closes) ∧ Emits (s.below levels) (ds ++ out) := by
  induction h with
  | queued hqueue _ _ _ =>
    rw [hpending] at hqueue
    cases hqueue
  | token _ hpass _ _ _ | last _ hpass _ =>
    rcases Lexer.pass_token hpass with ⟨hline, -⟩ | ⟨hdone, -⟩
    · rw [hmode] at hline
      cases hline
    · rw [hmode] at hdone
      cases hdone
  | @again s s' out _ hpass h ih =>
    have hstart : s.startLine = (none, s') := by
      cases Lexer.ran_of_pass hpass with
      | opened _ hscan => exact hscan
      | dropped htext =>
        rw [hmode] at htext
        cases htext
    have hbelow (k : Lexer) (hk : (s.below levels).startLine = (none, k)) : (s.below levels).pass = (.again, k) :=
      Lexer.Ran.pass (.opened hmode hk)
    rcases Lexer.startLine_below hlevels hpending hpos hstart with
      ⟨hmode', hlevels', hpending', hskip⟩ | ⟨t, ts, hqueue, hindent⟩ | ⟨ds, hlength, hdedents, hclose⟩
    · obtain ⟨ds, hlength, hdedents, hemits⟩ := ih (hmode'.trans hmode) hlevels' hpending' hfirst
      exact ⟨ds, hlength, hdedents, .again hpending (hbelow _ hskip) hemits⟩
    · exfalso
      cases h with
      | queued hq _ _ =>
        rw [hqueue] at hq
        cases hq
        exact hfirst hindent
      | again hq _ _ | token hq _ _ _ | last hq _ _ => simp [hqueue] at hq
    · refine ⟨ds, hlength, hdedents, .again hpending (hbelow _ hclose) (h.after fun t ht => ?_)⟩
      simp [Token.isEof, (hdedents t ht).kind]

/-- The tokens of two texts, the first of which ends its last line. -/
theorem Emits.append {first second : String} {out' : List Token} (hend : first = "" ∨ first.toList.getLast? = some '\n')
    (h : Emits (.ofText first) out) (h' : Emits (.ofText second) out') (hfirst : (Reading.peek out').kind ≠ .indent) :
    ∃ inner closings closings' eof, out = inner ++ (closings ++ [eof]) ∧ eof.kind = .eof ∧
      closings.length = closings'.length ∧ (∀ t ∈ closings ++ closings', t.Closes) ∧
      Emits (.ofText (first ++ second)) (inner ++ (closings' ++ out'.map (Token.down (lineTerminators first.toList)))) := by
  have hwhole : (Lexer.ofText first).Whole := by
    refine ⟨?_, nofun⟩
    rcases hend with rfl | hlast
    · exact .inl ⟨rfl, rfl, rfl, rfl⟩
    · exact .inr ⟨hlast, nofun⟩
  obtain ⟨last, inner, hlast, rfl, hmore⟩ : ∃ last inner, (Lexer.ofText first).Reaches last ∧
      out = inner ++ (last.closings ++ [last.tokenHere .eof ""]) ∧
      ∀ x a b, Lexer.Fits a b (.ofText first) → ∃ a' b', ∀ more e, Lexes (last.within 0 x a' b') more e →
        Lexes ((Lexer.ofText first).within 0 x a b) (inner ++ more) e := by
    cases (emits_iff_lexes.mp h).extend hwhole nofun with
    | reached hlast _ hmore => exact ⟨_, _, hlast, rfl, hmore⟩
  have hpeek : (Reading.peek (out'.map (Token.down (lineTerminators first.toList)))).kind ≠ .indent := by
    cases out' with
    | nil => exact hfirst
    | cons t ts => exact hfirst
  obtain ⟨a, b, hseam⟩ := hmore second.toList false false (.inl ⟨rfl, rfl⟩)
  -- the second text starts at the margin, below the levels the first one leaves open
  have hdown := emits_iff_lexes.mpr ((emits_iff_lexes.mp h').down (lineTerminators first.toList) (a := a) (b := b)
    (.inr (by simp [Lexer.ofText])))
  obtain ⟨closings', hlength, hdedents, hemits⟩ := hdown.close rfl rfl rfl hpeek hlast.levels
  have hsame : ((Lexer.ofText second).within (lineTerminators first.toList) [] a b).below last.levels =
      last.within 0 second.toList a b := by
    simp [Lexer.ofText, Lexer.within, Lexer.below, hlast.line, hlast.atEnd.rest, hlast.atEnd.mode, hlast.atEnd.column,
      hlast.atEnd.pending]
  rw [hsame] at hemits
  have hstart : (Lexer.ofText first).within 0 second.toList false false = .ofText (first ++ second) := by
    simp [Lexer.ofText, Lexer.within]
  refine ⟨inner, last.closings, closings', last.tokenHere .eof "", rfl, rfl, ?_, ?_,
    emits_iff_lexes.mpr (hstart ▸ hseam _ _ (emits_iff_lexes.mp hemits))⟩
  · simp [Lexer.closings, hlength]
  · intro t ht
    rcases List.mem_append.mp ht with ht | ht
    · rw [List.eq_of_mem_replicate ht]
      exact ⟨rfl, rfl⟩
    · exact hdedents t ht

end Joined
end Parley
