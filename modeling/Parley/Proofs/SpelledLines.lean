import Parley.Proofs.RoundTrip
import Parley.Proofs.Spelling

/-! # Lines are read as they are spelled

`Consumes` is said of the parts of the parser: in front of some tokens a part takes exactly these, whatever was noted
before, and notes nothing itself. It is carried from part to part by one lemma for each way to look at a token. A line
that is spelled out is consumed, and what is answered has the shape of what was written. -/

namespace Parley

/-- A phrase opens with no sign of assignment. -/
theorem Derives.opens_ne_assign {p : Phrase} {ts : List Token} {e : Expr} (h : Derives p ts e) :
    ∃ t us, ts = t :: us ∧ t.kind ≠ .assign := by
  obtain ⟨t, us, rfl, -⟩ := h.opens
  refine ⟨t, us, rfl, fun heq => ?_⟩
  have hkind := h.inExpression t (by simp)
  rw [heq] at hkind
  cases hkind

/-- A phrase stays on its line. -/
theorem Derives.inLine {p : Phrase} {ts : List Token} {e : Expr} (h : Derives p ts e) :
    ∀ t ∈ ts, t.kind ≠ .newline ∧ t.kind ≠ .eof := by
  intro t ht
  have hkind := h.inExpression t ht
  constructor <;> intro heq <;> rw [heq] at hkind <;> cases hkind

namespace SpelledText
variable {text : List Segment} {us : List Token}

theorem inLine (h : SpelledText text us) : ∀ t ∈ us, t.kind ≠ .newline ∧ t.kind ≠ .eof := by
  induction h with
  | nil => simp
  | literal ht _ ih => simpa [ht] using ih
  | hole hopening he hclosing _ ih =>
    obtain ⟨made, hmade, -⟩ := he
    intro t ht
    simp only [List.mem_cons, List.mem_append] at ht
    rcases ht with rfl | ht | rfl | ht
    · simp [hopening]
    · exact hmade.inLine t ht
    · simp [hclosing]
    · exact ih t ht

end SpelledText

/-- Behind a speaker there comes text, a tag or the end of the line. -/
theorem SpelledBody.opens {text : List Segment} {tags : List String} {ts : List Token} (h : SpelledBody text tags ts) :
    ∃ t us, ts = t :: us ∧ t.kind ∈ [TokenKind.text, .leftBrace, .hash, .newline] := by
  obtain ⟨htext, htags, hend⟩ := h
  cases htext with
  | nil =>
    cases htags with
    | nil => exact ⟨_, _, rfl, by simp [hend]⟩
    | cons hhash _ _ => exact ⟨_, _, rfl, by simp [hhash]⟩
  | literal ht _ => exact ⟨_, _, rfl, by simp [ht]⟩
  | hole hopening _ _ _ => exact ⟨_, _, rfl, by simp [hopening]⟩

/-- Text that is not blank opens with a brace, or with a literal that no speaker's mark follows. -/
theorem SpelledBody.opens_text {text : List Segment} {tags : List String} {ts : List Token} (h : SpelledBody text tags ts)
    (hblank : isBlankText text = false) : ∃ t us, ts = t :: us ∧ (t.kind = .leftBrace ∨
      t.kind = .text ∧ ∃ u vs, us = u :: vs ∧ u.kind ∈ [TokenKind.text, .leftBrace, .hash, .newline]) := by
  obtain ⟨htext, htags, hend⟩ := h
  cases htext with
  | nil => cases hblank
  | literal ht hmore => exact ⟨_, _, rfl, .inr ⟨ht, (SpelledBody.mk hmore htags hend).opens⟩⟩
  | hole hopening _ _ _ => exact ⟨_, _, rfl, .inl hopening⟩

theorem Speech.Spelled.opens {speech : Speech} {ts : List Token} (h : speech.Spelled ts) :
    ∃ t u us, ts = t :: u :: us ∧ (t.kind = .text ∨ t.kind = .identifier) ∧ (u.kind = .leftBracket ∨ u.kind = .colon) := by
  cases h with
  | plain hspeaker hcolon => exact ⟨_, _, _, rfl, hspeaker, .inr hcolon⟩
  | feeling hspeaker hopening _ _ _ => exact ⟨_, _, _, rfl, hspeaker, .inl hopening⟩

theorem VarOp.isCommand_of_mem_words {op : VarOp} {kind : TokenKind} (h : kind ∈ op.words) :
    kind.isCommand = true ∧ kind ∉ [TokenKind.jump, .call, .wait] := by
  cases op <;> simp [VarOp.words] at h
  case set => rcases h with rfl | rfl <;> decide
  all_goals subst h; decide

theorem Command.Spelled.opens {c : Command} {us : List Token} (h : c.Spelled us) :
    ∃ word ts, us = word :: ts ∧ word.kind.isCommand = true := by
  cases h with
  | assign hword _ _ | assignSign hword _ _ _ => exact ⟨_, _, rfl, (VarOp.isCommand_of_mem_words hword).1⟩
  | bare hword _ | call hword _ _ _ | callWith hword _ _ _ _ | wait hword _ | jump hword _ =>
    exact ⟨_, _, rfl, by rw [hword]; rfl⟩

namespace Reading
variable {text : List Segment} {tags : List String} {us vs rest : List Token} {t : Token}

theorem length_le_lineSize_of_inLine {used : List Token} (rest : List Token)
    (h : ∀ t ∈ used, t.kind ≠ .newline ∧ t.kind ≠ .eof) : used.length ≤ lineSize (used ++ rest) := by
  have hline : ∀ t ∈ used, (t.kind != .newline && !t.isEof) = true := by
    intro t ht
    simp [Token.isEof, h t ht]
  rw [lineSize, List.takeWhile_append_of_pos hline, List.length_append]
  omega

/-- Text is read up to a token that is neither a literal nor a brace. -/
theorem textIn_of_spelled (h : SpelledText text us) {fuel : Nat} (hfuel : us.length + 1 ≤ fuel)
    (hnext : (peek rest).kind ≠ .text) (hnext' : (peek rest).kind ≠ .leftBrace) :
    ∃ made, textIn fuel (us ++ rest) = .ok (made, rest) ∧ relocateText nowhere made = relocateText nowhere text := by
  induction h generalizing fuel with
  | nil =>
    obtain ⟨fuel, rfl⟩ : ∃ f, fuel = f + 1 := Nat.exists_eq_add_of_le' (by omega)
    refine ⟨[], ?_, rfl⟩
    rw [List.nil_append, textIn]
    dsimp only
    split
    · exact absurd ‹_› hnext
    · exact absurd ‹_› hnext'
    · rfl
  | @literal t pos text ts ht hmore ih =>
    simp only [List.length_cons] at hfuel
    obtain ⟨fuel, rfl⟩ : ∃ f, fuel = f + 1 := Nat.exists_eq_add_of_le' (by omega)
    have hless : ts.length + 1 ≤ fuel := by omega
    obtain ⟨made, hmade, hsame⟩ := ih hless
    refine ⟨.literal t.value t.pos :: made, ?_, by simp [relocateText, hsame]⟩
    simp only [List.cons_append, textIn, peek, List.headD_cons, ht, skip_cons ht (by decide : TokenKind.text ≠ .eof), hmade]
    rfl
  | @hole opening closing e pos text us ts hopening he hclosing hmore ih =>
    simp only [List.length_cons, List.length_append] at hfuel
    obtain ⟨fuel, rfl⟩ : ∃ f, fuel = f + 1 := Nat.exists_eq_add_of_le' (by omega)
    have hless : ts.length + 1 ≤ fuel := by omega
    obtain ⟨made, hmade, hsame⟩ := ih hless
    obtain ⟨inner, hinner, hsame'⟩ := he
    have hread : expression (us ++ closing :: (ts ++ rest)) = .ok (inner, closing :: (ts ++ rest)) :=
      expression_of_takes ⟨us, rfl, hinner, .of_closing (by simp [hclosing])⟩
    have hbrace : consume .rightBrace "'\x7d' after interpolation" (closing :: (ts ++ rest)) = .ok (closing, ts ++ rest) := by
      simp [consume, sees, peek, hclosing, skip_cons hclosing]
    refine ⟨.hole inner opening.pos :: made, ?_, ?_⟩
    · simp only [List.cons_append, List.append_assoc, textIn, peek, List.headD_cons, hopening,
        skip_cons hopening (by decide : TokenKind.leftBrace ≠ .eof), hread]
      simp only [bind, Except.bind, hbrace, hmade]
      rfl
    · simp only [relocateText, hsame]
      rw [show inner.relocate nowhere = e.relocate nowhere from hsame']

theorem text_of_spelled (h : SpelledText text us) (hnext : (peek rest).kind ≠ .text)
    (hnext' : (peek rest).kind ≠ .leftBrace) :
    ∃ made, Reading.text (us ++ rest) = .ok (made, rest) ∧ relocateText nowhere made = relocateText nowhere text := by
  have hlength := length_le_lineSize_of_inLine rest h.inLine
  exact textIn_of_spelled h (by rw [linePatience]; omega) hnext hnext'

/-- Tags are read up to a token that cannot be a part of them. -/
theorem tags_of_spelled (h : SpelledTags tags us) (ht : isTagPart t = false) :
    Reading.tags (us ++ t :: rest) = (tags, t :: rest) := by
  have hparts : ∀ u ∈ us, isTagPart u = true := by
    induction h with
    | nil => simp
    | cons hhash hword _ ih =>
      intro u hu
      rcases List.mem_cons.1 hu with rfl | hu
      · simp [isTagPart, hhash]
      · rcases List.mem_cons.1 hu with rfl | hu
        · rcases hword with hword | hword <;> simp [isTagPart, hword]
        · exact ih u hu
  have hwords : ((us.filter fun t => t.kind == .identifier || t.kind == .text).map Token.value) = tags := by
    clear hparts
    induction h with
    | nil => rfl
    | cons hhash hword _ ih => rcases hword with hword | hword <;> simp [hhash, hword, ih]
  cases h with
  | nil =>
    have hno : sees (t :: rest) .hash = false := by
      simp only [isTagPart, Bool.or_eq_false_iff] at ht
      exact ht.1.1.1
    simp [Reading.tags, hno]
  | @cons hash word tags ts hhash hword hmore =>
    have hsees : sees (hash :: word :: ts ++ t :: rest) .hash = true := by simp [sees, peek, hhash]
    rw [Reading.tags, if_pos hsees, List.takeWhile_append_of_pos hparts, List.dropWhile_append_of_pos hparts]
    simp only [List.takeWhile_cons, List.dropWhile_cons, ht, Bool.false_eq_true, if_false, List.append_nil, hwords]

end Reading

namespace ParseM

/-- In front of the tokens `used` and then `rest` the parser takes those used, notes nothing, counts its conditions
from `k` to `k'`, and its answer is as `Q` says. -/
def Consumes {α : Type} (x : ParseM α) (used rest : List Token) (k k' : Nat) (Q : α → Prop) : Prop :=
  ∀ notes, ∃ a, x ⟨used ++ rest, k, notes⟩ = .ok a ⟨rest, k', notes⟩ ∧ Q a

namespace Consumes
variable {α β : Type} {x : ParseM α} {us vs ts rest : List Token} {t : Token} {k k' k'' : Nat} {P : α → Prop}
  {Q : β → Prop} {wanted : TokenKind}

theorem bind {f : α → ParseM β} (hx : Consumes x us (vs ++ rest) k k' P)
    (hf : ∀ a, P a → Consumes (f a) vs rest k' k'' Q) : Consumes (x >>= f) (us ++ vs) rest k k'' Q := by
  intro notes
  obtain ⟨a, ha, hP⟩ := hx notes
  obtain ⟨b, hb, hQ⟩ := hf a hP notes
  refine ⟨b, ?_, hQ⟩
  rw [List.append_assoc, bind_eq_of_ok ha, hb]

theorem pure {b : β} (h : Q b) : Consumes (pure b) [] rest k k Q := fun _ => ⟨b, rfl, h⟩

theorem map {g : α → β} (hx : Consumes x us rest k k' P) (hg : ∀ a, P a → Q (g a)) :
    Consumes (x >>= fun a => Pure.pure (g a)) us rest k k' Q := by
  intro notes
  obtain ⟨a, ha, hP⟩ := hx notes
  exact ⟨g a, by rw [bind_eq_of_ok ha]; rfl, hg a hP⟩

theorem peek {f : Token → ParseM β} (hf : Consumes (f t) (t :: ts) rest k k' Q) :
    Consumes (ParseM.peek >>= f) (t :: ts) rest k k' Q := hf

theorem kind {f : TokenKind → ParseM β} (hf : Consumes (f t.kind) (t :: ts) rest k k' Q) :
    Consumes (ParseM.kind >>= f) (t :: ts) rest k k' Q := hf

/-- The parser looks at what comes after the tokens it takes. -/
theorem ahead {f : TokenKind → ParseM β} (hf : Consumes (f (Reading.peek rest).kind) [] rest k k' Q) :
    Consumes (ParseM.kind >>= f) [] rest k k' Q := hf

theorem advance {f : Token → ParseM β} (ht : t.kind ≠ .eof) (hf : Consumes (f t) ts rest k k' Q) :
    Consumes (ParseM.advance >>= f) (t :: ts) rest k k' Q := by
  intro notes
  obtain ⟨b, hb, hQ⟩ := hf notes
  exact ⟨b, by rw [bind_eq_of_ok (advance_cons rfl ht)]; exact hb, hQ⟩

theorem consume {f : Token → ParseM β} {expected : String} (ht : t.kind = wanted) (hkind : wanted ≠ .eof)
    (hf : Consumes (f t) ts rest k k' Q) : Consumes (ParseM.consume wanted expected >>= f) (t :: ts) rest k k' Q := by
  intro notes
  obtain ⟨b, hb, hQ⟩ := hf notes
  exact ⟨b, by rw [bind_eq_of_ok (consume_cons rfl ht hkind)]; exact hb, hQ⟩

theorem lineEnd {f : Unit → ParseM β} (ht : t.kind = .newline) (hf : Consumes (f ()) ts rest k k' Q) :
    Consumes (ParseM.lineEnd >>= f) (t :: ts) rest k k' Q := by
  intro notes
  obtain ⟨b, hb, hQ⟩ := hf notes
  exact ⟨b, by rw [bind_eq_of_ok (lineEnd_cons rfl ht)]; exact hb, hQ⟩

theorem accept {f : Bool → ParseM β} (ht : t.kind = wanted) (hkind : wanted ≠ .eof)
    (hf : Consumes (f true) ts rest k k' Q) : Consumes (ParseM.accept wanted >>= f) (t :: ts) rest k k' Q := by
  intro notes
  obtain ⟨b, hb, hQ⟩ := hf notes
  have hskip : Reading.skip (t :: ts ++ rest) = ts ++ rest := Reading.skip_cons ht hkind
  refine ⟨b, ?_, hQ⟩
  rw [accept_bind]
  refine (if_pos (show (Reading.peek (t :: ts ++ rest)).kind = wanted from ht)).trans ?_
  rw [hskip, hb]

theorem decline {f : Bool → ParseM β} (ht : (Reading.peek (ts ++ rest)).kind ≠ wanted)
    (hf : Consumes (f false) ts rest k k' Q) : Consumes (ParseM.accept wanted >>= f) ts rest k k' Q := by
  intro notes
  obtain ⟨b, hb, hQ⟩ := hf notes
  exact ⟨b, by rw [accept_bind, if_neg ht]; exact hb, hQ⟩

theorem read {r : Reading α} {P : α → Prop} (hr : ∃ a, r (us ++ rest) = .ok (a, rest) ∧ P a) :
    Consumes (ParseM.read r) us rest k k P := by
  intro notes
  obtain ⟨a, ha, hP⟩ := hr
  exact ⟨a, by simp only [ParseM.read, ha], hP⟩

end Consumes

section Lines
variable {us vs ts rest : List Token} {t : Token} {k : Nat} {e : Expr} {text : List Segment} {tags : List String}

theorem consumes_expression (he : e.Spelled us)
    (ht : t.kind ∈ [TokenKind.rightParen, .comma, .rightBrace, .rightBracket, .newline]) :
    Consumes (read Reading.expression) us (t :: ts) k k fun made => made.placeless = e.placeless := by
  obtain ⟨made, hmade, hsame⟩ := he
  exact .read ⟨made, Reading.expression_of_takes ⟨us, rfl, hmade, .of_closing ht⟩, hsame⟩

theorem consumes_test (h : SpelledTest e us) :
    Consumes test us rest k k fun made => made.placeless = e.placeless := by
  obtain ⟨he, hend⟩ := h
  exact .bind (consumes_expression he (by simp [hend])) fun made hmade => .lineEnd hend (.pure hmade)

theorem consumes_text (h : SpelledText text us) (ht : (Reading.peek rest).kind ≠ .text)
    (ht' : (Reading.peek rest).kind ≠ .leftBrace) :
    Consumes (read Reading.text) us rest k k fun made => relocateText nowhere made = relocateText nowhere text :=
  .read (Reading.text_of_spelled h ht ht')

theorem consumes_lineBody (h : SpelledBody text tags us) : Consumes lineBody us rest k k fun made =>
    relocateText nowhere made.1 = relocateText nowhere text ∧ made.2 = tags := by
  cases h with
  | @mk us vs lineEnd htext htags hend =>
    have hnext : (Reading.peek (vs ++ [lineEnd] ++ rest)).kind ≠ .text ∧
        (Reading.peek (vs ++ [lineEnd] ++ rest)).kind ≠ .leftBrace := by
      cases htags with
      | nil => simp [Reading.peek, hend]
      | cons hhash _ _ => simp [Reading.peek, hhash]
    have htag : Reading.isTagPart lineEnd = false := by simp [Reading.isTagPart, hend]
    refine .bind (consumes_text htext hnext.1 hnext.2) fun made hmade => ?_
    refine .bind (.read ⟨tags, congrArg Except.ok (Reading.tags_of_spelled htags htag), rfl⟩) ?_
    rintro read rfl
    exact .lineEnd hend (.pure ⟨hmade, rfl⟩)

/-- What is answered for an item is the item again, its conditions numbered from `k` on. -/
structure Rebuilt (node : String) (k : Nat) (c made : Content) : Prop where
  shape : made.shape = c.shape
  keys : made.keys = ConditionKey.run node (k + 1) c.keys.length

/-- The same for what the parser makes of it. -/
def Restores (node : String) (k : Nat) (c : Content) (made : Option Content) : Prop :=
  ∃ c', made = some c' ∧ Rebuilt node k c c'

/-- A line holds no condition. -/
theorem Rebuilt.line {node : String} {speech : Option Speech} {text' : List Segment} {pos pos' : Pos}
    (htext : relocateText nowhere text' = relocateText nowhere text) :
    Rebuilt node k (.line ⟨speech, text, tags, pos⟩) (.line ⟨speech, text', tags, pos'⟩) where
  shape := by simp [Content.shape, Line.relocate, htext]
  keys := rfl

theorem isBlankText_congr {text' : List Segment} (h : relocateText nowhere text' = relocateText nowhere text) :
    isBlankText text' = isBlankText text := by
  rw [← isBlankText_relocateText, h, isBlankText_relocateText]

/-- A spoken line from behind the colon. -/
theorem consumes_spoken {node : String} {speech : Speech} {pos : Pos} (speaker : Token) (h : SpelledBody text tags vs)
    (hblank : isBlankText text = false) {finish : List Segment × List String → ParseM (Option Content)}
    (hfinish : ∀ read, isBlankText read.1 = false →
      finish read = pure (some (.line ⟨some speech, read.1, read.2, speaker.pos⟩))) :
    Consumes (lineBody >>= finish) vs rest k k (Restores node k (.line ⟨some speech, text, tags, pos⟩)) := by
  rw [← List.append_nil vs]
  refine .bind (consumes_lineBody h) fun read hread => ?_
  obtain ⟨htext, rfl⟩ := hread
  rw [hfinish read ((isBlankText_congr htext).trans hblank)]
  exact .pure ⟨_, rfl, .line htext⟩

theorem consumes_dialogue {node : String} {speech : Speech} {pos : Pos} (hspeech : speech.Spelled us)
    (h : SpelledBody text tags vs) (hblank : isBlankText text = false) (hfeeling : speech.emotion ≠ some "") :
    Consumes dialogue (us ++ vs) rest k k (Restores node k (.line ⟨some speech, text, tags, pos⟩)) := by
  cases hspeech with
  | @plain speaker colon hspeaker hcolon =>
    have hne : speaker.kind ≠ .eof := by rcases hspeaker with hk | hk <;> simp [hk]
    refine .advance hne (.decline (by simp [Reading.peek, hcolon]) (.consume hcolon (by decide) ?_))
    exact consumes_spoken speaker h hblank fun read hread => by simp [hread]
  | @feeling speaker opening emotion closing colon hspeaker hopening hemotion hclosing hcolon =>
    have hne : speaker.kind ≠ .eof := by rcases hspeaker with hk | hk <;> simp [hk]
    have hne' : emotion.kind ≠ .eof := by rcases hemotion with hk | hk <;> simp [hk]
    have hempty : emotion.value.isEmpty = false := by simpa using hfeeling
    refine .advance hne (.accept hopening (by decide) ?_)
    extract_lets finish
    rw [if_pos rfl]
    refine .kind (.kind ?_)
    rw [if_pos hemotion.symm]
    refine .advance hne' ?_
    dsimp only
    rw [hempty]
    refine .consume hclosing (by decide) (.consume hcolon (by decide) ?_)
    exact consumes_spoken speaker h hblank fun read hread => by simp [hread]

theorem consumes_narration {node : String} {pos : Pos} (h : SpelledBody text tags us) (hblank : isBlankText text = false) :
    Consumes narration us rest k k (Restores node k (.line ⟨none, text, tags, pos⟩)) := by
  obtain ⟨t, ts, rfl, -⟩ := h.opens
  refine .peek ?_
  rw [← List.append_nil (t :: ts)]
  refine .bind (consumes_lineBody h) fun read hread => ?_
  obtain ⟨htext, rfl⟩ := hread
  dsimp only
  rw [(isBlankText_congr htext).trans hblank]
  exact .pure ⟨_, rfl, .line htext⟩

theorem consumes_guard {guard : Option Expr} (h : SpelledGuard guard us) (hnext : (Reading.peek rest).kind = .newline) :
    Consumes ParseM.guard us rest k k fun made => made.map Expr.placeless = guard.map Expr.placeless := by
  cases h with
  | none => exact .decline (by simp [hnext]) (.pure rfl)
  | some hopening hword he hclosing =>
    refine .accept hopening (by decide) (.consume hword (by decide) (.bind (consumes_expression he (by simp [hclosing])) ?_))
    intro made hmade
    exact .consume hclosing (by decide) (.pure (by simp [hmade]))

theorem varOp_of_mem_words {op : VarOp} {kind : TokenKind} (h : kind ∈ op.words) : varOp kind = op := by
  cases op <;> simp [VarOp.words] at h
  case set => rcases h with rfl | rfl <;> rfl
  all_goals subst h; rfl

/-- A word that is no other command changes a variable. -/
theorem commandAfter_assign {op : VarOp} {word : Token} (h : word.kind ∈ op.words) :
    commandAfter word = do
      let target ← consume .reference s!"variable after '{word.value}'"
      let _ ← accept .assign
      return .assign target.value op (← read Reading.expression) := by
  obtain ⟨-, hother⟩ := VarOp.isCommand_of_mem_words h
  rw [← varOp_of_mem_words h, commandAfter]
  split <;> simp_all

/-- The arguments of a call with its closing parenthesis. -/
theorem consumes_arguments {args : List Expr} {closing : Token} (hargs : Expr.AllSpelled args us)
    (hclosing : closing.kind = .rightParen) : Consumes (read Reading.arguments) (us ++ [closing]) rest k k
      fun made => relocateAll nowhere made = relocateAll nowhere args := by
  obtain ⟨made, hmade, hsame⟩ := hargs
  have hlength := Reading.length_le_lineSize (closing :: rest) hmade.inExpression
  refine .read ⟨made, ?_, hsame⟩
  rw [List.append_assoc, List.singleton_append]
  refine (Reading.readsList_of_derives hmade).arguments hmade.opens _ rest closing ?_ hclosing
  rw [Reading.linePatience]
  omega

theorem consumes_noArguments {closing : Token} (hclosing : closing.kind = .rightParen) :
    Consumes (read Reading.arguments) [closing] rest k k (· = []) := by
  refine .read ⟨[], ?_, rfl⟩
  have hpatience : Reading.linePatience (closing :: rest) = 10 * Reading.lineSize (closing :: rest) + 9 + 1 := by
    rw [Reading.linePatience]; omega
  show Reading.arguments (closing :: rest) = _
  rw [Reading.arguments, hpatience, Reading.argumentsIn, if_pos (by simp [Reading.sees, Reading.peek, hclosing]),
    Reading.skip_cons hclosing (by decide)]

theorem consumes_commandAfter {c : Command} {word : Token} (h : c.Spelled (word :: us)) (ht : t.kind = .newline) :
    Consumes (commandAfter word) us (t :: rest) k k fun made => made.relocate nowhere = c.relocate nowhere := by
  cases h with
  | assign hword htarget he =>
    obtain ⟨made, hmade, -⟩ := id he
    obtain ⟨first, more, rfl, hfirst⟩ := hmade.opens_ne_assign
    rw [commandAfter_assign hword]
    refine .consume htarget (by decide) (.decline hfirst (.map (consumes_expression he (by simp [ht])) ?_))
    intro value hvalue
    exact congrArg (Command.assign _ _) hvalue
  | assignSign hword htarget hsign he =>
    rw [commandAfter_assign hword]
    refine .consume htarget (by decide) (.accept hsign (by decide) (.map (consumes_expression he (by simp [ht])) ?_))
    intro value hvalue
    exact congrArg (Command.assign _ _) hvalue
  | bare hword hname =>
    rw [commandAfter, hword]
    exact .consume hname (by decide) (.decline (by simp [Reading.peek, ht]) (.pure rfl))
  | call hword hname hopening hclosing =>
    rw [commandAfter, hword]
    refine .consume hname (by decide) (.accept hopening (by decide) (.map (consumes_noArguments hclosing) ?_))
    rintro read rfl
    rfl
  | callWith hword hname hopening hargs hclosing =>
    rw [commandAfter, hword]
    refine .consume hname (by decide) (.accept hopening (by decide) (.map (consumes_arguments hargs hclosing) ?_))
    intro read hread
    exact congrArg (Command.call _) hread
  | wait hword he =>
    rw [commandAfter, hword]
    exact .map (consumes_expression he (by simp [ht])) fun made hmade => congrArg Command.wait hmade
  | jump hword htarget =>
    rw [commandAfter, hword]
    exact .consume htarget (by decide) (.pure rfl)

theorem consumes_command {node : String} {c : Command} {pos : Pos} {lineEnd : Token} (h : c.Spelled us)
    (hend : lineEnd.kind = .newline) :
    Consumes (some <$> command) (us ++ [lineEnd]) rest k k (Restores node k (.command c pos)) := by
  obtain ⟨word, ts, rfl, hword⟩ := h.opens
  have hne : word.kind ≠ .eof := by
    intro heq
    rw [heq] at hword
    cases hword
  rw [map_eq_pure_bind, command]
  simp only [bind_assoc, pure_bind]
  refine .advance hne (.bind (consumes_commandAfter h hend) fun made hmade => .lineEnd hend (.pure ?_))
  exact ⟨_, rfl, by simp [Content.shape, hmade], rfl⟩

theorem Consumes.textLine_dialogue {Q : Option Content → Prop} {u : Token}
    (ht : t.kind = .text ∨ t.kind = .identifier) (hu : u.kind = .leftBracket ∨ u.kind = .colon)
    (h : Consumes dialogue (t :: u :: us) rest k k Q) : Consumes (textLine t) (t :: u :: us) rest k k Q := by
  have heq : ∀ s : ParseState, s.rest = t :: u :: us ++ rest → textLine t s = dialogue s := by
    intro s hs
    have hsecond : (Reading.peekSecond s.rest).kind = u.kind := by rw [hs]; rfl
    have hget : (get : ParseM ParseState) s = .ok s s := rfl
    rw [textLine, bind_eq_of_ok hget]
    rcases ht with ht | ht <;> simp only [ht, hsecond, if_pos hu]
  intro notes
  rw [heq _ rfl]
  exact h notes

theorem Consumes.textLine_narration {Q : Option Content → Prop} (ht : t.kind = .leftBrace ∨
    t.kind = .text ∧ ∃ u vs, us = u :: vs ∧ u.kind ∈ [TokenKind.text, .leftBrace, .hash, .newline])
    (h : Consumes narration (t :: us) rest k k Q) : Consumes (textLine t) (t :: us) rest k k Q := by
  have heq : ∀ s : ParseState, s.rest = t :: us ++ rest → textLine t s = narration s := by
    intro s hs
    have hget : (get : ParseM ParseState) s = .ok s s := rfl
    rw [textLine, bind_eq_of_ok hget]
    rcases ht with ht | ⟨ht, u, vs, rfl, hu⟩
    · simp only [ht]
    · have hsecond : (Reading.peekSecond s.rest).kind = u.kind := by rw [hs]; rfl
      have hno : ¬ (u.kind = .leftBracket ∨ u.kind = .colon) := by
        rintro (hk | hk) <;> simp [hk] at hu
      simp only [ht, hsecond, if_neg hno]
  intro notes
  rw [heq _ rfl]
  exact h notes

end Lines
end ParseM
end Parley
