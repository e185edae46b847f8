import Parley.Proofs.Laid
import Parley.Proofs.LineReadings
import Parley.Proofs.Numbering

/-! # Lines as the parser reads them

`Keeps` is said of the parts of the parser: from a spot among tokens that are laid out a part comes to another spot with
the same levels open, none of them closed on the way, and its errors do not tell of blocks. The parts that read a line
start in front of one of its tokens or within it, and end between two lines. -/

namespace Parley

theorem bind_eq_of_error {ε σ α β : Type} {x : EStateM ε σ α} {f : α → EStateM ε σ β} {s s' : σ} {e : ε}
    (h : x s = .error e s') : (x >>= f) s = .error e s' := by
  change EStateM.bind x f s = _
  simp [EStateM.bind, h]

theorem describe_ne_dedent {t : Token} (h : t.kind ≠ .dedent) : t.describe ≠ "DEDENT" := by
  unfold Token.describe
  split
  · next hlayout => cases hk : t.kind <;> simp_all [TokenKind.isLayout, TokenKind.label]
  · intro heq
    have hspace : ' ' ∈ (toString t.kind.label ++ toString " '" ++ toString t.value ++ toString "'").toList := by
      simp only [String.toList_append, List.mem_append]
      exact .inl (.inl (.inr (by decide)))
    rw [heq] at hspace
    exact absurd hspace (by decide)

namespace ParseM

/-- What is known of the tokens that have been taken and of those that are left. -/
abbrev Spot := List Token → List Token → Prop

/-- Anywhere, within a line or not. -/
def Anywhere : Spot := fun _ _ => True

/-- Between two lines. -/
def Between : Spot := fun taken _ => Ready taken

/-- In front of a token of a line. -/
def AtMark : Spot := fun _ rest => (Reading.peek rest).kind.isLayout = false

/-- In front of a token of this kind. -/
def Spot.at (P : Spot) (kind : TokenKind) : Spot := fun taken rest => P taken rest ∧ (Reading.peek rest).kind = kind

theorem AtMark.of_kind {taken rest : List Token} {kind : TokenKind} (h : (Reading.peek rest).kind = kind)
    (hkind : kind.isLayout = false) : AtMark taken rest := by
  rw [AtMark, h]
  exact hkind

/-- What comes of a run of the parser: where it answers `R` holds, and where it fails the error does not tell of blocks. -/
structure Outcome {α : Type} (R : α → ParseState → Prop) (result : EStateM.Result ParseError ParseState α) : Prop where
  answers : ∀ a s, result = .ok a s → R a s
  fails : ∀ e s, result = .error e s → ¬ e.Unbalanced

/-- From a spot in `ts` the parser comes to another one with the same levels open, none of them closed on the way. -/
def Keeps {α : Type} (ts : List Token) (P Q : Spot) (x : ParseM α) : Prop :=
  ∀ s taken, ts = taken ++ s.rest → P taken s.rest →
    Outcome (fun _ s' => ∃ after, ts = after ++ s'.rest ∧ Level taken after ∧ Q after s'.rest) (x s)

section
variable {α β : Type} {ts : List Token} {P Q S : Spot} {x : ParseM α}

namespace Outcome
variable {R : α → ParseState → Prop} {R' : β → ParseState → Prop} {s : ParseState}

theorem ok {a : α} (h : R a s) : Outcome R (.ok a s) :=
  ⟨fun _ _ heq => (by cases heq; exact h), fun _ _ heq => (by cases heq)⟩

theorem error {e : ParseError} (h : ¬ e.Unbalanced) : Outcome R (.error e s) :=
  ⟨fun _ _ heq => (by cases heq), fun _ _ heq => (by cases heq; exact h)⟩

theorem mono {R' : α → ParseState → Prop} {result : EStateM.Result ParseError ParseState α} (h : Outcome R result)
    (hR : ∀ a s, R a s → R' a s) : Outcome R' result :=
  ⟨fun a s ha => hR a s (h.answers a s ha), h.fails⟩

theorem bind {f : α → ParseM β} (hx : Outcome R (x s)) (hf : ∀ a s', R a s' → Outcome R' (f a s')) :
    Outcome R' ((x >>= f) s) := by
  cases hrun : x s with
  | ok a s' =>
    rw [bind_eq_of_ok hrun]
    exact hf a s' (hx.answers a s' hrun)
  | error e s' =>
    rw [bind_eq_of_error hrun]
    exact error (hx.fails e s' hrun)

end Outcome

namespace Keeps

theorem bind {f : α → ParseM β} (hx : Keeps ts P Q x) (hf : ∀ a, Keeps ts Q S (f a)) : Keeps ts P S (x >>= f) := by
  intro s taken hts hP
  refine (hx s taken hts hP).bind fun a s' hmid => ?_
  obtain ⟨mid, hmid, hlevel, hQ⟩ := hmid
  refine (hf a s' mid hmid hQ).mono fun b s'' hafter => ?_
  obtain ⟨after, hafter, hlevel', hS⟩ := hafter
  exact ⟨after, hafter, hlevel.trans hlevel', hS⟩

theorem pure {a : α} : Keeps ts P P (pure a) := fun _ taken hts hP => .ok ⟨taken, hts, .refl taken, hP⟩

theorem unfinished : Keeps ts P Q (throw .unfinished : ParseM α) := fun _ _ _ _ =>
  .error ParseError.not_unbalanced_unfinished

theorem ite {c : Prop} [Decidable c] {y : ParseM α} (hx : c → Keeps ts P Q x) (hy : ¬ c → Keeps ts P Q y) :
    Keeps ts P Q (if c then x else y) := by
  split
  · exact hx ‹_›
  · exact hy ‹_›

theorem weaken {P' : Spot} (h : Keeps ts P Q x) (hP : ∀ taken rest, P' taken rest → P taken rest) : Keeps ts P' Q x :=
  fun s taken hts hspot => h s taken hts (hP _ _ hspot)

theorem forget {kind : TokenKind} (h : Keeps ts P Q x) : Keeps ts (P.at kind) Q x := h.weaken fun _ _ h => h.1

theorem fail {expected : String} (h : ∀ taken rest, ts = taken ++ rest → P taken rest →
    ¬ (Reading.unexpected rest expected).Unbalanced) : Keeps ts P Q (ParseM.fail expected : ParseM α) :=
  fun s taken hts hP => .error (h taken s.rest hts hP)

/-- The state is looked at, or something else than its tokens is changed. -/
theorem aside (h : ∀ s, ∃ a s', x s = .ok a s' ∧ s'.rest = s.rest) : Keeps ts P P x := by
  intro s taken hts hP
  obtain ⟨a, s', ha, hrest⟩ := h s
  rw [ha]
  exact .ok ⟨taken, hrest ▸ hts, .refl taken, hrest ▸ hP⟩

theorem peek {f : Token → ParseM β} (hf : ∀ t, Keeps ts (P.at t.kind) Q (f t)) : Keeps ts P Q (ParseM.peek >>= f) :=
  fun s taken hts hP => hf (Reading.peek s.rest) s taken hts ⟨hP, rfl⟩

theorem kind {f : TokenKind → ParseM β} (hf : ∀ kind, Keeps ts (P.at kind) Q (f kind)) :
    Keeps ts P Q (ParseM.kind >>= f) :=
  fun s taken hts hP => hf (Reading.peek s.rest).kind s taken hts ⟨hP, rfl⟩

theorem read {r : Reading α} (hr : ∀ rest, Reading.OnLine rest (r rest)) : Keeps ts P Anywhere (ParseM.read r) := by
  intro s taken hts _
  obtain ⟨htaken, hfailed⟩ := hr s.rest
  unfold ParseM.read
  cases hread : r s.rest with
  | error e => exact .error (hfailed e hread)
  | ok made =>
    obtain ⟨a, rest⟩ := made
    obtain ⟨used, hused, hplain⟩ := htaken a rest hread
    exact .ok ⟨taken ++ used, by rw [hts, hused, List.append_assoc],
      .plain fun t ht => Lexer.isBlock_of_isLayout (hplain t ht), trivial⟩

/-- A token of a line is passed. -/
theorem passing : Keeps ts AtMark Anywhere ParseM.advance := by
  intro s taken hts hline
  have hline : (Reading.peek s.rest).kind.isLayout = false := hline
  have hcons := Reading.eq_cons_of_not_layout hline
  refine .ok ⟨taken ++ [Reading.peek s.rest], ?_, .plain (by simpa using Lexer.isBlock_of_isLayout hline), trivial⟩
  rw [List.append_assoc, List.singleton_append, ← hcons]
  exact hts

theorem advance {f : Token → ParseM β} (hmark : ∀ taken rest, P taken rest → AtMark taken rest)
    (hf : ∀ t, Keeps ts Anywhere Q (f t)) : Keeps ts P Q (ParseM.advance >>= f) :=
  .bind (passing.weaken hmark) hf

theorem consuming {kind : TokenKind} {expected : String} (hkind : kind.isLayout = false)
    (h : expected ≠ "end of indented block") (h' : expected ≠ "content") :
    Keeps ts P Anywhere (ParseM.consume kind expected) :=
  .read fun _ => Reading.onLine_consume hkind h h'

theorem consume {kind : TokenKind} {expected : String} {f : Token → ParseM β} (hkind : kind.isLayout = false)
    (h : expected ≠ "end of indented block") (h' : expected ≠ "content") (hf : ∀ t, Keeps ts Anywhere Q (f t)) :
    Keeps ts P Q (ParseM.consume kind expected >>= f) :=
  .bind (.consuming hkind h h') hf

/-- With the token or without it the parser is within a line. -/
theorem accept {wanted : TokenKind} {f : Bool → ParseM β} (hkind : wanted.isLayout = false)
    (hf : ∀ taken, Keeps ts Anywhere Q (f taken)) : Keeps ts P Q (ParseM.accept wanted >>= f) := by
  intro s taken hts hP
  rw [accept_bind]
  by_cases hwanted : (Reading.peek s.rest).kind = wanted
  · have hpass := Keeps.advance (P := AtMark) (f := fun _ => f true) (fun _ _ h => h) fun _ => hf true
    rw [if_pos hwanted]
    exact hpass s taken hts (.of_kind hwanted hkind)
  · rw [if_neg hwanted]
    exact hf false s taken hts trivial

/-- The end of the line, or of the text. -/
theorem ending (hlaid : Laid ts) : Keeps ts P Between ParseM.lineEnd := by
  have hnewline : Keeps ts P Between (ParseM.consume .newline "end of line") := by
    intro s taken hts _
    unfold ParseM.consume ParseM.read
    cases hread : Reading.consume .newline "end of line" s.rest with
    | error e =>
      unfold Reading.consume at hread
      split at hread <;> cases hread
      exact .error (ParseError.not_unbalanced_unexpected (by decide) (by decide))
    | ok made =>
      obtain ⟨t, rest⟩ := made
      obtain ⟨hkind, hrest⟩ := Reading.consume_ok (by decide) hread
      refine .ok ⟨taken ++ [t], by rw [hts, hrest, List.append_assoc]; rfl, .plain ?_, .concat (by rw [hkind]; rfl)⟩
      simp [hkind, TokenKind.isBlock]
  refine .kind fun kind => .ite (fun heof s taken hts hP => ?_) fun _ => .bind hnewline.forget fun _ => .pure
  subst heof
  exact .ok ⟨taken, hts, .refl taken, (hlaid.eof taken s.rest hts hP.2).1⟩

theorem lineEnd {f : Unit → ParseM β} (hlaid : Laid ts) (hf : Keeps ts Between Q (f ())) :
    Keeps ts P Q (ParseM.lineEnd >>= f) :=
  .bind (ending hlaid) fun _ => hf

theorem note {n : ParseNote} {f : Unit → ParseM β} (hf : Keeps ts P Q (f ())) : Keeps ts P Q (ParseM.note n >>= f) :=
  .bind (.aside fun _ => ⟨(), _, rfl, rfl⟩) fun _ => hf

end Keeps

section Lines
variable (hlaid : Laid ts)

theorem keeps_expression : Keeps ts P Anywhere (read Reading.expression) := .read fun _ => Reading.onLine_expression

theorem keeps_text : Keeps ts P Anywhere (read Reading.text) := .read fun _ => Reading.onLine_text

theorem variable_ne (value : String) {text : String} (h : text.toList.head? ≠ some 'v') :
    s!"variable after '{value}'" ≠ text := by
  rintro rfl
  simp at h
  exact h.1 rfl

theorem keeps_commandAfter (t : Token) : Keeps ts Anywhere Anywhere (commandAfter t) := by
  unfold commandAfter
  split
  · exact .consume rfl (by decide) (by decide) fun _ => .pure
  · refine .consume rfl (by decide) (by decide) fun name => .accept rfl fun opening => .ite (fun _ => ?_) fun _ => ?_
    · exact .bind (.read fun _ => Reading.onLine_arguments) fun _ => .pure
    · exact .bind .pure fun _ => .pure
  · exact .bind keeps_expression fun _ => .pure
  · exact .consume rfl (variable_ne t.value (by decide)) (variable_ne t.value (by decide)) fun _ =>
      .accept rfl fun _ => .bind keeps_expression fun _ => .pure

theorem keeps_guard : Keeps ts Anywhere Anywhere guard :=
  .accept rfl fun _ => .ite (fun _ => .consume rfl (by decide) (by decide) fun _ =>
    .bind keeps_expression fun _ => .consume rfl (by decide) (by decide) fun _ => .pure) fun _ => .pure

include hlaid

theorem keeps_command : Keeps ts AtMark Between (some <$> command) := by
  rw [map_eq_pure_bind]
  unfold command
  simp only [bind_assoc, pure_bind]
  exact .advance (fun _ _ h => h) fun t => .bind (keeps_commandAfter t) fun _ => .lineEnd hlaid .pure

theorem keeps_lineBody : Keeps ts P Between lineBody :=
  .bind keeps_text fun _ => .bind (.read fun _ => Reading.onLine_tags) fun _ => .lineEnd hlaid .pure

theorem keeps_dialogue : Keeps ts AtMark Between dialogue := by
  unfold dialogue
  refine .advance (fun _ _ h => h) fun speaker => .accept rfl fun bracket => ?_
  -- whatever the emotion is, the rest of the line is read the same way
  extract_lets body
  have hbody (emotion : Option String) : Keeps ts Anywhere Between (body () emotion) :=
    .consume rfl (by decide) (by decide) fun _ => .bind (keeps_lineBody hlaid) fun _ =>
      .ite (fun _ => .note .pure) fun _ => .pure
  refine .ite (fun _ => .kind fun first => .kind fun second => .ite (fun hword => ?_) fun _ => ?_) fun _ => hbody _
  · refine .advance (fun taken rest h => ?_) fun _ => .consume rfl (by decide) (by decide) fun _ => hbody _
    obtain ⟨⟨-, rfl⟩, rfl⟩ := h
    rcases hword with hk | hk <;> exact .of_kind hk rfl
  · exact .consume rfl (by decide) (by decide) fun _ => hbody _

theorem keeps_narration : Keeps ts P Between narration :=
  .peek fun _ => .bind (keeps_lineBody hlaid) fun _ => .pure

theorem keeps_textLine (first : Token) : Keeps ts AtMark Between (textLine first) := by
  unfold textLine
  refine .bind (.aside fun s => ⟨s, s, rfl, rfl⟩) fun s => ?_
  dsimp only
  split
  · exact .ite (fun _ => keeps_dialogue hlaid) fun _ => keeps_narration hlaid
  · exact .ite (fun _ => keeps_dialogue hlaid) fun _ => keeps_narration hlaid
  · exact keeps_narration hlaid
  · exact keeps_narration hlaid
  · refine .fail fun taken rest _ hmark => ?_
    rintro ⟨line, column, ⟨found, heq⟩ | heq⟩
    · exact absurd (ParseError.unexpected.inj heq).2.2.1 (by decide)
    · have hfound := (ParseError.unexpected.inj heq).2.2.2
      refine describe_ne_dedent (fun hk => ?_) hfound
      rw [AtMark, hk] at hmark
      cases hmark

theorem keeps_test : Keeps ts P Between test := .bind keeps_expression fun _ => .lineEnd hlaid .pure

end Lines
end

end ParseM
end Parley
