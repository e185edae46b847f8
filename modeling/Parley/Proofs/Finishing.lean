import Parley.Proofs.Headway
import Parley.Proofs.Written

/-! # The parser finishes

Whatever tokens it is given and however many calls it may make, each part of the parser takes the tokens in front, one
after the other, and never the end of the text; so it stands, also where it fails, at a place that it has not passed
before (`Moved`). Where number tokens hold numerals and the calls are enough for the tokens that are left, fewer than
`room`, either it is done, or a token is not what the grammar asks for (`Goes`): a call takes a token before it is made
again. A line of narration may begin without taking one; then it cannot end without. -/

namespace Parley

/-- The tokens in front have been taken, so many at least, and the end of the text is not among them. -/
def Taken (least : Nat) (ts rest : List Token) : Prop :=
  ∃ used, ts = used ++ rest ∧ least ≤ used.length ∧ ∀ t ∈ used, t.kind ≠ .eof

namespace Taken
variable {least more : Nat} {ts rest after : List Token}

theorem refl (ts : List Token) : Taken 0 ts ts := ⟨[], rfl, Nat.zero_le _, by simp⟩

theorem trans (h : Taken least ts rest) (h' : Taken more rest after) : Taken (least + more) ts after := by
  obtain ⟨used, rfl, hleast, hinside⟩ := h
  obtain ⟨used', rfl, hmore, hinside'⟩ := h'
  refine ⟨used ++ used', by rw [List.append_assoc], by rw [List.length_append]; omega, fun t ht => ?_⟩
  rcases List.mem_append.1 ht with ht | ht
  · exact hinside t ht
  · exact hinside' t ht

theorem less (h : Taken least ts rest) (hle : more ≤ least) : Taken more ts rest := by
  obtain ⟨used, hused, hleast, hinside⟩ := h
  exact ⟨used, hused, Nat.le_trans hle hleast, hinside⟩

theorem any (h : Taken least ts rest) : Taken 0 ts rest := h.less (Nat.zero_le _)

theorem skip (h : (Reading.peek ts).kind ≠ .eof) : Taken 1 ts (Reading.skip ts) :=
  ⟨[Reading.peek ts], Reading.eq_cons_of_kind rfl h, Nat.le_refl 1, by simpa using h⟩

theorem of_onLine {α : Type} {x : Except ParseError (α × List Token)} (h : Reading.OnLine ts x) {a : α}
    (hx : x = .ok (a, rest)) : Taken 0 ts rest := by
  obtain ⟨used, hused, hline⟩ := h.taken a rest hx
  refine ⟨used, hused, Nat.zero_le _, fun t ht heof => ?_⟩
  have hkind := hline t ht
  rw [heof] at hkind
  cases hkind

theorem of_consume {kind : TokenKind} {expected : String} {t : Token} (hkind : kind ≠ .eof)
    (h : Reading.consume kind expected ts = .ok (t, rest)) : Taken 1 ts rest := by
  obtain ⟨ht, hrest⟩ := Reading.consume_ok hkind h
  exact ⟨[t], hrest, Nat.le_refl 1, by simpa [ht] using hkind⟩

end Taken

namespace ParseM

abbrev Any : List Token → Prop := fun _ => True

abbrev Inside : List Token → Prop := fun ts => (Reading.peek ts).kind ≠ .eof

abbrev Ahead (kind : TokenKind) : List Token → Prop := fun ts => (Reading.peek ts).kind = kind

theorem inside_of_ahead {P : List Token → Prop} {kind : TokenKind} (hkind : kind ≠ .eof) :
    ∀ ts, P ts ∧ Ahead kind ts → Inside ts :=
  fun _ hts heof => hkind (hts.2.symm.trans heof)

/-- Tokens have been taken, so many at least where there is an answer. -/
structure Moved {α : Type} (least : Nat) (s : ParseState) (result : EStateM.Result ParseError ParseState α) : Prop where
  answered : ∀ a s', result = .ok a s' → Taken least s.rest s'.rest
  failed : ∀ e s', result = .error e s' → Taken 0 s.rest s'.rest

/-- From tokens with `P`. -/
def Advances {α : Type} (P : List Token → Prop) (least : Nat) (x : ParseM α) : Prop :=
  ∀ s : ParseState, P s.rest → Moved least s (x s)

/-- From tokens with `P` it advances, and with fewer of them than `room` it fails only where the grammar does. -/
structure Goes {α : Type} (P : List Token → Prop) (room least : Nat) (x : ParseM α) : Prop where
  advances : Advances P least x
  faults : ∀ s : ParseState, P s.rest → Numbered s.rest → s.rest.length < room → ∀ e s', x s = .error e s' →
    e.IsUnexpected

section
variable {α β : Type} {P Q : List Token → Prop} {room least : Nat} {x : ParseM α} {f : α → ParseM β} {s s' : ParseState}

theorem error_of_bind {e : ParseError} {s'' : ParseState} (h : (x >>= f) s = .error e s'') :
    x s = .error e s'' ∨ ∃ a s', x s = .ok a s' ∧ f a s' = .error e s'' := by
  change EStateM.bind x f s = _ at h
  unfold EStateM.bind at h
  split at h
  · next a s' hx => exact .inr ⟨a, s', hx, h⟩
  · next hx =>
    cases h
    exact .inl hx

namespace Moved

theorem ok {a : α} (h : Taken least s.rest s'.rest) : Moved least s (.ok a s') :=
  ⟨fun _ _ heq => (by cases heq; exact h), fun _ _ heq => (by cases heq)⟩

theorem error {e : ParseError} : Moved least s (.error e s : EStateM.Result _ _ α) :=
  ⟨fun _ _ heq => (by cases heq), fun _ _ heq => (by cases heq; exact .refl _)⟩

theorem any (h : Moved least s (x s)) : Moved 0 s (x s) := ⟨fun a s' ha => (h.answered a s' ha).any, h.failed⟩

theorem of_rest {result : EStateM.Result ParseError ParseState α} (h : Moved least s' result) (hrest : s'.rest = s.rest) :
    Moved least s result :=
  ⟨fun a s'' ha => hrest ▸ h.answered a s'' ha, fun e s'' he => hrest ▸ h.failed e s'' he⟩

theorem bind {more : Nat} (hx : Moved least s (x s)) (hf : ∀ a s', x s = .ok a s' → Moved more s' (f a s')) :
    Moved (least + more) s ((x >>= f) s) := by
  refine ⟨fun b s'' hb => ?_, fun e s'' he => ?_⟩
  · obtain ⟨a, s', ha, hb⟩ := bind_ok hb
    exact (hx.answered a s' ha).trans ((hf a s' ha).answered b s'' hb)
  · obtain he | ⟨a, s', ha, he⟩ := error_of_bind he
    · exact hx.failed e s'' he
    · exact ((hx.answered a s' ha).trans ((hf a s' ha).failed e s'' he)).any

end Moved

namespace Goes

theorem weaken (h : Goes P room least x) (hPQ : ∀ ts, Q ts → P ts) : Goes Q room least x :=
  ⟨fun s hs => h.advances s (hPQ _ hs), fun s hs => h.faults s (hPQ _ hs)⟩

theorem any (h : Goes P room least x) : Goes P room 0 x := ⟨fun s hs => (h.advances s hs).any, h.faults⟩

theorem pure {a : α} : Goes P room 0 (pure a : ParseM α) :=
  ⟨fun s _ => .ok (.refl s.rest), fun _ _ _ _ _ _ h => (by cases h)⟩

theorem fail {expected : String} : Goes P room least (ParseM.fail expected : ParseM α) :=
  ⟨fun _ _ => .error, fun _ _ _ _ _ _ h => (by cases h; exact ⟨_, _, _, _, rfl⟩)⟩

/-- No tokens are few enough. -/
theorem unfinished : Goes P 0 least (throw .unfinished : ParseM α) :=
  ⟨fun _ _ => .error, fun _ _ _ h => (Nat.not_lt_zero _ h).elim⟩

theorem ite {c : Prop} [Decidable c] {y : ParseM α} (hx : c → Goes P room least x) (hy : ¬ c → Goes P room least y) :
    Goes P room least (if c then x else y) := by
  split
  · exact hx ‹_›
  · exact hy ‹_›

theorem bind (hx : Goes P room least x) (hf : ∀ a, Goes Any (room - least) 0 (f a)) : Goes P room least (x >>= f) := by
  refine ⟨fun s hs => (hx.advances s hs).bind fun a s' _ => (hf a).advances s' trivial, ?_⟩
  intro s hs hnum hroom e s'' he
  obtain he | ⟨a, s', ha, he⟩ := error_of_bind he
  · exact hx.faults s hs hnum hroom e s'' he
  · obtain ⟨used, hused, hleast, -⟩ := (hx.advances s hs).answered a s' ha
    have hlength := congrArg List.length hused
    rw [List.length_append] at hlength
    exact (hf a).faults s' trivial (hnum.of_suffix ⟨used, hused.symm⟩) (by omega) e s'' he

/-- What takes a token unless it is at the end takes one, also behind what may take none. -/
theorem bind_inside (hx : Goes Inside room 0 x) (hf : ∀ a, Goes Any room 0 (f a))
    (hinside : ∀ a, Goes Inside room 1 (f a)) : Goes Inside room 1 (x >>= f) := by
  have hany : Goes Inside room 0 (x >>= f) := hx.bind hf
  refine ⟨fun s hs => ⟨fun b s'' hb => ?_, (hany.advances s hs).failed⟩, hany.faults⟩
  obtain ⟨a, s', ha, hb⟩ := bind_ok hb
  obtain ⟨used, hused, -, hplain⟩ := (hx.advances s hs).answered a s' ha
  cases used with
  | nil =>
    have hrest : s.rest = s'.rest := hused
    exact hrest ▸ ((hinside a).advances s' (show Inside s'.rest from hrest ▸ hs)).answered b s'' hb
  | cons t used =>
    have hfirst : Taken 1 s.rest s'.rest := ⟨t :: used, hused, by simp, hplain⟩
    exact hfirst.trans (((hf a).advances s' trivial).answered b s'' hb)

theorem map {g : α → β} (hx : Goes P room least x) : Goes P room least (g <$> x) := by
  rw [map_eq_pure_bind]
  exact hx.bind fun _ => .pure

/-- The state is looked at, or something else than its tokens is changed. -/
theorem aside (hx : ∀ s, ∃ a s', x s = .ok a s' ∧ s'.rest = s.rest) (hf : ∀ a, Goes P room least (f a)) :
    Goes P room least (x >>= f) := by
  refine ⟨fun s hs => ?_, fun s hs hnum hroom => ?_⟩ <;> obtain ⟨a, s', hrun, hrest⟩ := hx s <;>
    rw [bind_eq_of_ok hrun]
  · exact ((hf a).advances s' (hrest ▸ hs)).of_rest hrest
  · exact (hf a).faults s' (hrest ▸ hs) (hrest ▸ hnum) (hrest ▸ hroom)

theorem note {n : ParseNote} {f : Unit → ParseM β} (hf : Goes P room least (f ())) :
    Goes P room least (ParseM.note n >>= f) :=
  .aside (fun _ => ⟨(), _, rfl, rfl⟩) fun _ => hf

theorem kind {f : TokenKind → ParseM β} (hf : ∀ kind, Goes (fun ts => P ts ∧ Ahead kind ts) room least (f kind)) :
    Goes P room least (ParseM.kind >>= f) :=
  ⟨fun s hs => (hf _).advances s ⟨hs, rfl⟩, fun s hs => (hf _).faults s ⟨hs, rfl⟩⟩

theorem peek {f : Token → ParseM β} (hf : ∀ t, Goes (fun ts => P ts ∧ Ahead t.kind ts) room least (f t)) :
    Goes P room least (ParseM.peek >>= f) :=
  ⟨fun s hs => (hf _).advances s ⟨hs, rfl⟩, fun s hs => (hf _).faults s ⟨hs, rfl⟩⟩

theorem reading {r : Reading α} (hr : ∀ ts a rest, r ts = .ok (a, rest) → Taken least ts rest)
    (hfaults : ∀ ts, Numbered ts → ∀ e, r ts = .error e → e.IsUnexpected) : Goes P room least (ParseM.read r) := by
  refine ⟨fun s _ => ?_, fun s _ hnum _ e s' he => ?_⟩
  · unfold ParseM.read
    cases hread : r s.rest with
    | error e => exact .error
    | ok made => exact .ok (hr s.rest made.1 made.2 hread)
  · unfold ParseM.read at he
    cases hread : r s.rest with
    | error e' =>
      rw [hread] at he
      cases he
      exact hfaults s.rest hnum e hread
    | ok made =>
      rw [hread] at he
      cases he

theorem read {r : Reading α} (hr : ∀ ts, Reading.OnLine ts (r ts))
    (hfaults : ∀ ts, Numbered ts → ∀ e, r ts = .error e → e.IsUnexpected) : Goes P room 0 (ParseM.read r) :=
  .reading (fun ts _ _ h => .of_onLine (hr ts) h) hfaults

/-- A token that is not the end of the text is taken. -/
theorem advance {f : Token → ParseM β} (hP : ∀ ts, P ts → Inside ts) (hf : ∀ t, Goes Any (room - 1) 0 (f t)) :
    Goes P room 1 (ParseM.advance >>= f) :=
  Goes.bind (x := ParseM.advance) ⟨fun _ hs => .ok (.skip (hP _ hs)), fun _ _ _ _ _ _ h => (by cases h)⟩ hf

/-- A token of a kind other than that is passed. -/
theorem past {wanted : TokenKind} {y : ParseM β} (hwanted : wanted ≠ .eof) (hy : Goes Any (room - 1) 0 y) :
    Goes (fun ts => P ts ∧ Ahead wanted ts) room 1 (ParseM.advance >>= fun _ => y) :=
  .advance (inside_of_ahead hwanted) fun _ => hy

theorem consume {kind : TokenKind} {expected : String} (hkind : kind ≠ .eof) :
    Goes P room 1 (ParseM.consume kind expected) := by
  refine .reading (fun _ _ _ h => .of_consume hkind h) fun ts _ e he => ?_
  unfold Reading.consume at he
  split at he <;> cases he
  exact ⟨_, _, _, _, rfl⟩

theorem accept {wanted : TokenKind} {f : Bool → ParseM β} (hwanted : wanted ≠ .eof)
    (htrue : Goes Any (room - 1) 0 (f true)) (hfalse : Goes P room 0 (f false)) :
    Goes P room 0 (ParseM.accept wanted >>= f) := by
  have hpast : Goes (fun ts => P ts ∧ Ahead wanted ts) room 0 (ParseM.advance >>= fun _ => f true) :=
    (past hwanted htrue).any
  refine ⟨fun s hs => ?_, fun s hs => ?_⟩ <;> rw [accept_bind] <;> split
  · next hkind => exact hpast.advances s ⟨hs, hkind⟩
  · exact hfalse.advances s hs
  · next hkind => exact hpast.faults s ⟨hs, hkind⟩
  · exact hfalse.faults s hs

/-- At the end of the text nothing is taken. -/
theorem lineEnd : Goes P room 0 ParseM.lineEnd :=
  .kind fun _ => .ite (fun _ => .pure) fun _ => (Goes.consume (by decide)).any.bind fun _ => .pure

theorem lineEnd_inside : Goes Inside room 1 ParseM.lineEnd := by
  refine .kind fun kind => .ite (fun heof => ?_) fun _ => (Goes.consume (by decide)).bind fun _ => .pure
  exact ⟨fun s hs => absurd (hs.2.trans heof) hs.1, fun s hs => absurd (hs.2.trans heof) hs.1⟩

end Goes

section Lines

theorem goes_expression : Goes P room 0 (read Reading.expression) :=
  .read (fun _ => Reading.onLine_expression) fun _ hnum => (Reading.gets_expression hnum).failed

theorem goes_text : Goes P room 0 (read Reading.text) :=
  .read (fun _ => Reading.onLine_text) fun _ hnum => (Reading.gets_text hnum).failed

theorem goes_arguments : Goes P room 0 (read Reading.arguments) :=
  .read (fun _ => Reading.onLine_arguments) fun _ hnum => (Reading.gets_arguments hnum).failed

theorem goes_tags : Goes P room 0 tags := .read (fun _ => Reading.onLine_tags) fun _ _ => Reading.gets_tags.failed

theorem goes_commandAfter (t : Token) : Goes P room 0 (commandAfter t) := by
  unfold commandAfter
  split
  · exact (Goes.consume (by decide)).any.bind fun _ => .pure
  · refine (Goes.consume (by decide)).any.bind fun _ => .accept (by decide) ?_ (Goes.pure.bind fun _ => .pure)
    exact goes_arguments.bind fun _ => .pure
  · exact goes_expression.bind fun _ => .pure
  · refine (Goes.consume (by decide)).any.bind fun _ => .accept (by decide) ?_ ?_ <;>
      exact goes_expression.bind fun _ => .pure

theorem goes_command (hP : ∀ ts, P ts → Inside ts) : Goes P room 1 command :=
  .advance hP fun t => (goes_commandAfter t).bind fun _ => Goes.lineEnd.bind fun _ => .pure

theorem goes_lineBody : Goes P room 0 lineBody :=
  goes_text.bind fun _ => goes_tags.bind fun _ => Goes.lineEnd.bind fun _ => .pure

/-- A line without text or tags is left by its end. -/
theorem goes_lineBody_inside : Goes Inside room 1 lineBody := by
  refine .bind_inside goes_text (fun _ => goes_tags.bind fun _ => ?_) fun text => ?_
  · exact Goes.lineEnd.bind fun _ => .pure
  · refine .bind_inside goes_tags (fun _ => ?_) fun _ => ?_
    · exact Goes.lineEnd.bind fun _ => .pure
    · exact Goes.lineEnd_inside.bind fun _ => .pure

theorem goes_dialogue (hP : ∀ ts, P ts → Inside ts) : Goes P room 1 dialogue := by
  unfold dialogue
  refine .advance hP fun speaker => ?_
  -- whatever the emotion is, the rest of the line is read the same way
  extract_lets unfeeling body close
  have hbody (room : Nat) (emotion : Option String) : Goes Any room 0 (body () emotion) :=
    (Goes.consume (by decide)).any.bind fun _ => goes_lineBody.bind fun _ => .ite (fun _ => .note .pure) fun _ => .pure
  have hclose (room : Nat) (emotion : Option String) : Goes Any room 0 (close () emotion) :=
    (Goes.consume (by decide)).any.bind fun _ => hbody _ _
  refine .accept (by decide) ?_ (hbody _ _)
  refine .kind fun first => .kind fun second => .ite (fun hword => ?_) fun _ => (hclose _ _).weaken fun _ _ => trivial
  refine (Goes.advance (fun ts hts heof => ?_) fun _ => hclose _ _).any
  obtain ⟨⟨-, hfirst⟩, hsecond⟩ := hts
  rcases hword with rfl | rfl
  · exact absurd (hfirst.symm.trans heof) (by decide)
  · exact absurd (hsecond.symm.trans heof) (by decide)

theorem goes_narration : Goes Inside room 1 narration :=
  .peek fun _ => (goes_lineBody_inside.weaken fun _ h => h.1).bind fun _ => .pure

theorem goes_textLine (first : Token) : Goes (Ahead first.kind) room 1 (textLine first) := by
  unfold textLine
  refine .aside (fun s => ⟨s, s, rfl, rfl⟩) fun s => ?_
  dsimp only
  have hinside {kind : TokenKind} (hkind : first.kind = kind) (hne : kind ≠ .eof) :
      ∀ ts, Ahead first.kind ts → Inside ts := fun ts hts heof => hne (hkind.symm.trans (hts.symm.trans heof))
  have hspoken {kind second : TokenKind} (hkind : first.kind = kind) (hne : kind ≠ .eof) :
      Goes (Ahead first.kind) room 1 (if second = .leftBracket ∨ second = .colon then dialogue else narration) :=
    .ite (fun _ => goes_dialogue (hinside hkind hne)) fun _ => goes_narration.weaken (hinside hkind hne)
  split
  · next hkind => exact hspoken hkind (by decide)
  · next hkind => exact hspoken hkind (by decide)
  · next hkind => exact goes_narration.weaken (hinside hkind (by decide))
  · next hkind => exact goes_narration.weaken (hinside hkind (by decide))
  · exact .fail

theorem goes_guard : Goes P room 0 guard :=
  .accept (by decide) ((Goes.consume (by decide)).any.bind fun _ => goes_expression.bind fun _ =>
    (Goes.consume (by decide)).any.bind fun _ => .pure) .pure

theorem goes_test : Goes P room 0 test := goes_expression.bind fun _ => Goes.lineEnd.bind fun _ => .pure

end Lines
end

/-- So many calls are enough for fewer than `room` tokens, in the parts of the parser that read blocks. -/
structure Ample (node : String) (fuel : Nat) : Prop where
  content room : 10 * room ≤ fuel + 7 → Goes Inside room 1 (content node fuel)
  choice room : 10 * room ≤ fuel + 8 → Goes Inside room 1 (choice node fuel)
  condition room : 10 * room ≤ fuel + 8 → Goes Inside room 1 (condition node fuel)
  elifs room : 10 * room ≤ fuel + 9 → Goes Any room 0 (elifs node fuel)
  block room : 10 * room ≤ fuel + 9 → Goes Any room 0 (block node fuel)
  items room depth : 10 * room ≤ fuel + 6 → Goes Any room 0 (blockItems node depth fuel)

namespace Ample
variable {node : String} {fuel : Nat} (h : Ample node fuel)
include h

theorem content_succ (room : Nat) (hfuel : 10 * room ≤ fuel + 1 + 7) :
    Goes Inside room 1 (ParseM.content node (fuel + 1)) := by
  unfold ParseM.content
  refine .peek fun t => ?_
  split
  · exact (h.choice _ (by omega)).weaken fun _ hts => hts.1
  · exact (h.condition _ (by omega)).weaken fun _ hts => hts.1
  · exact .ite (fun _ => (goes_command fun _ hts => hts.1).map) fun _ => (goes_textLine t).weaken fun _ hts => hts.2

theorem choice_succ (room : Nat) (hfuel : 10 * room ≤ fuel + 1 + 8) :
    Goes Inside room 1 (ParseM.choice node (fuel + 1)) := by
  unfold ParseM.choice
  refine .advance (fun _ hts => hts) fun arrow => goes_text.bind fun text => goes_guard.bind fun guard => ?_
  refine Goes.lineEnd.bind fun _ => (h.block _ (by omega)).bind fun content => ?_
  exact .ite (fun _ => .note .pure) fun _ => .pure

theorem condition_succ (room : Nat) (hfuel : 10 * room ≤ fuel + 1 + 8) :
    Goes Inside room 1 (ParseM.condition node (fuel + 1)) := by
  unfold ParseM.condition
  refine .advance (fun _ hts => hts) fun opening => .aside (fun _ => ⟨(), _, rfl, rfl⟩) fun _ => ?_
  refine .aside (fun s => ⟨s, s, rfl, rfl⟩) fun s => goes_test.bind fun test => ?_
  refine (h.block _ (by omega)).bind fun thenBranch => (h.elifs _ (by omega)).bind fun elifs => ?_
  extract_lets made
  have hmade (room : Nat) (elseBranch : Option (List Content)) : Goes Any room 0 (made elseBranch) :=
    (Goes.consume (by decide)).any.bind fun _ => Goes.lineEnd.bind fun _ => .ite (fun _ => .note .pure) fun _ => .pure
  refine .accept (by decide) ?_ (Goes.pure.bind fun _ => hmade _ _)
  exact Goes.lineEnd.bind fun _ => (h.block _ (by omega)).map.bind fun _ => hmade _ _

theorem elifs_succ (room : Nat) (hfuel : 10 * room ≤ fuel + 1 + 9) :
    Goes Any room 0 (ParseM.elifs node (fuel + 1)) := by
  unfold ParseM.elifs
  refine .kind fun kind => .ite (fun helif => ?_) fun _ => .pure
  refine (Goes.advance (inside_of_ahead (by rw [helif]; decide)) fun opening => goes_test.bind fun test => ?_).any
  exact (h.block _ (by omega)).bind fun content => (h.elifs _ (by omega)).bind fun more => .pure

theorem block_succ (room : Nat) (hfuel : 10 * room ≤ fuel + 1 + 9) :
    Goes Any room 0 (ParseM.block node (fuel + 1)) := by
  unfold ParseM.block
  exact .accept (by decide) (h.items _ 0 (by omega)) .pure

theorem items_succ (room depth : Nat) (hfuel : 10 * room ≤ fuel + 1 + 6) :
    Goes Any room 0 (blockItems node depth (fuel + 1)) := by
  unfold blockItems
  refine .kind fun kind => ?_
  split
  · exact (Goes.past (by decide) (h.items _ _ (by omega))).any
  · refine (Goes.past (by decide) ?_).any
    cases depth with
    | zero => exact .pure
    | succ depth => exact h.items _ depth (by omega)
  · exact (Goes.past (by decide) (h.items _ _ (by omega))).any
  · exact .fail
  · exact .fail
  · next heof _ =>
    have hitem : Goes Inside room 1 (ParseM.content node fuel) := h.content _ (by omega)
    refine ((hitem.weaken (inside_of_ahead heof)).bind fun item => ?_).any
    exact (h.items _ depth (by omega)).bind fun more => .pure

end Ample

theorem ample (node : String) (fuel : Nat) : Ample node fuel := by
  induction fuel with
  | zero =>
    have hnone {α : Type} {P : List Token → Prop} {least room k : Nat} (hk : k < 10) (hroom : 10 * room ≤ 0 + k) :
        Goes P room least (throw .unfinished : ParseM α) := by
      obtain rfl : room = 0 := by omega
      exact .unfinished
    exact ⟨fun _ => hnone (by decide), fun _ => hnone (by decide), fun _ => hnone (by decide),
      fun _ => hnone (by decide), fun _ => hnone (by decide), fun _ _ => hnone (by decide)⟩
  | succ fuel ih =>
    exact ⟨ih.content_succ, ih.choice_succ, ih.condition_succ, ih.elifs_succ, ih.block_succ, ih.items_succ⟩

theorem goes_nodeItems (name : String) (depth fuel room : Nat) (hfuel : 10 * room ≤ fuel + 6) :
    Goes Any room 0 (nodeItems name depth fuel) := by
  induction fuel generalizing room depth with
  | zero =>
    obtain rfl : room = 0 := by omega
    exact .unfinished
  | succ fuel ih =>
    unfold nodeItems
    refine .kind fun kind => ?_
    split
    · exact .pure
    · exact .pure
    · exact (Goes.past (by decide) (ih _ _ (by omega))).any
    · cases depth with
      | zero => exact .fail
      | succ depth => exact (Goes.past (by decide) (ih depth _ (by omega))).any
    · exact (Goes.past (by decide) (ih _ _ (by omega))).any
    · next heof _ _ _ _ =>
      have hitem : Goes Inside room 1 (content name fuel) := (ample name fuel).content _ (by omega)
      refine ((hitem.weaken (inside_of_ahead heof)).bind fun item => ?_).any
      exact (ih depth _ (by omega)).bind fun more => .pure

theorem goes_node (fuel room : Nat) (hfuel : 10 * room ≤ fuel + 6) : Goes Inside room 1 (node fuel) := by
  unfold node
  refine .advance (fun _ hts => hts) fun header => (Goes.consume (by decide)).any.bind fun name => ?_
  refine Goes.lineEnd.bind fun _ => .aside (fun _ => ⟨(), _, rfl, rfl⟩) fun _ => ?_
  exact (goes_nodeItems name.value 0 fuel _ (by omega)).bind fun _ => .pure

theorem goes_nodes (fuel room : Nat) (hfuel : 10 * room ≤ fuel + 5) : Goes Any room 0 (nodes fuel) := by
  induction fuel generalizing room with
  | zero =>
    obtain rfl : room = 0 := by omega
    exact .unfinished
  | succ fuel ih =>
    unfold nodes
    refine .kind fun kind => ?_
    split
    · exact (Goes.past (by decide) (ih _ (by omega))).any
    · exact (Goes.past (by decide) (ih _ (by omega))).any
    · exact .pure
    · have hnode : Goes Inside room 1 (node fuel) := goes_node fuel room (by omega)
      refine ((hnode.weaken (inside_of_ahead (by decide))).bind fun made => .ite (fun _ => ?_) fun _ => ?_).any
      · exact .note (ih _ (by omega))
      · exact (ih _ (by omega)).bind fun more => .pure
    · exact .fail

end ParseM

theorem numbered_terminated {tokens : List Token} (h : Numbered tokens) : Numbered (Reading.terminated tokens) := by
  unfold Reading.terminated
  split
  · exact fun t ht hkind => by simp at ht; subst ht; cases hkind
  · split
    · exact h
    · intro t ht hkind
      rcases List.mem_append.1 ht with ht | ht
      · exact h t ht hkind
      · simp at ht
        subst ht
        cases hkind

/-- A list of tokens is a script, or one of the tokens is not what the grammar asks for. -/
theorem parseTokens_finishes {tokens : List Token} (h : Numbered tokens) {e : ParseError}
    (he : (parseTokens tokens).1 = .error e) : e.IsUnexpected := by
  have hnodes := ParseM.goes_nodes (Reading.patience (Reading.terminated tokens))
    ((Reading.terminated tokens).length + 1) (by rw [Reading.patience]; omega)
  unfold parseTokens at he
  dsimp only at he
  cases hrun : ParseM.nodes (Reading.patience (Reading.terminated tokens)) { rest := Reading.terminated tokens } with
  | ok nodes s => rw [hrun] at he; cases he
  | error e' s =>
    rw [hrun] at he
    cases he
    exact hnodes.faults _ trivial (numbered_terminated h) (Nat.lt_succ_self _) e s hrun

/-- The faults that a source can have: the lexer refuses it, or a token of it is not what the grammar asks for. -/
theorem parseScript_faults {source : String} {e : SourceError} (he : (parseScript source).result = .error e) :
    (∃ lexed, e = .lex lexed) ∨ ∃ line column expected found, e = .parse (.unexpected line column expected found) := by
  unfold parseScript at he
  cases hts : tokens source with
  | error lexed =>
    rw [hts] at he
    cases he
    exact .inl ⟨lexed, rfl⟩
  | ok ts =>
    rw [hts] at he
    have hemits := tokens_eq_ok_iff.mp hts
    have horderly : Orderly false ts := hemits.orderly (fun t ht => by cases ht) nofun
    have hnum : Numbered ts := horderly.numbered
    unfold Parsed.ofTokens at he
    dsimp only at he
    cases hparsed : (parseTokens ts).1 with
    | ok script => rw [hparsed] at he; cases he
    | error e' =>
      rw [hparsed] at he
      cases he
      obtain ⟨line, column, expected, found, rfl⟩ := parseTokens_finishes hnum hparsed
      exact .inr ⟨line, column, expected, found, rfl⟩

end Parley
