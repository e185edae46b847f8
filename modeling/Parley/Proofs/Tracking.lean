import Parley.Proofs.Lockstep
import Parley.Proofs.Numbering

/-! # Parsing two token lists side by side

The parser goes through two lists that go side by side with the same steps. Each of its parts has its lemma: what it
makes of the first list it makes of the second one too, and moves, and the lists still go side by side (`Tracks`). A
part is within a line, or it may be where the first list is over; there it does nothing or fails, except that the
items of a node end at the end of the text as they do before the next header, where empty lines can come first. What
is left out is noted with its line, so the notes are not compared, and neither are the numbers of conditions between
nodes. -/

namespace Parley
namespace ParseM

/-- The token lists of two parsers go side by side. The first is within a line if `inside`, and both have met as many
conditions if `counted`. -/
structure Beside (f : Pos → Pos) (m : Nat) (after : List Token) (n : Nat) (inside counted : Prop) (s s' : ParseState) :
    Prop where
  lockstep : Reading.Lockstep f m after s.rest s'.rest
  room : s.rest.length ≤ n
  inside : inside → (Reading.peek s.rest).kind ≠ .eof
  counted : counted → s'.conditions = s.conditions

/-- The next token is of this kind. -/
def At (kind : TokenKind) (P : ParseState → ParseState → Prop) (s s' : ParseState) : Prop :=
  P s s' ∧ (Reading.peek s.rest).kind = kind

section Tracks
variable {α β : Type} {P Q S : ParseState → ParseState → Prop} {R : α → α → Prop} {R' : β → β → Prop} {x x' : ParseM α}

/-- Where `P` holds, what `x` answers `x'` answers too, related by `R`, and `Q` holds. -/
def Tracks (P Q : ParseState → ParseState → Prop) (R : α → α → Prop) (x x' : ParseM α) : Prop :=
  ∀ s s' a t, P s s' → x s = .ok a t → ∃ a' t', x' s' = .ok a' t' ∧ R a a' ∧ Q t t'

namespace Tracks

theorem bind {k k' : α → ParseM β} (hx : Tracks P Q R x x') (hk : ∀ a a', R a a' → Tracks Q S R' (k a) (k' a')) :
    Tracks P S R' (x >>= k) (x' >>= k') := by
  intro s s' b t hs h
  obtain ⟨a, u, ha, hb⟩ := bind_ok h
  obtain ⟨a', u', ha', hR, hu⟩ := hx s s' a u hs ha
  obtain ⟨b', t', hb', hR', ht⟩ := hk a a' hR u u' b t hu hb
  exact ⟨b', t', by rw [bind_eq_of_ok ha', hb'], hR', ht⟩

theorem pure {a a' : α} (hR : R a a') : Tracks P P R (pure a) (pure a') := by
  rintro s s' b t hs ⟨⟩
  exact ⟨a', s', rfl, hR, hs⟩

theorem fail {expected : String} : Tracks P Q R (ParseM.fail expected) x' := by
  rintro s s' a t hs ⟨⟩

theorem unfinished : Tracks P Q R (throw .unfinished) x' := by
  rintro s s' a t hs ⟨⟩

theorem ite {c : Prop} [Decidable c] {y y' : ParseM α} (hx : c → Tracks P Q R x x') (hy : ¬ c → Tracks P Q R y y') :
    Tracks P Q R (if c then x else y) (if c then x' else y') := by
  split
  · exact hx ‹_›
  · exact hy ‹_›

theorem weaken {P' Q' : ParseState → ParseState → Prop} (h : Tracks P Q R x x') (hP : ∀ s s', P' s s' → P s s')
    (hQ : ∀ s s', Q s s' → Q' s s') : Tracks P' Q' R x x' := by
  intro s s' a t hs hx
  obtain ⟨a', t', hx', hR, ht⟩ := h s s' a t (hP s s' hs) hx
  exact ⟨a', t', hx', hR, hQ t t' ht⟩

/-- What is known about the next token can be forgotten. -/
theorem atKind {kind : TokenKind} (h : Tracks P Q R x x') : Tracks (At kind P) Q R x x' :=
  h.weaken (fun _ _ hs => hs.1) fun _ _ ht => ht

end Tracks
end Tracks

section Steps
variable {α : Type} {f : Pos → Pos} {m n : Nat} {after : List Token} {i j c : Prop} {wanted : TokenKind} {s s' : ParseState}
  {Q : ParseState → ParseState → Prop} {R : α → α → Prop}

theorem Beside.amid (h : Beside f m after n i c s s') (hne : (Reading.peek s.rest).kind ≠ .eof) :
    Reading.Amid f m after n s.rest s'.rest := ⟨h.lockstep, hne, h.room⟩

theorem Beside.mono {k : Nat} (hk : n ≤ k) (hj : j → i) (h : Beside f m after n i c s s') : Beside f m after k j c s s' :=
  ⟨h.lockstep, Nat.le_trans h.room hk, fun hj' => h.inside (hj hj'), h.counted⟩

/-- Past a token that is not the end. A token of a line leaves the lists within it. -/
theorem Beside.skip (h : Beside f m after n i c s s') (hne : (Reading.peek s.rest).kind ≠ .eof)
    (hj : j → (Reading.peek s.rest).kind.isLayout = false) :
    Beside f m after (n - 1) j c { s with rest := Reading.skip s.rest } { s' with rest := Reading.skip s'.rest } := by
  obtain ⟨rest, conditions, notes⟩ := s
  obtain ⟨rest', conditions', notes'⟩ := s'
  obtain ⟨hlists, hroom, -, hcounted⟩ := h
  cases hlists with
  | ends heof _ => exact absurd heof hne
  | @cons t t' ts ts' halike hne hnext hlists =>
    have hskip : Reading.skip (t :: ts) = ts := Reading.skip_cons rfl hne
    have hskip' : Reading.skip (t' :: ts') = ts' := Reading.skip_cons rfl (halike.kind ▸ hne)
    rw [hskip, hskip']
    exact ⟨hlists, Nat.le_sub_one_of_lt hroom, fun hin => hnext (hj hin), hcounted⟩

/-- The next tokens are of one kind, or the first list is over. -/
theorem Beside.kinds (hafter : (Reading.peek after).kind ∈ [TokenKind.eof, .doubleColon]) (h : Beside f m after n i c s s') :
    (Reading.peek s'.rest).kind = (Reading.peek s.rest).kind ∨
      (Reading.peek s.rest).kind = .eof ∧ (Reading.peek s'.rest).kind ∈ [TokenKind.eof, .doubleColon, .newline] := by
  by_cases hne : (Reading.peek s.rest).kind = .eof
  · refine .inr ⟨hne, ?_⟩
    obtain ⟨rest, conditions, notes⟩ := s
    obtain ⟨rest', conditions', notes'⟩ := s'
    have hlists := h.lockstep
    cases hlists with
    | cons _ hno _ _ => exact absurd hne hno
    | ends _ hleads =>
      obtain ⟨blank, rfl, -, hblank⟩ := hleads
      cases blank with
      | nil =>
        simp only [List.mem_cons, List.not_mem_nil, or_false] at hafter
        rcases hafter with hk | hk <;> simp [hk]
      | cons t blank =>
        have hnewline : t.kind = .newline := hblank t (by simp)
        simp [Reading.peek, hnewline]
  · exact .inl (h.amid hne).alike.kind

namespace Tracks

theorem read {r r' : Reading α}
    (h : ∀ ts ts', Reading.Amid f m after n ts ts' → Reading.Mirrors f m after n R (r ts) (r' ts')) :
    Tracks (Beside f m after n True c) (Beside f m after n True c) R (ParseM.read r) (ParseM.read r') := by
  intro s s' a t hs hread
  have hmirrors := h _ _ (hs.amid (hs.inside trivial))
  unfold ParseM.read at hread ⊢
  split at hread
  · next a rest hok =>
    cases hread
    obtain ⟨a', rest', hok', hR, hrest⟩ := hmirrors a rest hok
    rw [hok']
    exact ⟨a', _, rfl, hR, hrest.lockstep, hrest.room, fun _ => hrest.inside, hs.counted⟩
  · cases hread

theorem peekAt (hne : wanted ≠ .eof) {k k' : Token → ParseM α}
    (h : ∀ t t', t.Alike f t' → t.kind = wanted → Tracks (At wanted (Beside f m after n i c)) Q R (k t) (k' t')) :
    Tracks (At wanted (Beside f m after n i c)) Q R (ParseM.peek >>= k) (ParseM.peek >>= k') := by
  rintro s s' a t ⟨hs, rfl⟩ hrun
  exact h _ _ (hs.amid hne).alike rfl s s' a t ⟨hs, rfl⟩ hrun

theorem peek {k k' : Token → ParseM α}
    (h : ∀ t t', t.Alike f t' → t.kind ≠ .eof → Tracks (At t.kind (Beside f m after n True c)) Q R (k t) (k' t')) :
    Tracks (Beside f m after n True c) Q R (ParseM.peek >>= k) (ParseM.peek >>= k') := by
  intro s s' a t hs hrun
  have hne := hs.inside trivial
  exact peekAt hne (fun t t' halike ht => ht ▸ h t t' halike (ht ▸ hne)) s s' a t ⟨hs, rfl⟩ hrun

/-- A kind that is known is found again. -/
theorem kindAt (hne : wanted ≠ .eof) {k k' : TokenKind → ParseM α}
    (h : Tracks (At wanted (Beside f m after n i c)) Q R (k wanted) (k' wanted)) :
    Tracks (At wanted (Beside f m after n i c)) Q R (ParseM.kind >>= k) (ParseM.kind >>= k') := by
  rintro s s' a t ⟨hs, rfl⟩ hrun
  obtain ⟨a', t', hrun', hrest⟩ := h s s' a t ⟨hs, rfl⟩ hrun
  rw [← (hs.amid hne).alike.kind] at hrun'
  exact ⟨a', t', hrun', hrest⟩

theorem kind {k k' : TokenKind → ParseM α}
    (h : ∀ kind, kind ≠ .eof → Tracks (At kind (Beside f m after n True c)) Q R (k kind) (k' kind)) :
    Tracks (Beside f m after n True c) Q R (ParseM.kind >>= k) (ParseM.kind >>= k') := by
  intro s s' a t hs hrun
  have hne := hs.inside trivial
  exact kindAt hne (h _ hne) s s' a t ⟨hs, rfl⟩ hrun

theorem get {P : ParseState → ParseState → Prop} {k k' : ParseState → ParseM α}
    (h : ∀ s s', P s s' → Tracks P Q R (k s) (k' s')) : Tracks P Q R (MonadState.get >>= k) (MonadState.get >>= k') :=
  fun s s' a t hs hrun => h s s' hs s s' a t hs hrun

theorem modify {P : ParseState → ParseState → Prop} {g g' : ParseState → ParseState}
    (h : ∀ s s', P s s' → Q (g s) (g' s')) :
    Tracks P Q (fun _ _ => True) (modify g : ParseM PUnit) (modify g') := by
  rintro s s' a t hs ⟨⟩
  exact ⟨_, _, rfl, trivial, h s s' hs⟩

/-- One token less is left. -/
theorem advanceOne (hne : wanted ≠ .eof) (hj : j → wanted.isLayout = false) {k k' : Token → ParseM α}
    (h : ∀ t t', t.Alike f t' → t.kind = wanted → Tracks (Beside f m after (n - 1) j c) Q R (k t) (k' t')) :
    Tracks (At wanted (Beside f m after n i c)) Q R (ParseM.advance >>= k) (ParseM.advance >>= k') := by
  rintro s s' a t ⟨hs, rfl⟩ hrun
  exact h _ _ (hs.amid hne).alike rfl _ _ a t (hs.skip hne hj) hrun

theorem advance (hne : wanted ≠ .eof) (hj : j → wanted.isLayout = false) {k k' : Token → ParseM α}
    (h : ∀ t t', t.Alike f t' → t.kind = wanted → Tracks (Beside f m after n j c) Q R (k t) (k' t')) :
    Tracks (At wanted (Beside f m after n i c)) Q R (ParseM.advance >>= k) (ParseM.advance >>= k') :=
  advanceOne hne hj fun t t' halike ht =>
    (h t t' halike ht).weaken (fun _ _ hs => hs.mono (Nat.sub_le n 1) id) fun _ _ h => h

theorem consume (hne : wanted ≠ .eof) (hj : j → wanted.isLayout = false) (expected : String) :
    Tracks (Beside f m after n i c) (Beside f m after n j c) (Token.Alike f) (ParseM.consume wanted expected)
      (ParseM.consume wanted expected) := by
  intro s s' a t hs hrun
  unfold ParseM.consume ParseM.read Reading.consume at hrun ⊢
  by_cases hsees : Reading.sees s.rest wanted = true
  · have hpeek : (Reading.peek s.rest).kind = wanted := by simpa [Reading.sees] using hsees
    subst hpeek
    rw [if_pos hsees] at hrun
    rw [(hs.amid hne).sees, if_pos hsees]
    cases hrun
    exact ⟨_, _, rfl, (hs.amid hne).alike, (hs.skip hne hj).mono (Nat.sub_le n 1) id⟩
  · rw [if_neg hsees] at hrun
    cases hrun

theorem accept (hafter : (Reading.peek after).kind ∈ [TokenKind.eof, .doubleColon])
    (hkind : wanted ∉ [TokenKind.eof, .doubleColon, .newline]) (hj : j → wanted.isLayout = false) {k k' : Bool → ParseM α}
    (htaken : Tracks (Beside f m after n j c) Q R (k true) (k' true))
    (hleft : Tracks (Beside f m after n i c) Q R (k false) (k' false)) :
    Tracks (Beside f m after n i c) Q R (ParseM.accept wanted >>= k) (ParseM.accept wanted >>= k') := by
  intro s s' a t hs h
  rw [accept_bind] at h ⊢
  have hkinds := hs.kinds hafter
  by_cases hpeek : (Reading.peek s.rest).kind = wanted
  · have hne : (Reading.peek s.rest).kind ≠ .eof := by
      rw [hpeek]
      rintro rfl
      simp at hkind
    rw [if_pos hpeek] at h
    rw [if_pos ((hs.amid hne).alike.kind.trans hpeek)]
    exact htaken _ _ a t ((hs.skip hne fun hin => hpeek ▸ hj hin).mono (Nat.sub_le n 1) id) h
  · rw [if_neg hpeek] at h
    have hpeek' : (Reading.peek s'.rest).kind ≠ wanted := by
      rcases hkinds with hsame | ⟨-, hmem⟩
      · rw [hsame]
        exact hpeek
      · rintro rfl
        exact hkind hmem
    rw [if_neg hpeek']
    exact hleft s s' a t hs h

/-- Within a line both ways go on within it. -/
theorem acceptWithin (hafter : (Reading.peek after).kind ∈ [TokenKind.eof, .doubleColon])
    (hkind : wanted ∉ [TokenKind.eof, .doubleColon, .newline]) (hline : wanted.isLayout = false) {k k' : Bool → ParseM α}
    (h : ∀ b, Tracks (Beside f m after n True c) Q R (k b) (k' b)) :
    Tracks (Beside f m after n True c) Q R (ParseM.accept wanted >>= k) (ParseM.accept wanted >>= k') :=
  .accept hafter hkind (fun _ => hline) (h true) (h false)

/-- Where the lists may be over, they are within a line after the token. -/
theorem acceptThen (hafter : (Reading.peek after).kind ∈ [TokenKind.eof, .doubleColon])
    (hkind : wanted ∉ [TokenKind.eof, .doubleColon, .newline]) (hline : wanted.isLayout = false) {k k' : Bool → ParseM α}
    (h : ∀ b, Tracks (Beside f m after n (b = true) c) Q R (k b) (k' b)) :
    Tracks (Beside f m after n False c) Q R (ParseM.accept wanted >>= k) (ParseM.accept wanted >>= k') :=
  .accept hafter hkind (fun _ => hline) (h true)
    ((h false).weaken (fun _ _ hs => hs.mono (Nat.le_refl n) nofun) fun _ _ h => h)

/-- Where the lists may be over, the second one may go on with a header or an empty line. -/
theorem kindOrEnd (hafter : (Reading.peek after).kind ∈ [TokenKind.eof, .doubleColon]) {k k' : TokenKind → ParseM α}
    (h : ∀ kind, kind ≠ .eof → Tracks (At kind (Beside f m after n i c)) Q R (k kind) (k' kind))
    (hend : ∀ kind ∈ [TokenKind.eof, .doubleColon, .newline], Tracks (Beside f m after n i c) Q R (k .eof) (k' kind)) :
    Tracks (Beside f m after n i c) Q R (ParseM.kind >>= k) (ParseM.kind >>= k') := by
  intro s s' a t hs hrun
  by_cases hne : (Reading.peek s.rest).kind = .eof
  · have hmem : (Reading.peek s'.rest).kind ∈ [TokenKind.eof, .doubleColon, .newline] := by
      rcases hs.kinds hafter with hsame | ⟨-, hmem⟩
      · rw [hsame, hne]
        decide
      · exact hmem
    have hrun : k (Reading.peek s.rest).kind s = .ok a t := hrun
    rw [hne] at hrun
    exact hend _ hmem s s' a t hs hrun
  · exact kindAt hne (h _ hne) s s' a t ⟨hs, rfl⟩ hrun

theorem byEnd {x x' : ParseM α} (h : Tracks (Beside f m after n True c) Q R x x')
    (hend : Tracks (At .eof (Beside f m after n i c)) Q R x x') : Tracks (Beside f m after n i c) Q R x x' := by
  intro s s' a t hs hrun
  by_cases hne : (Reading.peek s.rest).kind = .eof
  · exact hend s s' a t ⟨hs, hne⟩ hrun
  · exact h s s' a t ⟨hs.lockstep, hs.room, fun _ => hne, hs.counted⟩ hrun

end Tracks
end Steps

section Lines
variable {f : Pos → Pos} {m n : Nat} {after : List Token} {i c : Prop}

theorem tracks_lineEnd : Tracks (Beside f m after n True c) (Beside f m after n False c) (fun _ _ => True) lineEnd lineEnd :=
  .kind fun _ hne => .ite (fun heof => absurd heof hne) fun _ =>
    (Tracks.consume (by decide) nofun _).atKind.bind fun _ _ _ => .pure trivial

theorem tracks_note (a b : ParseNote) :
    Tracks (Beside f m after n i c) (Beside f m after n i c) (fun _ _ => True) (note a) (note b) :=
  .modify fun _ _ h => ⟨h.lockstep, h.room, h.inside, h.counted⟩

theorem tracks_expression : Tracks (Beside f m after n True c) (Beside f m after n True c)
    (fun e e' => e' = e.relocate f) (read Reading.expression) (read Reading.expression) :=
  .read fun _ _ => Reading.mirrors_expression

theorem tracks_text : Tracks (Beside f m after n True c) (Beside f m after n True c)
    (fun text text' => text' = relocateText f text) (read Reading.text) (read Reading.text) :=
  .read fun _ _ => Reading.mirrors_text

theorem tracks_test : Tracks (Beside f m after n True c) (Beside f m after n False c)
    (fun e e' => e' = e.relocate f) test test := by
  refine tracks_expression.bind ?_
  rintro e - rfl
  exact tracks_lineEnd.bind fun _ _ _ => .pure rfl

theorem tracks_lineBody : Tracks (Beside f m after n True c) (Beside f m after n False c)
    (fun body body' => body' = (relocateText f body.1, body.2)) lineBody lineBody := by
  refine tracks_text.bind ?_
  rintro text - rfl
  refine (Tracks.read (R := Eq) fun _ _ => Reading.mirrors_tags).bind ?_
  rintro tags - rfl
  exact tracks_lineEnd.bind fun _ _ _ => .pure rfl

theorem tracks_narration {kind : TokenKind} (hline : kind.isLayout = false) :
    Tracks (At kind (Beside f m after n True c)) (Beside f m after n False c)
      (fun made made' => made' = made.map (Content.relocate f)) narration narration := by
  have hne : kind ≠ .eof := by
    rintro rfl
    cases hline
  refine .peekAt hne fun start start' halike hstart => ?_
  refine tracks_lineBody.atKind.bind ?_
  rintro ⟨text, tags⟩ - rfl
  refine .pure ?_
  dsimp only
  rw [isBlankText_relocateText, halike.pos (hstart ▸ hline)]
  split <;> rfl

variable (hafter : (Reading.peek after).kind ∈ [TokenKind.eof, .doubleColon])
include hafter

theorem tracks_guard : Tracks (Beside f m after n True c) (Beside f m after n True c)
    (fun guard guard' => guard' = guard.map (Expr.relocate f)) guard guard := by
  refine .accept (j := True) hafter (by decide) (fun _ => rfl) ?_ (.pure rfl)
  refine (Tracks.consume (j := True) (by decide) (fun _ => rfl) _).bind fun _ _ _ => tracks_expression.bind ?_
  rintro e - rfl
  exact (Tracks.consume (by decide) (fun _ => rfl) _).bind fun _ _ _ => .pure rfl

theorem tracks_commandAfter {t t' : Token} (halike : t.Alike f t') :
    Tracks (Beside f m after n True c) (Beside f m after n True c) (fun made made' => made' = made.relocate f)
      (commandAfter t) (commandAfter t') := by
  unfold commandAfter
  rw [halike.kind, halike.value]
  split
  · refine (Tracks.consume (by decide) (fun _ => rfl) _).bind fun target target' htarget => .pure ?_
    rw [htarget.value]
    rfl
  · refine (Tracks.consume (j := True) (by decide) (fun _ => rfl) _).bind fun name name' hname => ?_
    rw [hname.value]
    refine .accept (j := True) hafter (by decide) (fun _ => rfl) ?_ (.pure rfl)
    refine (Tracks.read (R := fun es es' => es' = relocateAll f es) fun _ _ => Reading.mirrors_arguments).bind ?_
    rintro args - rfl
    exact .pure rfl
  · refine tracks_expression.bind ?_
    rintro e - rfl
    exact .pure rfl
  · refine (Tracks.consume (j := True) (by decide) (fun _ => rfl) _).bind fun target target' htarget => ?_
    rw [htarget.value]
    have hvalue : Tracks (Beside f m after n True c) (Beside f m after n True c)
        (fun made made' => made' = Command.relocate f made)
        (do return .assign target.value (varOp t.kind) (← read Reading.expression))
        (do return .assign target.value (varOp t.kind) (← read Reading.expression)) := by
      refine tracks_expression.bind ?_
      rintro e - rfl
      exact .pure rfl
    exact .accept (j := True) hafter (by decide) (fun _ => rfl) hvalue hvalue

theorem tracks_command {kind : TokenKind} (hline : kind.isLayout = false) :
    Tracks (At kind (Beside f m after n True c)) (Beside f m after n False c)
      (fun made made' => made' = made.relocate f) command command := by
  have hne : kind ≠ .eof := by
    rintro rfl
    cases hline
  refine .advance (j := True) hne (fun _ => hline) fun t t' halike ht => (tracks_commandAfter hafter halike).bind ?_
  rintro made - rfl
  refine tracks_lineEnd.bind fun _ _ _ => .pure ?_
  rw [halike.pos (ht ▸ hline)]
  rfl

theorem tracks_dialogue {kind : TokenKind} (hline : kind.isLayout = false) :
    Tracks (At kind (Beside f m after n True c)) (Beside f m after n False c)
      (fun made made' => made' = made.map (Content.relocate f)) dialogue dialogue := by
  have hne : kind ≠ .eof := by
    rintro rfl
    cases hline
  unfold dialogue
  refine .advance (j := True) hne (fun _ => hline) fun t t' halike ht => ?_
  have hpos := halike.pos (ht ▸ hline)
  refine .acceptWithin hafter (by decide) rfl fun bracket => ?_
  -- whatever the emotion is, the rest of the line is read the same way
  extract_lets line closed line' closed'
  have hline (emotion : Option String) : Tracks (Beside f m after n True c) (Beside f m after n False c)
      (fun made made' => made' = made.map (Content.relocate f)) (line () emotion) (line' () emotion) := by
    refine (Tracks.consume (j := True) (by decide) (fun _ => rfl) _).bind fun _ _ _ => tracks_lineBody.bind ?_
    rintro ⟨text, tags⟩ - rfl
    dsimp only
    rw [isBlankText_relocateText, halike.value, hpos]
    exact .ite (fun _ => (tracks_note _ _).bind fun _ _ _ => .pure rfl) fun _ => .pure rfl
  have hclosed (emotion : Option String) : Tracks (Beside f m after n True c) (Beside f m after n False c)
      (fun made made' => made' = made.map (Content.relocate f)) (closed () emotion) (closed' () emotion) :=
    (Tracks.consume (j := True) (by decide) (fun _ => rfl) _).bind fun _ _ _ => hline emotion
  refine .ite (fun _ => .kind fun first hne => .kindAt hne (.ite (fun hword => ?_) fun _ => ?_)) fun _ => hline none
  · have hinline : first.isLayout = false := by rcases hword with rfl | rfl <;> rfl
    refine .advance (j := True) hne (fun _ => hinline) fun t t' halike _ => ?_
    rw [halike.value]
    exact hclosed _
  · exact (hclosed none).atKind

theorem tracks_textLine {first first' : Token} (halike : first.Alike f first') :
    Tracks (At first.kind (Beside f m after n True c)) (Beside f m after n False c)
      (fun made made' => made' = made.map (Content.relocate f)) (textLine first) (textLine first') := by
  unfold textLine
  refine .get fun s s' ⟨hs, hfirst⟩ => ?_
  -- a token of a line has another one after it
  have hsecond (hline : first.kind.isLayout = false) :
      (Reading.peekSecond s'.rest).kind = (Reading.peekSecond s.rest).kind :=
    ((hs.amid (hs.inside trivial)).second (hfirst ▸ hline)).kind
  dsimp only
  rw [halike.kind]
  split
  · next hkind =>
    have hline : first.kind.isLayout = false := by rw [hkind]; rfl
    rw [hsecond hline, hkind]
    exact .ite (fun _ => tracks_dialogue hafter rfl) fun _ => tracks_narration rfl
  · next hkind =>
    have hline : first.kind.isLayout = false := by rw [hkind]; rfl
    rw [hsecond hline, hkind]
    exact .ite (fun _ => tracks_dialogue hafter rfl) fun _ => tracks_narration rfl
  · next hkind =>
    rw [hkind]
    exact tracks_narration rfl
  · next hkind =>
    rw [hkind]
    exact tracks_narration rfl
  · exact .fail

end Lines

/-- With this many calls the parts of a node are tracked. -/
structure Tracked (f : Pos → Pos) (m : Nat) (after : List Token) (n : Nat) (node : String) (fuel : Nat) : Prop where
  content {fuel' : Nat} : fuel ≤ fuel' → Tracks (Beside f m after n True True) (Beside f m after n False True)
    (fun made made' => made' = made.map (Content.relocate f)) (content node fuel) (content node fuel')
  choice {fuel' : Nat} : fuel ≤ fuel' → Tracks (At .arrow (Beside f m after n True True)) (Beside f m after n False True)
    (fun made made' => made' = made.map (Content.relocate f)) (choice node fuel) (choice node fuel')
  condition {fuel' : Nat} : fuel ≤ fuel' → Tracks (At .ifWord (Beside f m after n True True))
    (Beside f m after n False True) (fun made made' => made' = made.map (Content.relocate f)) (condition node fuel)
    (condition node fuel')
  elifs {fuel' : Nat} : fuel ≤ fuel' → Tracks (Beside f m after n False True) (Beside f m after n False True)
    (fun made made' => made' = relocateBranches f made) (elifs node fuel) (elifs node fuel')
  block {fuel' : Nat} : fuel ≤ fuel' → Tracks (Beside f m after n False True) (Beside f m after n False True)
    (fun made made' => made' = relocateContents f made) (block node fuel) (block node fuel')
  items (depth : Nat) {fuel' : Nat} : fuel ≤ fuel' →
    Tracks (Beside f m after n False True) (Beside f m after n False True)
      (fun made made' => made' = relocateContents f made) (blockItems node depth fuel) (blockItems node depth fuel')

section Nodes
variable {f : Pos → Pos} {m n fuel fuel' : Nat} {after : List Token} {node : String}

theorem relocate_item (item : Option Content) (more : List Content) :
    relocateContents f (item.toList ++ more) = (item.map (Content.relocate f)).toList ++ relocateContents f more := by
  cases item <;> rfl

namespace Tracked
variable (hafter : (Reading.peek after).kind ∈ [TokenKind.eof, .doubleColon]) (ih : Tracked f m after n node fuel)
  (hfuel : fuel ≤ fuel')
include hafter ih hfuel

theorem content_succ : Tracks (Beside f m after n True True) (Beside f m after n False True)
    (fun made made' => made' = made.map (Content.relocate f)) (ParseM.content node (fuel + 1))
    (ParseM.content node (fuel' + 1)) := by
  refine .peek fun t t' halike hne => ?_
  rw [halike.kind]
  generalize hkind : t.kind = kind at hne ⊢
  split
  · exact ih.choice hfuel
  · exact ih.condition hfuel
  · refine .ite (fun hcommand => ?_) fun _ => hkind ▸ tracks_textLine hafter halike
    have hline : kind.isLayout = false := by cases kind <;> first | rfl | cases hcommand
    rw [map_eq_pure_bind]
    refine (tracks_command hafter hline).bind ?_
    rintro made - rfl
    exact .pure rfl

theorem choice_succ : Tracks (At .arrow (Beside f m after n True True)) (Beside f m after n False True)
    (fun made made' => made' = made.map (Content.relocate f)) (ParseM.choice node (fuel + 1))
    (ParseM.choice node (fuel' + 1)) := by
  refine .advance (j := True) (by decide) (fun _ => rfl) fun t t' halike ht => ?_
  refine tracks_text.bind ?_
  rintro text - rfl
  refine (tracks_guard hafter).bind ?_
  rintro guard - rfl
  refine tracks_lineEnd.bind fun _ _ _ => (ih.block hfuel).bind ?_
  rintro content - rfl
  rw [isBlankText_relocateText, isEmpty_relocateContents]
  refine .ite (fun _ => (tracks_note _ _).bind fun _ _ _ => .pure rfl) fun _ => .pure ?_
  rw [halike.pos (by rw [ht]; rfl)]
  rfl

theorem condition_succ : Tracks (At .ifWord (Beside f m after n True True)) (Beside f m after n False True)
    (fun made made' => made' = made.map (Content.relocate f)) (ParseM.condition node (fuel + 1))
    (ParseM.condition node (fuel' + 1)) := by
  unfold ParseM.condition
  refine .advance (j := True) (by decide) (fun _ => rfl) fun t t' halike ht => ?_
  have hcount : Tracks (Beside f m after n True True) (Beside f m after n True True) (fun _ _ => True)
      (modify fun s => { s with conditions := s.conditions + 1 })
      (modify fun s => { s with conditions := s.conditions + 1 }) :=
    .modify fun s s' hs => ⟨hs.lockstep, hs.room, hs.inside, fun h => congrArg (· + 1) (hs.counted h)⟩
  refine hcount.bind fun _ _ _ => .get fun s s' hs => ?_
  rw [hs.counted trivial]
  refine tracks_test.bind ?_
  rintro test - rfl
  refine (ih.block hfuel).bind ?_
  rintro thenBranch - rfl
  refine (ih.elifs hfuel).bind ?_
  rintro elifs - rfl
  refine .acceptThen hafter (by decide) rfl fun isElse => ?_
  extract_lets finish finish'
  have hfinish (elseBranch : Option (List Content)) : Tracks (Beside f m after n False True) (Beside f m after n False True)
      (fun made made' => made' = made.map (Content.relocate f)) (finish elseBranch)
      (finish' (elseBranch.map (relocateContents f))) := by
    refine (Tracks.consume (j := True) (by decide) (fun _ => rfl) _).bind fun _ _ _ =>
      tracks_lineEnd.bind fun _ _ _ => ?_
    have hmade : (⟨test.relocate f, relocateContents f thenBranch, relocateBranches f elifs,
        elseBranch.map (relocateContents f), ⟨node, s.conditions⟩, t'.pos⟩ : Condition) =
        Condition.relocate f ⟨test, thenBranch, elifs, elseBranch, ⟨node, s.conditions⟩, t.pos⟩ := by
      rw [halike.pos (by rw [ht]; rfl)]
      cases elseBranch <;> rfl
    dsimp only
    rw [hmade, Condition.isEmpty_relocate]
    exact .ite (fun _ => (tracks_note _ _).bind fun _ _ _ => .pure rfl) fun _ => .pure rfl
  refine .ite (fun hb => ?_) fun hb => ?_
  · rw [map_eq_pure_bind, map_eq_pure_bind, bind_assoc, bind_assoc]
    have hline : Tracks (Beside f m after n (isElse = true) True) (Beside f m after n False True) (fun _ _ => True)
        lineEnd lineEnd :=
      tracks_lineEnd.weaken (fun _ _ hs => hs.mono (Nat.le_refl n) fun _ => hb) fun _ _ h => h
    refine hline.bind fun _ _ _ => (ih.block hfuel).bind ?_
    rintro content - rfl
    exact hfinish (some content)
  · exact (hfinish none).weaken (fun _ _ hs => hs.mono (Nat.le_refl n) False.elim) fun _ _ h => h

theorem elifs_succ : Tracks (Beside f m after n False True) (Beside f m after n False True)
    (fun made made' => made' = relocateBranches f made) (ParseM.elifs node (fuel + 1)) (ParseM.elifs node (fuel' + 1)) := by
  refine .kindOrEnd hafter (fun kind hne => .ite (fun hkind => ?_) fun _ => ?_) fun kind hkind => ?_
  · subst hkind
    refine .advance (j := True) (by decide) (fun _ => rfl) fun t t' halike ht => ?_
    refine tracks_test.bind ?_
    rintro test - rfl
    refine (ih.block hfuel).bind ?_
    rintro content - rfl
    refine (ih.elifs hfuel).bind ?_
    rintro more - rfl
    refine .pure ?_
    rw [halike.pos (by rw [ht]; rfl)]
    rfl
  · exact .atKind (.pure rfl)
  · rw [if_neg (by decide), if_neg (by rintro rfl; revert hkind; decide)]
    exact .pure rfl

theorem block_succ : Tracks (Beside f m after n False True) (Beside f m after n False True)
    (fun made made' => made' = relocateContents f made) (ParseM.block node (fuel + 1)) (ParseM.block node (fuel' + 1)) :=
  .accept (j := False) hafter (by decide) nofun (ih.items 0 hfuel) (.pure rfl)

theorem items_succ (depth : Nat) : Tracks (Beside f m after n False True) (Beside f m after n False True)
    (fun made made' => made' = relocateContents f made) (ParseM.blockItems node depth (fuel + 1))
    (ParseM.blockItems node depth (fuel' + 1)) := by
  unfold ParseM.blockItems
  refine .kindOrEnd hafter (fun kind hne => ?_) fun kind _ => .fail
  split
  · exact .advance (j := False) (by decide) False.elim fun _ _ _ _ => ih.items _ hfuel
  · refine .advance (j := False) (by decide) False.elim fun _ _ _ _ => ?_
    split
    · exact .pure rfl
    · exact ih.items _ hfuel
  · exact .advance (j := False) (by decide) False.elim fun _ _ _ _ => ih.items _ hfuel
  · exact .fail
  · exact .fail
  · have hitem : Tracks (At kind (Beside f m after n False True)) (Beside f m after n False True)
        (fun made made' => made' = made.map (Content.relocate f)) (ParseM.content node fuel) (ParseM.content node fuel') :=
      (ih.content hfuel).weaken
        (fun _ _ hs => ⟨hs.1.lockstep, hs.1.room, fun _ => hs.2 ▸ hne, hs.1.counted⟩) fun _ _ h => h
    refine hitem.bind ?_
    rintro item - rfl
    refine (ih.items depth hfuel).bind ?_
    rintro more - rfl
    exact .pure (relocate_item item more).symm

end Tracked

section After
variable (hafter : (Reading.peek after).kind ∈ [TokenKind.eof, .doubleColon])
include hafter

theorem tracked (node : String) (fuel : Nat) : Tracked f m after n node fuel := by
  have hsucc {fuel fuel' : Nat} (hfuel : fuel + 1 ≤ fuel') : ∃ more, fuel' = more + 1 ∧ fuel ≤ more :=
    ⟨fuel' - 1, by omega, by omega⟩
  induction fuel with
  | zero => exact ⟨fun _ => .unfinished, fun _ => .unfinished, fun _ => .unfinished, fun _ => .unfinished,
      fun _ => .unfinished, fun _ _ _ => .unfinished⟩
  | succ fuel ih =>
    constructor
    case items =>
      intro depth fuel' hfuel
      obtain ⟨fuel', rfl, hle⟩ := hsucc hfuel
      exact ih.items_succ hafter hle depth
    all_goals
      intro fuel' hfuel
      obtain ⟨fuel', rfl, hle⟩ := hsucc hfuel
    · exact ih.content_succ hafter hle
    · exact ih.choice_succ hafter hle
    · exact ih.condition_succ hafter hle
    · exact ih.elifs_succ hafter hle
    · exact ih.block_succ hafter hle

/-- Where the first list is over, the items of a node are over after the empty lines of the second. -/
theorem nodeItems_leads {ts : List Token} (hleads : Reading.Leads m after ts) (hfuel : m < fuel) (depth conditions : Nat)
    (notes : List ParseNote) :
    ∃ ts', Reading.Leads m after ts' ∧
      nodeItems node depth fuel ⟨ts, conditions, notes⟩ = .ok [] ⟨ts', conditions, notes⟩ := by
  obtain ⟨blank, rfl, hlength, hblank⟩ := hleads
  refine ⟨after, ⟨[], rfl, Nat.zero_le m, nofun⟩, ?_⟩
  induction blank generalizing fuel m with
  | nil =>
    obtain ⟨fuel, rfl⟩ : ∃ k, fuel = k + 1 := Nat.exists_eq_add_of_le' (by omega)
    have hkind : kind ⟨after, conditions, notes⟩ = .ok (Reading.peek after).kind ⟨after, conditions, notes⟩ := rfl
    unfold nodeItems
    rw [List.nil_append, bind_eq_of_ok hkind]
    simp only [List.mem_cons, List.not_mem_nil, or_false] at hafter
    rcases hafter with hend | hend <;> rw [hend] <;> rfl
  | cons t blank ih =>
    simp only [List.length_cons, List.mem_cons, forall_eq_or_imp] at hlength hblank
    obtain ⟨fuel, rfl⟩ : ∃ k, fuel = k + 1 := Nat.exists_eq_add_of_le' (by omega)
    have hkind : kind ⟨t :: blank ++ after, conditions, notes⟩ = .ok .newline ⟨t :: blank ++ after, conditions, notes⟩ := by
      rw [← hblank.1]
      rfl
    have hskip : advance ⟨t :: blank ++ after, conditions, notes⟩ = .ok t ⟨blank ++ after, conditions, notes⟩ := by
      unfold advance
      rw [List.cons_append, Reading.skip_cons hblank.1 (by decide)]
      rfl
    unfold nodeItems
    rw [bind_eq_of_ok hkind]
    dsimp only
    rw [bind_eq_of_ok hskip]
    exact ih (m := m - 1) (by omega) (by omega) hblank.2

theorem tracks_nodeItems (depth : Nat) (hfuel : fuel + m ≤ fuel') :
    Tracks (Beside f m after n False True) (Beside f m after n False True)
      (fun made made' => made' = relocateContents f made) (nodeItems node depth fuel) (nodeItems node depth fuel') := by
  induction fuel generalizing fuel' depth with
  | zero => exact .unfinished
  | succ fuel ih =>
    obtain ⟨fuel', rfl⟩ : ∃ k, fuel' = k + 1 := Nat.exists_eq_add_of_le' (by omega)
    refine .byEnd ?_ ?_
    · refine .kind fun kind hne => ?_
      split
      · exact absurd rfl hne
      · have hdone : Tracks (Beside f m after n False True) (Beside f m after n False True)
            (fun made made' => made' = relocateContents f made) (pure []) (pure []) := .pure rfl
        exact .atKind (hdone.weaken (fun _ _ hs => hs.mono (Nat.le_refl n) False.elim) fun _ _ h => h)
      · exact .advance (j := False) (by decide) False.elim fun _ _ _ _ => ih _ (by omega)
      · split
        · exact .fail
        · exact .advance (j := False) (by decide) False.elim fun _ _ _ _ => ih _ (by omega)
      · exact .advance (j := False) (by decide) False.elim fun _ _ _ _ => ih _ (by omega)
      · refine ((tracked hafter node fuel).content (by omega : fuel ≤ fuel')).atKind.bind ?_
        rintro item - rfl
        refine (ih depth (by omega)).bind ?_
        rintro more - rfl
        exact .pure (relocate_item item more).symm
    · rintro s s' made t ⟨hs, heof⟩ hrun
      have hkind : kind s = .ok .eof s := by
        rw [← heof]
        rfl
      unfold nodeItems at hrun
      rw [bind_eq_of_ok hkind] at hrun
      cases hrun
      obtain ⟨ts', hleads, hrun'⟩ := nodeItems_leads hafter (hs.lockstep.leads heof)
        (by omega : m < fuel' + 1) depth s'.conditions s'.notes
      obtain ⟨last, hrest, hlast⟩ := hs.lockstep.last heof
      exact ⟨[], _, hrun', rfl, ⟨hrest ▸ .ends hlast hleads, hs.room, False.elim, hs.counted⟩⟩

theorem tracks_node (hfuel : fuel + m ≤ fuel') :
    Tracks (At .doubleColon (Beside f m after n True False)) (Beside f m after (n - 1) False False)
      (fun made made' => made' = made.relocate f) (ParseM.node fuel) (ParseM.node fuel') := by
  refine .advanceOne (j := True) (by decide) (fun _ => rfl) fun t t' halike ht => ?_
  refine (Tracks.consume (j := True) (by decide) (fun _ => rfl) _).bind fun name name' hname => ?_
  rw [hname.value]
  have hcount : Tracks (Beside f m after (n - 1) False False) (Beside f m after (n - 1) False True) (fun _ _ => True)
      (modify fun s => { s with conditions := 0 }) (modify fun s => { s with conditions := 0 }) :=
    .modify fun s s' hs => ⟨hs.lockstep, hs.room, hs.inside, fun _ => rfl⟩
  refine tracks_lineEnd.bind fun _ _ _ => hcount.bind fun _ _ _ => ?_
  have hitems : Tracks (Beside f m after (n - 1) False True) (Beside f m after (n - 1) False False)
      (fun made made' => made' = relocateContents f made) (nodeItems name.value 0 fuel) (nodeItems name.value 0 fuel') :=
    (tracks_nodeItems hafter 0 hfuel).weaken (fun _ _ h => h) fun _ _ ht => ⟨ht.lockstep, ht.room, nofun, nofun⟩
  refine hitems.bind ?_
  rintro content - rfl
  refine .pure ?_
  rw [halike.pos (by rw [ht]; rfl)]
  rfl

/-- The nodes of the first list come first, and then those that the parser makes of what follows it. -/
theorem tracks_nodes {bound : Nat} {more : List Node} (hfuel : fuel + m ≤ fuel') (hbound : n + bound ≤ fuel')
    (hmore : ∀ calls ts conditions notes, bound ≤ calls → Reading.Leads m after ts →
      ∃ t, nodes calls ⟨ts, conditions, notes⟩ = .ok more t) :
    Tracks (Beside f m after (n + 1) False False) (fun _ _ => True)
      (fun made made' => made' = made.map (Node.relocate f) ++ more) (nodes fuel) (nodes fuel') := by
  induction fuel generalizing fuel' n with
  | zero => exact .unfinished
  | succ fuel ih =>
    obtain ⟨fuel', rfl⟩ : ∃ k, fuel' = k + 1 := Nat.exists_eq_add_of_le' (by omega)
    -- a token that is taken leaves at least the end
    have hnext {Q R} {x x' : ParseM (List Node)} (h : ∀ k, n = k + 1 → Tracks (Beside f m after n False False) Q R x x') :
        Tracks (Beside f m after n False False) Q R x x' := by
      intro s s' made t hs hrun
      have hroom := hs.room
      have : s.rest ≠ [] := by
        rintro hnil
        have hlists := hs.lockstep
        rw [hnil] at hlists
        cases hlists
      obtain ⟨k, rfl⟩ : ∃ k, n = k + 1 := Nat.exists_eq_add_of_le' (Nat.le_trans (List.length_pos_iff.mpr this) hroom)
      exact h k rfl s s' made t hs hrun
    refine .byEnd ?_ ?_
    · refine .kind fun kind hne => ?_
      split
      · refine .advanceOne (j := False) (by decide) nofun fun _ _ _ _ => hnext ?_
        rintro k rfl
        exact ih (by omega) (by omega)
      · refine .advanceOne (j := False) (by decide) nofun fun _ _ _ _ => hnext ?_
        rintro k rfl
        exact ih (by omega) (by omega)
      · exact absurd rfl hne
      · refine (tracks_node hafter (by omega)).bind ?_
        rintro made - rfl
        refine hnext ?_
        rintro k rfl
        have hempty : (Node.relocate f made).content.isEmpty = made.content.isEmpty := isEmpty_relocateContents _
        rw [hempty]
        refine .ite (fun _ => ?_) fun _ => ?_
        · exact (tracks_note _ _).bind fun _ _ _ => ih (by omega) (by omega)
        · refine (ih (by omega) (by omega)).bind ?_
          rintro rest - rfl
          exact .pure rfl
      · exact .fail
    · rintro s s' made t ⟨hs, heof⟩ hrun
      have hkind : kind s = .ok .eof s := by
        rw [← heof]
        rfl
      rw [nodes, bind_eq_of_ok hkind] at hrun
      cases hrun
      obtain ⟨t', hrun'⟩ := hmore (fuel' + 1) s'.rest s'.conditions s'.notes (by omega) (hs.lockstep.leads heof)
      exact ⟨more, t', hrun', rfl, trivial⟩

end After
end Nodes
end ParseM
end Parley
