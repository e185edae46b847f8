import Parley.Proofs.ParsedLines

/-! # Blocks as the parser sees them

The parser counts the blocks that are open inside a node or inside a block, each call for itself. Its counts agree with
the levels that the lexer has opened: a line of content, with the blocks below it, leaves the open levels as they are
(`KeepsBlocks`), the items of a block go on until the level that was innermost at first is closed, and stop there
(`Shuts`), and the items of a node count all levels that are open (`Deep`). So a block is never closed where none is
open, and neither a header nor the end of the text is met inside one. -/

namespace Parley
namespace ParseM

section Blocks
variable {α β : Type} {ts : List Token} {P Q : Spot} {x : ParseM α} {depth : Nat} {wanted : TokenKind}

/-- Just behind a token that closes the innermost of the levels `kept`, which have been open from `taken` until then. -/
def Shut (ts : List Token) (kept : List Nat) (taken rest : List Token) : Prop :=
  ∃ mid d, ts = mid ++ d :: rest ∧ d.kind = .dedent ∧ Stays kept taken mid ∧ levelsAfter mid = kept

/-- From a spot with `depth` levels open above others the parser goes on until the innermost of the others is closed,
and stops there. -/
def Shuts {α : Type} (ts : List Token) (P : Spot) (depth : Nat) (x : ParseM α) : Prop :=
  ∀ s taken above kept, ts = taken ++ s.rest → P taken s.rest → levelsAfter taken = above ++ kept →
    above.length = depth → kept ≠ [] → Outcome (fun _ s' => Shut ts kept taken s'.rest) (x s)

theorem Shut.after {kept : List Nat} {taken mid rest : List Token} (hstays : Stays kept taken mid)
    (h : Shut ts kept mid rest) : Shut ts kept taken rest := by
  obtain ⟨last, d, hts, hd, hstays', hsame⟩ := h
  exact ⟨last, d, hts, hd, hstays.trans hstays', hsame⟩

namespace Shuts

theorem kind {f : TokenKind → ParseM β} (hf : ∀ kind, Shuts ts (P.at kind) depth (f kind)) :
    Shuts ts P depth (ParseM.kind >>= f) :=
  fun s taken above kept hts hP => hf (Reading.peek s.rest).kind s taken above kept hts ⟨hP, rfl⟩

theorem unfinished : Shuts ts P depth (throw .unfinished : ParseM α) := fun _ _ _ _ _ _ _ _ _ =>
  .error ParseError.not_unbalanced_unfinished

theorem bind {f : α → ParseM β} (hx : Keeps ts P Q x) (hf : ∀ a, Shuts ts Q depth (f a)) :
    Shuts ts P depth (x >>= f) := by
  intro s taken above kept hts hP habove hdepth hkept
  refine (hx s taken hts hP).bind fun a s' hafter => ?_
  obtain ⟨after, hafter, hlevel, hQ⟩ := hafter
  refine (hf a s' after above kept hafter hQ (hlevel.same.trans habove) hdepth hkept).mono fun b s'' hshut => ?_
  exact hshut.after (hlevel.stays.weaken ⟨above, habove.symm⟩)

theorem map {g : α → β} (hx : Shuts ts P depth x) : Shuts ts P depth (x >>= fun a => pure (g a)) :=
  fun s taken above kept hts hP habove hdepth hkept =>
    (hx s taken above kept hts hP habove hdepth hkept).bind fun _ _ hshut => .ok hshut

/-- Past a token that lays out the text. -/
theorem beyond {next : Nat} {x : ParseM α} (hlayout : wanted.isLayout = true) (hne : wanted ≠ .eof)
    (hlevels : ∀ (t : Token) (above kept : List Nat), t.kind = wanted → above.length = depth →
      ∃ above', t.levels (above ++ kept) = above' ++ kept ∧ above'.length = next)
    (hx : Shuts ts Between next x) : Shuts ts (Between.at wanted) depth (ParseM.advance >>= fun _ => x) := by
  intro s taken above kept hts hP habove hdepth hkept
  have hcons := Reading.eq_cons_of_kind hP.2 hne
  have ht := hP.2
  generalize Reading.peek s.rest = t at hcons ht
  obtain ⟨above', habove', hnext⟩ := hlevels t above kept ht hdepth
  have hlevel : levelsAfter (taken ++ [t]) = above' ++ kept := by rw [levelsAfter_concat, habove, habove']
  refine (hx { s with rest := Reading.skip s.rest } (taken ++ [t]) above' kept
    (by rw [hts, List.append_assoc, List.singleton_append, ← hcons]) (.concat (ht ▸ hlayout)) hlevel hnext hkept).mono ?_
  exact fun a s' hshut => hshut.after (.step ⟨above, habove.symm⟩ ⟨above', hlevel.symm⟩)

theorem opening {x : ParseM α} (hx : Shuts ts Between (depth + 1) x) :
    Shuts ts (Between.at .indent) depth (ParseM.advance >>= fun _ => x) :=
  beyond rfl (by decide) (fun t above kept ht hdepth => ⟨(t.column - 1).toNat :: above, by simp [Token.levels, ht],
    by simp [hdepth]⟩) hx

theorem closing {x : ParseM α} (hx : Shuts ts Between depth x) :
    Shuts ts (Between.at .dedent) (depth + 1) (ParseM.advance >>= fun _ => x) := by
  refine beyond rfl (by decide) (fun t above kept ht hdepth => ?_) hx
  obtain ⟨level, above, rfl⟩ := List.exists_cons_of_length_eq_add_one hdepth
  exact ⟨above, by simp [Token.levels, ht], by simpa using hdepth⟩

theorem newline {x : ParseM α} (hx : Shuts ts Between depth x) :
    Shuts ts (Between.at .newline) depth (ParseM.advance >>= fun _ => x) :=
  beyond rfl (by decide) (fun t above kept ht hdepth => ⟨above, levels_of_not_block (by rw [ht]; rfl), hdepth⟩) hx

/-- The innermost level of the block itself is closed. -/
theorem last {a : α} : Shuts ts (Between.at .dedent) 0 (ParseM.advance >>= fun _ => pure a) := by
  intro s taken above kept hts hP habove hdepth hkept
  have hcons := Reading.eq_cons_of_kind hP.2 (by decide)
  obtain rfl := List.length_eq_zero_iff.mp hdepth
  rw [List.nil_append] at habove
  exact .ok ⟨taken, Reading.peek s.rest, hcons ▸ hts, hP.2, .refl (by simp only [habove, List.suffix_refl]), habove⟩

/-- Neither a header nor the end of the text comes while a block is open. -/
theorem ended (hlaid : Laid ts) (hkind : wanted = .eof ∨ wanted = .doubleColon) {expected : String} :
    Shuts ts (Between.at wanted) depth (ParseM.fail expected : ParseM α) := by
  rintro s taken above kept hts ⟨hready, hpeek⟩ habove - hkept
  have hnone : levelsAfter taken = [] := by
    rcases hkind with rfl | rfl
    · exact (hlaid.eof taken s.rest hts hpeek).2
    · exact hlaid.header taken s.rest hts hpeek hready
  rw [hnone] at habove
  exact absurd (List.append_eq_nil_iff.mp habove.symm).2 hkept

end Shuts

theorem accept_indent {f : Bool → ParseM β} {s : ParseState} {t : Token} {rest : List Token} (hrest : s.rest = t :: rest)
    (ht : t.kind = .indent) : (ParseM.accept .indent >>= f) s = f true { s with rest := rest } := by
  have hpeek : (Reading.peek s.rest).kind = .indent := by rw [hrest]; exact ht
  rw [accept_bind, if_pos hpeek, hrest, Reading.skip_cons ht (by decide)]

/-- A block that opens a level goes on until that level is closed. -/
theorem Shuts.block {x : ParseM α} {a : α} {s : ParseState} {taken rest : List Token} {t : Token}
    (hx : Shuts ts Between 0 x) (hts : ts = taken ++ s.rest) (hrest : s.rest = t :: rest) (ht : t.kind = .indent) :
    Outcome (fun _ s' => Shut ts (levelsAfter (taken ++ [t])) (taken ++ [t]) s'.rest)
      ((do if ← ParseM.accept .indent then x else pure a) s) := by
  rw [accept_indent hrest ht, if_pos rfl]
  refine hx { s with rest := rest } (taken ++ [t]) [] _ (by rw [hts, hrest]; simp) (.concat (by rw [ht]; rfl)) rfl rfl ?_
  rw [levelsAfter_concat]
  simp [Token.levels, ht]

/-- And what it does to the levels it undoes. -/
theorem keeps_block {x : ParseM α} {a : α} (hx : Shuts ts Between 0 x) :
    Keeps ts Between Between (do if ← ParseM.accept .indent then x else pure a) := by
  intro s taken hts hready
  by_cases hindent : (Reading.peek s.rest).kind = .indent
  · have hrest := Reading.eq_cons_of_kind hindent (by decide)
    refine (hx.block (a := a) hts hrest hindent).mono fun b s' hshut => ?_
    obtain ⟨mid, d, hmid, hd, hstays, hsame⟩ := hshut
    have hlevels : levelsAfter (taken ++ [Reading.peek s.rest]) =
        ((Reading.peek s.rest).column - 1).toNat :: levelsAfter taken := by
      rw [levelsAfter_concat]
      simp [Token.levels, hindent]
    have hclosed : levelsAfter (mid ++ [d]) = levelsAfter taken := by
      rw [levelsAfter_concat, hsame, hlevels]
      simp [Token.levels, hd]
    have hkept : levelsAfter taken <:+ levelsAfter (taken ++ [Reading.peek s.rest]) := by
      rw [hlevels]
      exact List.suffix_cons _ _
    refine ⟨mid ++ [d], by rw [hmid]; simp, ⟨?_, hclosed⟩, .concat (by rw [hd]; rfl)⟩
    refine (Stays.step (List.suffix_refl _) hkept).trans ((hstays.weaken hkept).trans (.step ?_ ?_))
    · rw [hsame]
      exact hkept
    · simp only [hclosed, List.suffix_refl]
  · rw [accept_bind, if_neg hindent, if_neg (by simp)]
    exact Keeps.pure s taken hts hready

/-- With some fuel a line of content, with the blocks below it, leaves the levels as they are, and the items of a block
close what they are to close. -/
structure KeepsBlocks (ts : List Token) (node : String) (fuel : Nat) : Prop where
  content : Keeps ts AtMark Between (content node fuel)
  choice : Keeps ts AtMark Between (choice node fuel)
  condition : Keeps ts AtMark Between (condition node fuel)
  elifs : Keeps ts Between Between (elifs node fuel)
  block : Keeps ts Between Between (block node fuel)
  items : ∀ depth, Shuts ts Between depth (blockItems node depth fuel)

namespace KeepsBlocks
variable {node : String} {fuel : Nat}

theorem content_succ (hlaid : Laid ts) (h : KeepsBlocks ts node fuel) :
    Keeps ts AtMark Between (ParseM.content node (fuel + 1)) := by
  refine .peek fun t => ?_
  split
  · exact h.choice.forget
  · exact h.condition.forget
  · exact .ite (fun _ => (keeps_command hlaid).forget) fun _ => (keeps_textLine hlaid t).forget

theorem choice_succ (hlaid : Laid ts) (h : KeepsBlocks ts node fuel) :
    Keeps ts AtMark Between (ParseM.choice node (fuel + 1)) :=
  .advance (fun _ _ h => h) fun _ => .bind keeps_text fun _ => .bind keeps_guard fun _ => .lineEnd hlaid <|
    .bind h.block fun _ => .ite (fun _ => .note .pure) fun _ => .pure

theorem condition_succ (hlaid : Laid ts) (h : KeepsBlocks ts node fuel) :
    Keeps ts AtMark Between (ParseM.condition node (fuel + 1)) := by
  unfold ParseM.condition
  refine .advance (fun _ _ h => h) fun opening => .bind (.aside fun s => ⟨(), _, rfl, rfl⟩) fun _ =>
    .bind (.aside fun s => ⟨s, s, rfl, rfl⟩) fun s => .bind (keeps_test hlaid) fun test => .bind h.block fun thenBranch =>
    .bind h.elifs fun elifs => .accept rfl fun isElse => ?_
  extract_lets finish
  have hfinish {P : Spot} (elseBranch : Option (List Content)) : Keeps ts P Between (finish elseBranch) :=
    .consume rfl (by decide) (by decide) fun _ => .lineEnd hlaid <| .ite (fun _ => .note .pure) fun _ => .pure
  refine .ite (fun _ => .lineEnd hlaid ?_) fun _ => ?_
  · rw [map_eq_pure_bind, bind_assoc]
    refine .bind h.block fun content => ?_
    exact hfinish (some content)
  · rw [pure_bind]
    exact hfinish none

theorem elifs_succ (hlaid : Laid ts) (h : KeepsBlocks ts node fuel) :
    Keeps ts Between Between (ParseM.elifs node (fuel + 1)) := by
  refine .kind fun kind => .ite (fun helif => ?_) fun _ => .forget .pure
  refine .advance (fun _ _ h => .of_kind (h.2.trans helif) rfl) fun opening => .bind (keeps_test hlaid) fun test =>
    .bind h.block fun content => .bind h.elifs fun more => .pure

theorem block_succ (h : KeepsBlocks ts node fuel) : Keeps ts Between Between (ParseM.block node (fuel + 1)) :=
  keeps_block (h.items 0)

theorem items_succ (hlaid : Laid ts) (h : KeepsBlocks ts node fuel) (depth : Nat) :
    Shuts ts Between depth (ParseM.blockItems node depth (fuel + 1)) := by
  unfold ParseM.blockItems
  refine .kind fun kind => ?_
  split
  · exact .opening (h.items _)
  · cases depth with
    | zero => exact .last
    | succ depth => exact .closing (h.items depth)
  · exact .newline (h.items _)
  · exact .ended hlaid (.inl rfl)
  · exact .ended hlaid (.inr rfl)
  · next hindent hdedent hnewline heof _ =>
    have hmark : kind.isLayout = false := by
      cases kind <;> first | rfl | exact absurd rfl ‹_›
    exact .bind (h.content.weaken fun _ _ hat => .of_kind hat.2 hmark) fun item =>
      .map (h.items _)

end KeepsBlocks

theorem keepsBlocks (hlaid : Laid ts) (node : String) (fuel : Nat) : KeepsBlocks ts node fuel := by
  induction fuel with
  | zero =>
    exact ⟨.unfinished, .unfinished, .unfinished, .unfinished, .unfinished, fun _ => .unfinished⟩
  | succ fuel ih =>
    exact ⟨ih.content_succ hlaid, ih.choice_succ hlaid, ih.condition_succ hlaid, ih.elifs_succ hlaid, ih.block_succ,
      ih.items_succ hlaid⟩

/-- From the spot the parser comes to a place between two lines. -/
def Returns {α : Type} (ts : List Token) (P : Spot) (x : ParseM α) : Prop :=
  ∀ s taken, ts = taken ++ s.rest → P taken s.rest → Outcome (fun _ s' => ∃ after, ts = after ++ s'.rest ∧ Ready after) (x s)

/-- Between two lines, with so many levels open. -/
def Deep (depth : Nat) : Spot := fun taken _ => Ready taken ∧ (levelsAfter taken).length = depth

namespace Returns

theorem kind {f : TokenKind → ParseM β} (hf : ∀ kind, Returns ts (P.at kind) (f kind)) :
    Returns ts P (ParseM.kind >>= f) :=
  fun s taken hts hP => hf (Reading.peek s.rest).kind s taken hts ⟨hP, rfl⟩

theorem pure {a : α} (hP : ∀ taken rest, P taken rest → Ready taken) : Returns ts P (pure a : ParseM α) :=
  fun _ taken hts hspot => .ok ⟨taken, hts, hP _ _ hspot⟩

theorem unfinished : Returns ts P (throw .unfinished : ParseM α) := fun _ _ _ _ =>
  .error ParseError.not_unbalanced_unfinished

/-- What keeps the levels keeps what is known of them. -/
theorem bind {L : List Nat → Prop} {f : α → ParseM β} (hx : Keeps ts P Q x)
    (hf : ∀ a, Returns ts (fun taken rest => Q taken rest ∧ L (levelsAfter taken)) (f a)) :
    Returns ts (fun taken rest => P taken rest ∧ L (levelsAfter taken)) (x >>= f) := by
  rintro s taken hts ⟨hP, hlevels⟩
  refine (hx s taken hts hP).bind fun a s' hafter => ?_
  obtain ⟨after, hafter, hlevel, hQ⟩ := hafter
  exact hf a s' after hafter ⟨hQ, hlevel.same ▸ hlevels⟩

theorem andThen {f : α → ParseM β} (hx : Returns ts P x) (hf : ∀ a, Returns ts Between (f a)) :
    Returns ts P (x >>= f) := by
  intro s taken hts hP
  refine (hx s taken hts hP).bind fun a s' hafter => ?_
  obtain ⟨after, hafter, hready⟩ := hafter
  exact hf a s' after hafter hready

theorem ite {c : Prop} [Decidable c] {y : ParseM α} (hx : c → Returns ts P x) (hy : ¬ c → Returns ts P y) :
    Returns ts P (if c then x else y) := by
  split
  · exact hx ‹_›
  · exact hy ‹_›

theorem weaken {P' : Spot} (h : Returns ts P x) (hP : ∀ taken rest, ts = taken ++ rest → P' taken rest → P taken rest) :
    Returns ts P' x :=
  fun s taken hts hspot => h s taken hts (hP taken s.rest hts hspot)

/-- Past a token that lays out the text. -/
theorem beyond {x : ParseM α} (hlayout : wanted.isLayout = true) (hne : wanted ≠ .eof)
    (hQ : ∀ taken rest (t : Token), t.kind = wanted → P taken rest → Ready (taken ++ [t]) →
      Q (taken ++ [t]) (Reading.skip rest)) (hx : Returns ts Q x) :
    Returns ts (P.at wanted) (ParseM.advance >>= fun _ => x) := by
  rintro s taken hts ⟨hP, hpeek⟩
  have hcons := Reading.eq_cons_of_kind hpeek hne
  refine hx { s with rest := Reading.skip s.rest } (taken ++ [Reading.peek s.rest]) ?_
    (hQ taken s.rest _ hpeek hP (.concat (hpeek ▸ hlayout)))
  rw [List.append_assoc, List.singleton_append, ← hcons]
  exact hts

end Returns

theorem returns_nodeItems (hlaid : Laid ts) (node : String) (depth fuel : Nat) :
    Returns ts (Deep depth) (nodeItems node depth fuel) := by
  induction fuel generalizing depth with
  | zero => exact .unfinished
  | succ fuel ih =>
    unfold nodeItems
    refine .kind fun kind => ?_
    split
    · exact .pure fun taken rest h => h.1.1
    · exact .pure fun taken rest h => h.1.1
    · refine .beyond rfl (by decide) (fun taken rest t ht hP hready => ⟨hready, ?_⟩) (ih (depth + 1))
      rw [levelsAfter_concat]
      simp [Token.levels, ht, hP.2]
    · cases depth with
      | zero =>
        rintro s taken hts ⟨⟨-, hlength⟩, hpeek⟩
        exact absurd (List.length_eq_zero_iff.mp hlength) (hlaid.dedent taken s.rest hts hpeek)
      | succ depth =>
        refine .beyond rfl (by decide) (fun taken rest t ht hP hready => ⟨hready, ?_⟩) (ih depth)
        rw [levelsAfter_concat]
        simp [Token.levels, ht, hP.2]
    · refine .beyond rfl (by decide) (fun taken rest t ht hP hready => ⟨hready, ?_⟩) (ih depth)
      rw [levelsAfter_concat, levels_of_not_block (by rw [ht]; rfl)]
      exact hP.2
    · next hindent hdedent hnewline =>
      have hmark : kind.isLayout = false := by
        cases kind <;> first | rfl | exact absurd rfl ‹_›
      refine Returns.weaken (P := fun taken rest => AtMark taken rest ∧ (levelsAfter taken).length = depth) ?_
        fun taken rest _ hspot => ⟨.of_kind hspot.2 hmark, hspot.1.2⟩
      exact .bind (L := fun levels => levels.length = depth) (keepsBlocks hlaid node fuel).content fun item =>
        .andThen (ih depth) fun more => .pure fun _ _ h => h

/-- A node is entered with no level open. -/
theorem returns_node (hlaid : Laid ts) (fuel : Nat) : Returns ts (Between.at .doubleColon) (node fuel) := by
  have hname : Keeps ts Anywhere Anywhere (ParseM.consume .identifier "node name after '::'") :=
    .consuming rfl (by decide) (by decide)
  have hreset : Keeps ts Between Between (modify fun s => { s with conditions := 0 } : ParseM PUnit) :=
    .aside fun s => ⟨(), _, rfl, rfl⟩
  have hbody (name : String) : Returns ts (fun taken rest => Between taken rest ∧ levelsAfter taken = [])
      (nodeItems name 0 fuel) :=
    (returns_nodeItems hlaid name 0 fuel).weaken fun taken rest _ hspot => ⟨hspot.1, by rw [hspot.2]; rfl⟩
  refine Returns.weaken (P := fun taken rest => AtMark taken rest ∧ levelsAfter taken = []) ?_ fun taken rest hts hspot =>
    ⟨.of_kind hspot.2 rfl, hlaid.header taken rest hts hspot.2 hspot.1⟩
  exact .bind (L := (· = [])) .passing fun header => .bind (L := (· = [])) hname fun name =>
    .bind (L := (· = [])) (.ending hlaid) fun _ => .bind (L := (· = [])) hreset fun _ =>
    .andThen (hbody name.value) fun content => .pure fun _ _ h => h

theorem returns_nodes (hlaid : Laid ts) (fuel : Nat) : Returns ts Between (nodes fuel) := by
  induction fuel with
  | zero => exact .unfinished
  | succ fuel ih =>
    unfold nodes
    refine .kind fun kind => ?_
    split
    · exact .beyond rfl (by decide) (fun _ _ _ _ _ hready => hready) ih
    · exact .beyond rfl (by decide) (fun _ _ _ _ _ hready => hready) ih
    · exact .pure fun _ _ h => h.1
    · have hnote (n : ParseNote) : Returns ts Between (note n) := fun s taken hts hready => .ok ⟨taken, hts, hready⟩
      refine .andThen (returns_node hlaid fuel) fun made => .ite (fun _ => .andThen (hnote _) fun _ => ih) fun _ => ?_
      exact .andThen ih fun more => .pure fun _ _ h => h
    · exact fun s taken _ _ => .error (ParseError.not_unbalanced_unexpected (by decide) (by decide))

end Blocks
end ParseM

/-- The blocks that the parser finds in these tokens are those of the lexer that yields them. -/
structure BlocksMatched (source : String) (ts : List Token) : Prop where
  /-- The open levels that tokens tell of are those of the lexer, however far it has got. -/
  levels : ∀ count, levelsAfter (((Lexer.ofText source).draw count).tokens ++ ((Lexer.ofText source).draw count).lexer.pending) =
    ((Lexer.ofText source).draw count).lexer.levels
  /-- No block is found to be missing its end or to end where none is open. -/
  errors : ∀ e, (parseTokens ts).1 = .error e → ¬ e.Unbalanced
  /-- Nor would it be with any other bound on the depth of calls. -/
  bounds : ∀ fuel e s, ParseM.nodes fuel { rest := ts } = .error e s → ¬ e.Unbalanced
  /-- A call that takes the opening of a block and returns does so just behind the closing of the level that was opened,
  which has stayed open in between. -/
  blocks : ∀ taken t rest node fuel s content s', ts = taken ++ t :: rest → t.kind = .indent → s.rest = t :: rest →
    ParseM.block node fuel s = .ok content s' → ParseM.Shut ts (levelsAfter (taken ++ [t])) (taken ++ [t]) s'.rest

theorem Laid.nodes_balanced {ts : List Token} (hlaid : Laid ts) {fuel : Nat} {e : ParseError} {s : ParseState}
    (h : ParseM.nodes fuel { rest := ts } = .error e s) : ¬ e.Unbalanced :=
  (ParseM.returns_nodes hlaid fuel _ [] rfl (by simp [ParseM.Between, Ready])).fails e s h

theorem Laid.shut_of_block {ts taken rest : List Token} {t : Token} {node : String} {fuel : Nat} {s s' : ParseState}
    {content : List Content} (hlaid : Laid ts) (hts : ts = taken ++ t :: rest) (ht : t.kind = .indent)
    (hrest : s.rest = t :: rest) (h : ParseM.block node fuel s = .ok content s') :
    ParseM.Shut ts (levelsAfter (taken ++ [t])) (taken ++ [t]) s'.rest := by
  cases fuel with
  | zero => cases h
  | succ fuel =>
    have hitems := (ParseM.keepsBlocks hlaid node fuel).items 0
    exact (hitems.block (hrest ▸ hts) hrest ht).answers content s' h

/-- The parser never sees blocks that do not balance, whatever else it finds wrong with a source. -/
theorem blocksMatched_of_tokens {source : String} {ts : List Token} (h : tokens source = .ok ts) :
    BlocksMatched source ts where
  levels count := (Lexer.aligned_draw source count).leveled.after
  errors e he := by
    unfold parseTokens at he
    rw [(tokens_eq_ok_iff.mp h).terminated] at he
    dsimp only at he
    split at he
    · cases he
    · next hnodes =>
      cases he
      exact (laid_of_tokens h).nodes_balanced hnodes
  bounds fuel e s hnodes := (laid_of_tokens h).nodes_balanced hnodes
  blocks taken t rest node fuel s content s' hts ht hrest hblock := (laid_of_tokens h).shut_of_block hts ht hrest hblock

/-- A choice with a block below it, in which a line is indented further. -/
theorem blocksMatched_nested :
    ∃ ts, tokens ":: n\n->\n  a\n    b\nc" = .ok ts ∧ BlocksMatched ":: n\n->\n  a\n    b\nc" ts :=
  ⟨_, rfl, blocksMatched_of_tokens rfl⟩

end Parley
