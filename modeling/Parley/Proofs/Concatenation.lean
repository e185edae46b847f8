import Parley.Proofs.Joining
import Parley.Proofs.Loading
import Parley.Proofs.Tracking

/-! # Scripts put together

Two scripts, one behind the other, parse to the nodes of the first and those of the second further down, and loading
them as one leaves the same node table as loading them in turn. The tokens of both texts together are those of the
first up to the closing of its blocks, and then those of the second (`Emits.append`). The parser goes through them as
it goes through the tokens of the first text alone, and where those are over, the next header closes the last node as
the end of the text does; from there on it goes through them as through the tokens of the second text
(`ParseM.tracks_nodes`). For that nothing of the second text may come before its first header but empty lines
(`Emits.leading`), and the first text may not end within a line (`Emits.lined`). -/

namespace Parley

/-- The end is the last token and no other, and never comes after a token of a line. -/
inductive Lined : List Token → Prop
  | last {eof : Token} (heof : eof.kind = .eof) : Lined [eof]
  | cons {t : Token} {ts : List Token} (hne : t.kind ≠ .eof)
      (hline : t.kind.isLayout = false → (Reading.peek ts).kind ≠ .eof) (h : Lined ts) : Lined (t :: ts)

section Tokens
variable {s s' : Lexer} {out : List Token}

/-- Tokens of a line are queued for a line only. -/
theorem Lexer.Opening.pending_inLine (h : Lexer.Opening s s') (hpending : s.pending = []) :
    ∀ t ∈ s'.pending, t.kind.isLayout = false → s'.mode.inLine = true := by
  intro t ht hkind
  have hdedents {m : Lexer} (hm : m.pending = []) (ht : t ∈ m.closeBlocks.pending) : False := by
    simp only [closeBlocks, queue, hm, List.nil_append] at ht
    rw [List.eq_of_mem_replicate ht] at hkind
    cases hkind
  cases h with
  | finish _ hs =>
    subst hs
    exact (hdedents hpending ht).elim
  | @skip p m h _ _ _ hs =>
    subst hs
    rw [(consumeNewline_eq m).2.1, h.pending, hpending] at ht
    cases ht
  | @header p m h _ hs =>
    subst hs
    exact (hdedents (h.pending.trans hpending) ht).elim
  | @content p m m' h _ _ hs =>
    subst hs
    exact (classified_classify m').mode

theorem Emits.lined (h : Emits s out) (hs : ∀ t ∈ s.pending, t.kind.isLayout = false → s.mode.inLine = true) :
    Lined out ∧ (s.mode.inLine = true → (Reading.peek out).kind ≠ .eof) := by
  have hkind {t : Token} (ht : t.isEof = false) : t.kind ≠ .eof := by
    rintro hk
    simp [Token.isEof, hk] at ht
  induction h with
  | @queued s t ts out hpending ht _ ih =>
    rw [hpending] at hs
    obtain ⟨hlined, hnext⟩ := ih fun u hu => hs u (List.mem_cons_of_mem t hu)
    exact ⟨.cons (hkind ht) (fun hline => hnext (hs t (by simp) hline)) hlined, fun _ => hkind ht⟩
  | @again s s' out hpending hpass _ ih =>
    rcases Lexer.pass_again hpass with ⟨hmode, hopening⟩ | ⟨-, p, -, halong, htext⟩
    · refine ⟨(ih (hopening.pending_inLine hpending)).1, fun hline => ?_⟩
      rw [hmode] at hline
      cases hline
    · have hline : s'.mode.inLine = true := by rw [htext]; rfl
      obtain ⟨hlined, hnext⟩ := ih fun _ _ _ => hline
      exact ⟨hlined, fun _ => hnext hline⟩
  | @token s s' t out hpending hpass ht _ ih =>
    obtain ⟨-, hinline⟩ := Lexer.inLine_of_pass hpass ht
    have hpending' : s'.pending = [] := hinline.pending.trans hpending
    obtain ⟨hlined, hnext⟩ := ih (by simp [hpending'])
    refine ⟨.cons (hkind ht) (fun hline => ?_) hlined, fun _ => hkind ht⟩
    cases hinline with
    | mark _ _ hmode _ => exact hnext hmode
    | stop _ _ ht' _ =>
      rw [ht'] at hline
      cases hline
  | @last s s' t hpending hpass ht =>
    have heof : t.kind = .eof := by simpa [Token.isEof] using ht
    refine ⟨.last heof, fun hline => ?_⟩
    rw [(Lexer.done_of_pass hpass ht).1] at hline
    cases hline

/-- No block is open, or what comes next neither closes one nor ends a line. -/
def Lexer.Unopened (s : Lexer) : Prop :=
  s.pending = [] ∧ s.levels = [] ∨ ∃ t ts, s.pending = t :: ts ∧ t.kind ≠ .dedent ∧ t.kind ≠ .newline

theorem Lexer.unopened_indentTo {m m' : Lexer} {indent : Nat} (hpending : m.pending = []) (hlevels : m.levels = [])
    (h : m.indentTo indent = (none, m')) : m'.Unopened := by
  by_cases hdeeper : 0 < indent
  · have hm : m' = { m.queue [m.tokenHere .indent ""] with levels := indent :: m.levels } := by
      simpa [indentTo, hlevels, hdeeper, eq_comm] using h
    exact .inr ⟨m.tokenHere .indent "", [], by simp [hm, queue, hpending], by simp [tokenHere], by simp [tokenHere]⟩
  · obtain rfl : indent = 0 := by omega
    simp only [indentTo, hlevels, List.headD_nil, Nat.lt_irrefl, if_false, List.dropWhile_nil, if_true, Prod.mk.injEq,
      true_and] at h
    subst h
    exact .inl (by simp [queue, hpending])

theorem Lexer.Unopened.classify (h : s.Unopened) : s.classify.Unopened := by
  obtain ⟨-, ts, q, hq, hkinds, -⟩ := classified_classify s
  have hhead : ∀ kind ∈ headKinds, kind ≠ .dedent ∧ kind ≠ .newline := by decide
  have hpending : s.classify.pending = s.pending ++ ts := hq.pending
  have hlevels : s.classify.levels = s.levels := hq.levels
  rcases h with ⟨hnil, hmargin⟩ | ⟨t, us, hcons, ht⟩
  · cases ts with
    | nil => exact .inl ⟨by simp [hpending, hnil], hlevels.trans hmargin⟩
    | cons u us => exact .inr ⟨u, us, by simp [hpending, hnil], hhead _ (hkinds u (by simp))⟩
  · exact .inr ⟨t, us ++ ts, by simp [hpending, hcons], ht⟩

theorem Lexer.Opening.unopened (h : Opening s s') (hpending : s.pending = []) (hlevels : s.levels = []) :
    s'.Unopened := by
  cases h with
  | finish _ hs =>
    subst hs
    exact .inl ⟨by simp [closeBlocks, queue, hlevels, hpending], rfl⟩
  | @skip p m h _ _ _ hs =>
    obtain ⟨hl, hp, -⟩ := consumeNewline_eq m
    subst hs
    exact .inl ⟨by rw [hp, h.pending, hpending], by rw [hl, h.levels, hlevels]⟩
  | @header p m h _ hs =>
    subst hs
    exact .inl ⟨by simp [closeBlocks, queue, h.levels, hlevels, h.pending, hpending], rfl⟩
  | content h _ hindent hs =>
    subst hs
    exact (unopened_indentTo (h.pending.trans hpending) (h.levels.trans hlevels) hindent).classify

/-- With no block open none is closed before the first line that is not empty. -/
theorem Emits.leading (h : Emits s out) (hs : s.Unopened) :
    ∃ blank t ts, out = blank ++ t :: ts ∧ (∀ u ∈ blank, u.kind = .newline) ∧ t.kind ≠ .dedent ∧ t.kind ≠ .newline := by
  have hfree {s : Lexer} (hs : s.Unopened) (hpending : s.pending = []) : s.levels = [] := by
    obtain ⟨-, hlevels⟩ := hs.resolve_right (by rintro ⟨u, us, hcons, -⟩; simp [hpending] at hcons)
    exact hlevels
  induction h with
  | @queued s t ts out hpending _ _ _ =>
    rcases hs with ⟨hnil, -⟩ | ⟨u, us, hcons, hdedent, hnewline⟩
    · rw [hnil] at hpending
      cases hpending
    · obtain rfl : u = t := by
        rw [hpending] at hcons
        exact (List.cons.inj hcons).1.symm
      exact ⟨[], u, out, rfl, by simp, hdedent, hnewline⟩
  | again hpending hpass _ ih =>
    have hlevels := hfree hs hpending
    rcases Lexer.pass_again hpass with ⟨-, hopening⟩ | ⟨-, p, -, halong, -⟩
    · exact ih (hopening.unopened hpending hlevels)
    · exact ih (.inl ⟨halong.pending.trans hpending, halong.levels.trans hlevels⟩)
  | @token s s' t out hpending hpass ht _ ih =>
    have hlevels := hfree hs hpending
    obtain ⟨-, hinline⟩ := Lexer.inLine_of_pass hpass ht
    have hpending' : s'.pending = [] := hinline.pending.trans hpending
    cases hinline with
    | mark _ _ _ hkind =>
      refine ⟨[], t, out, rfl, by simp, ?_, ?_⟩ <;>
      · intro hk
        rw [hk] at hkind
        cases hkind
    | @stop p m h _ ht' hs' =>
      have hlevels' : s'.levels = [] := by
        subst hs'
        exact (Lexer.consumeNewline_eq m).1.trans (h.levels.trans hlevels)
      obtain ⟨blank, u, us, rfl, hblank, hu⟩ := ih (.inl ⟨hpending', hlevels'⟩)
      refine ⟨t :: blank, u, us, rfl, ?_, hu⟩
      simp only [List.mem_cons, forall_eq_or_imp]
      exact ⟨by rw [ht']; rfl, hblank⟩
  | @last s s' t _ _ ht =>
    have heof : t.kind = .eof := by simpa [Token.isEof] using ht
    exact ⟨[], t, [], rfl, by simp, by simp [heof], by simp [heof]⟩

end Tokens

/-- The place so many lines further down. -/
def Pos.down (n : Nat) (p : Pos) : Pos := { p with line := p.line + n }

theorem Token.alike_self (t : Token) : t.Alike id t := ⟨rfl, rfl, fun _ => rfl⟩

theorem Token.alike_down (n : Nat) (t : Token) : t.Alike (Pos.down n) (t.down n) := ⟨rfl, rfl, fun _ => rfl⟩

theorem Token.Closes.alike {t t' : Token} (h : t.Closes) (h' : t'.Closes) : t.Alike id t' := by
  refine ⟨h'.kind.trans h.kind.symm, h'.value.trans h.value.symm, fun hline => ?_⟩
  rw [h.kind] at hline
  cases hline

theorem Lined.of_cons {t : Token} {ts : List Token} (h : Lined (t :: ts)) (hts : ts ≠ []) :
    t.kind ≠ .eof ∧ (t.kind.isLayout = false → (Reading.peek ts).kind ≠ .eof) ∧ Lined ts := by
  cases h with
  | last _ => exact absurd rfl hts
  | cons hne hline h => exact ⟨hne, hline, h⟩

theorem Lined.ne_nil {ts : List Token} (h : Lined ts) : ts ≠ [] := by cases h <;> simp

theorem Lined.of_append {us ts : List Token} (h : Lined (us ++ ts)) (hts : ts ≠ []) : Lined ts := by
  induction us with
  | nil => exact h
  | cons u us ih => exact ih (h.of_cons (by simp [hts])).2.2

section Lists
variable {m n : Nat} {after blank ts out : List Token} {t eof : Token}

/-- The tokens of a text go side by side with themselves in other places. -/
theorem Lined.lockstep_map {f : Pos → Pos} {move : Token → Token} (h : Lined ts) (hmove : ∀ t : Token, t.Alike f (move t)) :
    ∃ eof, eof.kind = .eof ∧ Reading.Lockstep f 0 [eof] ts (ts.map move) := by
  induction h with
  | @last eof heof => exact ⟨move eof, (hmove eof).kind.trans heof, .ends heof ⟨[], rfl, Nat.le_refl 0, nofun⟩⟩
  | @cons t ts hne hline _ ih =>
    obtain ⟨eof, heof, hlists⟩ := ih
    exact ⟨eof, heof, .cons (hmove t) hne hline hlists⟩

/-- The tokens of a text go side by side with those of the text and more, the blocks being closed elsewhere. -/
theorem Lined.lockstep_append {inner closings closings' : List Token} (h : Lined (inner ++ (closings ++ [eof])))
    (heof : eof.kind = .eof) (hlength : closings.length = closings'.length) (hcloses : ∀ t ∈ closings ++ closings', t.Closes)
    (hleads : Reading.Leads m after ts) :
    Reading.Lockstep id m after (inner ++ (closings ++ [eof])) (inner ++ (closings' ++ ts)) := by
  induction inner with
  | nil =>
    rw [List.nil_append, List.nil_append]
    induction closings generalizing closings' with
    | nil =>
      obtain rfl := List.length_eq_zero_iff.mp hlength.symm
      exact .ends heof hleads
    | cons t closings ih =>
      obtain ⟨t', closings', rfl⟩ := List.exists_cons_of_length_eq_add_one hlength.symm
      obtain ⟨hne, hline, hlined⟩ := h.of_cons (by simp)
      refine .cons ((hcloses t (by simp)).alike (hcloses t' (by simp))) hne hline (ih (by simpa using hlength) ?_ hlined)
      intro u hu
      rcases List.mem_append.mp hu with hu | hu
      · exact hcloses u (by simp [hu])
      · exact hcloses u (by simp [hu])
  | cons t inner ih =>
    obtain ⟨hne, hline, hlined⟩ := h.of_cons (by simp)
    exact .cons t.alike_self hne hline (ih hlined)

end Lists

namespace ParseM
variable {fuel calls n : Nat} {blank ts : List Token} {t : Token} {made : List Node} {s u : ParseState}

/-- Empty lines before a header are passed over, one call for each. -/
theorem nodes_blank (hblank : ∀ t ∈ blank, t.kind = .newline) (conditions : Nat) (notes : List ParseNote) :
    nodes (fuel + blank.length) ⟨blank ++ ts, conditions, notes⟩ = nodes fuel ⟨ts, conditions, notes⟩ := by
  induction blank with
  | nil => rfl
  | cons t blank ih =>
    simp only [List.mem_cons, forall_eq_or_imp] at hblank
    have hkind : kind ⟨t :: blank ++ ts, conditions, notes⟩ = .ok .newline ⟨t :: blank ++ ts, conditions, notes⟩ := by
      rw [← hblank.1]
      rfl
    have hskip : advance ⟨t :: blank ++ ts, conditions, notes⟩ = .ok t ⟨blank ++ ts, conditions, notes⟩ := by
      unfold advance
      rw [List.cons_append, Reading.skip_cons hblank.1 (by decide)]
      rfl
    rw [List.length_cons, ← Nat.add_assoc, nodes, bind_eq_of_ok hkind]
    dsimp only
    rw [bind_eq_of_ok hskip]
    exact ih hblank.2

/-- Scripts start with a header, or the text is over. -/
theorem kind_of_nodes (h : nodes fuel ⟨t :: ts, n, notes⟩ = .ok made u) (hdedent : t.kind ≠ .dedent)
    (hnewline : t.kind ≠ .newline) : t.kind ∈ [TokenKind.eof, .doubleColon] := by
  cases fuel with
  | zero => cases h
  | succ fuel =>
    have hkind : kind ⟨t :: ts, n, notes⟩ = .ok t.kind ⟨t :: ts, n, notes⟩ := rfl
    rw [nodes, bind_eq_of_ok hkind] at h
    generalize t.kind = kind at h hdedent hnewline ⊢
    split at h
    · exact absurd rfl hnewline
    · exact absurd rfl hdedent
    · decide
    · decide
    · cases h

/-- In other places a text parses to the same nodes in those places, with any number of calls more. -/
theorem nodes_map {f : Pos → Pos} {move : Token → Token} (hlined : Lined ts) (hfuel : ts.length ≤ fuel)
    {conditions : Nat} {notes : List ParseNote} (h : nodes fuel ⟨ts, conditions, notes⟩ = .ok made u)
    (hmove : ∀ t : Token, t.Alike f (move t)) (hcalls : fuel ≤ calls) (conditions' : Nat) (notes' : List ParseNote) :
    ∃ u', nodes calls ⟨ts.map move, conditions', notes'⟩ = .ok (made.map (Node.relocate f)) u' := by
  obtain ⟨eof, heof, hlists⟩ := hlined.lockstep_map hmove
  have hafter : (Reading.peek [eof]).kind ∈ [TokenKind.eof, .doubleColon] := by
    have hpeek : (Reading.peek [eof]).kind = .eof := heof
    rw [hpeek]
    decide
  have hmore : ∀ calls us conditions notes, 1 ≤ calls → Reading.Leads 0 [eof] us →
      ∃ t, nodes calls ⟨us, conditions, notes⟩ = .ok [] t := by
    rintro calls us conditions notes hcalls ⟨blank, rfl, hlength, -⟩
    obtain rfl : blank = [] := List.eq_nil_of_length_eq_zero (by omega)
    obtain ⟨calls, rfl⟩ : ∃ k, calls = k + 1 := Nat.exists_eq_add_of_le' hcalls
    have hkind : kind ⟨[eof], conditions, notes⟩ = .ok .eof ⟨[eof], conditions, notes⟩ := by
      rw [← heof]
      rfl
    rw [List.nil_append, nodes, bind_eq_of_ok hkind]
    exact ⟨_, rfl⟩
  have hlength : ts.length = ts.length - 1 + 1 := by
    have := List.length_pos_iff.mpr hlined.ne_nil
    omega
  obtain ⟨made', u', hrun, rfl, -⟩ := tracks_nodes (n := ts.length - 1) hafter (by omega : fuel + 0 ≤ calls)
    (by omega : ts.length - 1 + 1 ≤ calls) hmore ⟨ts, conditions, notes⟩ ⟨ts.map move, conditions', notes'⟩ made u
    ⟨hlists, Nat.le_of_eq hlength, False.elim, False.elim⟩ h
  exact ⟨u', by rw [hrun, List.append_nil]⟩

end ParseM

section Texts
variable {first second source : String} {out blank ts : List Token} {t : Token} {ns : List Node} {u : ParseState}

/-- After empty lines a text that is parsed opens with a header, or it is over. -/
theorem Emits.opens (h : Emits (.ofText source) out)
    (hrun : ParseM.nodes (Reading.patience out) { rest := out } = .ok ns u) :
    ∃ blank t ts fuel, out = blank ++ t :: ts ∧ (∀ u ∈ blank, u.kind = .newline) ∧ t.kind ∈ [TokenKind.eof, .doubleColon] ∧
      Reading.patience out = fuel + blank.length ∧ ParseM.nodes fuel { rest := t :: ts } = .ok ns u := by
  obtain ⟨blank, t, ts, rfl, hblank, hdedent, hnewline⟩ := h.leading (.inl ⟨rfl, rfl⟩)
  obtain ⟨fuel, hfuel⟩ : ∃ k, Reading.patience (blank ++ t :: ts) = k + blank.length :=
    Nat.exists_eq_add_of_le' (by simp only [Reading.patience, List.length_append]; omega)
  rw [hfuel, ParseM.nodes_blank hblank] at hrun
  exact ⟨blank, t, ts, fuel, rfl, hblank, ParseM.kind_of_nodes hrun hdedent hnewline, hfuel, hrun⟩

theorem peek_ne_indent (hblank : ∀ u ∈ blank, u.kind = .newline) (hkind : t.kind ∈ [TokenKind.eof, .doubleColon]) :
    (Reading.peek (blank ++ t :: ts)).kind ≠ .indent := by
  cases blank with
  | nil =>
    intro hindent
    have hindent : t.kind = .indent := hindent
    rw [hindent] at hkind
    revert hkind
    decide
  | cons u blank =>
    have hu : (Reading.peek (u :: blank ++ t :: ts)).kind = .newline := hblank u (by simp)
    rw [hu]
    decide

/-- Further down a text parses to the same nodes, behind no more than so many empty lines. -/
theorem ParseM.nodes_down (lines most : Nat) {fuel : Nat} (hlined : Lined (t :: ts)) (hfuel : (t :: ts).length ≤ fuel)
    (hrun : nodes fuel { rest := t :: ts } = .ok ns u) :
    ∀ calls us conditions notes, fuel + most ≤ calls → Reading.Leads most ((t :: ts).map (Token.down lines)) us →
      ∃ u, nodes calls ⟨us, conditions, notes⟩ = .ok (ns.map (Node.relocate (Pos.down lines))) u := by
  rintro calls us conditions notes hcalls ⟨blank, rfl, hle, hblank⟩
  obtain ⟨calls, rfl⟩ : ∃ k, calls = k + blank.length := Nat.exists_eq_add_of_le' (by omega)
  rw [nodes_blank hblank]
  exact nodes_map hlined hfuel hrun (Token.alike_down lines) (by omega) conditions notes

/-- The nodes of two texts put together. -/
theorem nodes_append {ns₁ ns₂ : List Node} (hend : first = "" ∨ first.toList.getLast? = some '\n')
    (h₁ : (parseScript first).result = .ok ⟨ns₁⟩) (h₂ : (parseScript second).result = .ok ⟨ns₂⟩) :
    (parseScript (first ++ second)).result =
      .ok ⟨ns₁ ++ ns₂.map (Node.relocate (Pos.down (lineTerminators first.toList)))⟩ := by
  obtain ⟨ts₁, u₁, hts₁, hrun₁⟩ := parseScript_eq_ok_iff.mp h₁
  obtain ⟨ts₂, u₂, hts₂, hrun₂⟩ := parseScript_eq_ok_iff.mp h₂
  have hlined₁ := (hts₁.lined fun _ ht => (List.not_mem_nil ht).elim).1
  have hlined₂ := (hts₂.lined fun _ ht => (List.not_mem_nil ht).elim).1
  obtain ⟨blank, t, ts, fuel, rfl, hblank, hkind, hfuel, hrun₂⟩ := hts₂.opens hrun₂
  obtain ⟨inner, closings, closings', eof, rfl, heof, hlength, hcloses, hts⟩ :=
    hts₁.append hend hts₂ (peek_ne_indent hblank hkind)
  generalize hlines : lineTerminators first.toList = lines at hts ⊢
  -- what the parser makes of the second text where the first is over
  have hmore := ParseM.nodes_down lines blank.length (hlined₂.of_append (by simp))
    (by simp only [Reading.patience, List.length_append] at hfuel; omega) hrun₂
  rw [← hfuel] at hmore
  have hleads : Reading.Leads blank.length ((t :: ts).map (Token.down lines))
      ((blank ++ t :: ts).map (Token.down lines)) := by
    refine ⟨blank.map (Token.down lines), by simp, by simp, fun u hu => ?_⟩
    obtain ⟨v, hv, rfl⟩ := List.mem_map.mp hu
    exact hblank v hv
  have hlists := hlined₁.lockstep_append heof hlength hcloses hleads
  have hafter : (Reading.peek ((t :: ts).map (Token.down lines))).kind ∈ [TokenKind.eof, .doubleColon] := hkind
  -- the calls that are made are counted in tokens
  have hcalls : Reading.patience (inner ++ (closings ++ [eof])) + blank.length ≤
      Reading.patience (inner ++ (closings' ++ (blank ++ t :: ts).map (Token.down lines))) := by
    simp [Reading.patience]
    omega
  have hbound : inner.length + closings.length + Reading.patience (blank ++ t :: ts) ≤
      Reading.patience (inner ++ (closings' ++ (blank ++ t :: ts).map (Token.down lines))) := by
    simp [Reading.patience]
    omega
  obtain ⟨made, u, hrun, rfl, -⟩ := ParseM.tracks_nodes hafter hcalls hbound hmore _
    { rest := inner ++ (closings' ++ (blank ++ t :: ts).map (Token.down lines)) } ns₁ u₁
    ⟨hlists, by simp [Nat.add_assoc], False.elim, False.elim⟩ hrun₁
  refine parseScript_eq_ok_iff.mpr ⟨_, u, hts, ?_⟩
  have hsame : Node.relocate id = id := funext Node.relocate_id
  rw [hrun, hsame, List.map_id]

end Texts

/-- The node without its line numbers. -/
def Node.lineless (n : Node) : Node := n.relocate fun p => { p with line := 0 }

theorem Node.lineless_down (lines : Nat) (n : Node) : (n.relocate (Pos.down lines)).lineless = n.lineless :=
  Node.relocate_relocate n

namespace Table
variable {α β : Type}

def map (f : α → β) (t : Table α) : Table β :=
  ⟨t.entries.map fun entry => (entry.1, f entry.2), by simpa [Function.comp_def] using t.distinct⟩

theorem map_put (f : α → β) (t : Table α) (name : String) (value : α) :
    (t.put name value).map f = (t.map f).put name (f value) := by
  obtain ⟨entries, hdistinct⟩ := t
  have hentries : (putIn name value entries).map (fun entry => (entry.1, f entry.2)) =
      putIn name (f value) (entries.map fun entry => (entry.1, f entry.2)) := by
    clear hdistinct
    induction entries with
    | nil => rfl
    | cons entry rest ih =>
      simp only [putIn, List.map_cons]
      split
      · rfl
      · simp only [List.map_cons, ih]
  simp only [put, map, hentries]

end Table

theorem Table.map_putNodes (t : Table Node) (ns : List Node) :
    (t.putNodes ns).map Node.lineless = (t.map Node.lineless).putNodes (ns.map Node.lineless) := by
  induction ns generalizing t with
  | nil => rfl
  | cons n ns ih => exact (ih (t.put n.name n)).trans (by rw [Table.map_put]; rfl)

namespace Play
variable {σ μ : Type} {w : World σ μ} {source : String} {s : Script}

/-- Where names may be taken twice a source that parses is loaded, and its nodes are written over those that are
there. -/
theorem loadText_ok (h : (parseScript source).result = .ok s) (hoverrides : w.config.overrides = true) (origin : String) :
    ∃ w', loadText source origin w = .ok ⟨[origin], s.names, []⟩ w' ∧ w'.nodes = w.nodes.putNodes s.nodes ∧
      w'.config = w.config := by
  obtain ⟨journal, ⟨s', hs', -, hload⟩ | ⟨f, hf, -⟩⟩ := loadText_run source origin w
  · cases h.symm.trans hs'
    exact ⟨_, hload, rfl, rfl⟩
  · rw [hoverrides] at hf
    rcases hf with h' | h' | ⟨-, hover, -⟩
    · cases h.symm.trans h'
    · cases h.symm.trans h'
    · cases hover

end Play

/-- Where the first of two texts that parse is empty or ends its last line, they parse together, to the nodes of the
first and those of the second as many lines further down as the first has. Where names may be taken twice, loading
them together leaves the nodes that loading them in turn does, up to their lines. -/
theorem parseScript_append {first second : String} {s₁ s₂ : Script}
    (hend : first = "" ∨ first.toList.getLast? = some '\n') (h₁ : (parseScript first).result = .ok s₁)
    (h₂ : (parseScript second).result = .ok s₂) :
    (parseScript (first ++ second)).result =
        .ok ⟨s₁.nodes ++ s₂.nodes.map (Node.relocate (Pos.down (lineTerminators first.toList)))⟩ ∧
      ∀ (σ μ : Type) (w : World σ μ) (both one other : String), w.config.overrides = true →
        ∃ w' w₁ w₂, Play.loadText (first ++ second) both w = .ok ⟨[both], s₁.names ++ s₂.names, []⟩ w' ∧
          Play.loadText first one w = .ok ⟨[one], s₁.names, []⟩ w₁ ∧
          Play.loadText second other w₁ = .ok ⟨[other], s₂.names, []⟩ w₂ ∧
          w'.nodes.map Node.lineless = w₂.nodes.map Node.lineless := by
  have happend := nodes_append hend h₁ h₂
  refine ⟨happend, fun σ μ w both one other hoverrides => ?_⟩
  obtain ⟨w', hload, hnodes, -⟩ := Play.loadText_ok happend hoverrides both
  obtain ⟨w₁, hload₁, hnodes₁, hconfig₁⟩ := Play.loadText_ok h₁ hoverrides one
  obtain ⟨w₂, hload₂, hnodes₂, -⟩ := Play.loadText_ok h₂ (hconfig₁ ▸ hoverrides) other
  have hnames : Script.names ⟨s₁.nodes ++ s₂.nodes.map (Node.relocate (Pos.down (lineTerminators first.toList)))⟩ =
      s₁.names ++ s₂.names := by
    simp [Script.names, Node.relocate, Function.comp_def]
  refine ⟨w', w₁, w₂, hnames ▸ hload, hload₁, hload₂, ?_⟩
  rw [hnodes, hnodes₂, hnodes₁, Table.map_putNodes, Table.map_putNodes, Table.map_putNodes, List.map_append, List.map_map]
  have hlines : Node.lineless ∘ Node.relocate (Pos.down (lineTerminators first.toList)) = Node.lineless :=
    funext (Node.lineless_down _)
  rw [hlines]
  exact List.foldl_append

/-- A choice with a block. -/
def jumpingChoice : Content :=
  .choice ⟨[.literal "Yes" ⟨2, 4⟩], none, [.command (.jump "b") ⟨3, 3⟩], ⟨2, 1⟩⟩

def greetingAt (line : Int) : Content :=
  .line ⟨none, [.literal "Hi " ⟨line, 1⟩, .hole (.reference "x" ⟨line, 5⟩) ⟨line, 4⟩], [], ⟨line, 1⟩⟩

/-- The block of the first text is open where the second one starts. -/
theorem parseScript_append_greeting :
    (parseScript "::a\n-> Yes\n  jump b\n").result = .ok ⟨[⟨"a", [jumpingChoice], ⟨1, 1⟩⟩]⟩ ∧
      (parseScript "::b\nHi \x7b$x\x7d").result = .ok ⟨[⟨"b", [greetingAt 2], ⟨1, 1⟩⟩]⟩ ∧
      (parseScript ("::a\n-> Yes\n  jump b\n" ++ "::b\nHi \x7b$x\x7d")).result =
        .ok ⟨[⟨"a", [jumpingChoice], ⟨1, 1⟩⟩, ⟨"b", [greetingAt 5], ⟨4, 1⟩⟩]⟩ := by
  have h₁ : (parseScript "::a\n-> Yes\n  jump b\n").result = .ok ⟨[⟨"a", [jumpingChoice], ⟨1, 1⟩⟩]⟩ := by rfl
  have h₂ : (parseScript "::b\nHi \x7b$x\x7d").result = .ok ⟨[⟨"b", [greetingAt 2], ⟨1, 1⟩⟩]⟩ := by rfl
  exact ⟨h₁, h₂, (parseScript_append (.inr (by decide)) h₁ h₂).1⟩

end Parley
