import Parley.Proofs.TextLines

/-! # Where a lexer is in its text

A lexer is between two lines, or at the head of a line of which no token has been returned, or within a line, or the
text is over (`Place`). In each of these places it is known which lines have been dealt with (`Upto`), and every move
leads from a place to a place (`Place.move`). A refused indentation leaves the lexer between lines, on the line that it
was to start, with the blocks closed that it has closed for it. -/

namespace Parley
namespace Lexer

/-- The lines in front of the current one are settled, and of the current one `p` has been read. -/
structure Upto (source : List Char) (past : List (List Char)) (p : List Char) (out : List Token) (s : Lexer) : Prop where
  split : textLines source = past ++ textLines (p ++ s.rest)
  plain : ∀ c ∈ p, isLineEnd c = false
  line : s.line = past.length + 1
  settled : ∀ (i : Nat) line, past[i]? = some line → Settled line (lineTokens (i + 1) out)
  later : ∀ k : Int, s.line < k → lineTokens k out = []
  queued : ∀ t ∈ s.pending, t.line = s.line
  block : ∀ t ∈ out.getLast?, t.kind.isBlock = true → t.line = s.line
  heads : Heads out

/-- Where the lexer is once it has returned these tokens. -/
inductive Place (source : List Char) (out : List Token) (s : Lexer) : Prop
  /-- At the start of a line, and after a refused indentation behind its blanks. -/
  | between {past : List (List Char)} {p : List Char} (h : Upto source past p out s) (hmode : s.mode = .lineStart)
      (hblank : ∀ c ∈ p, isBlank c = true) (hnone : lineTokens s.line out = []) (hstart : AtStart out)
      (hpending : ∀ t ∈ s.pending, t.kind.isBlock = true)
      (hwait : hasContent s.lineLeft = false → s.pending = [] ∧ ∀ t ∈ out.getLast?, t.kind.isBlock = false)
  /-- At the head of a line with content, the first token of which is to come. -/
  | opening {past : List (List Char)} {p : List Char} (h : Upto source past p out s) (hmode : s.mode.inLine = true)
      (hcontent : hasContent (p ++ s.lineLeft) = true) (hnone : lineTokens s.line out = []) (hstart : AtStart out)
      {blocks heads : List Token} (hpending : s.pending = blocks ++ heads) (hblocks : ∀ t ∈ blocks, t.kind.isBlock = true)
      (hheads : ∀ t ∈ heads, t.kind ∈ headKinds) (hfirst : s.levels = [] ∨ s.Leads)
  /-- Within a line with content. -/
  | within {past : List (List Char)} {p : List Char} (h : Upto source past p out s) (hmode : s.mode.inLine = true)
      (hcontent : hasContent (p ++ s.lineLeft) = true) (hsome : lineTokens s.line out ≠ [])
      (hnewline : ∀ t ∈ lineTokens s.line out, t.kind ≠ .newline) (hpending : ∀ t ∈ s.pending, t.kind ∈ headKinds)
      (hlast : ∀ t ∈ out.getLast?, t.kind.isLayout = false)
  /-- The text is over, and what is still to come closes its blocks. -/
  | finished {before tail : List Token} (hmode : s.mode = .done ∨ s.mode = .lineStart ∧ s.rest = [] ∧ s.pending = [] ∧ AtStart out)
      (hout : out = before ++ tail) (hheads : Heads before) (htail : ∀ t ∈ tail, t.kind = .dedent ∨ t.kind = .eof)
      (hsettled : ∀ (i : Nat) line, (textLines source)[i]? = some line → Settled line (lineTokens (i + 1) out))
      (hpending : ∀ t ∈ s.pending, t.kind = .dedent ∧ t.line = s.line)
      (hblock : ∀ t ∈ out.getLast?, t.kind.isBlock = true → t.line = s.line) (hstart : s.pending ≠ [] → AtStart out)
      (hready : Ready out)

section
variable {source : List Char} {past : List (List Char)} {p q : List Char} {out new : List Token} {s s' m : Lexer} {t : Token}
  {ts : List Token}

namespace Upto

theorem along (h : Upto source past p out s) (hq : Along q s s') : Upto source past (p ++ q) out s' where
  split := by rw [h.split, hq.rest, List.append_assoc]
  plain := by simpa [or_imp, forall_and] using ⟨h.plain, hq.plain⟩
  line := hq.line.trans h.line
  settled := h.settled
  later := by rw [hq.line]; exact h.later
  queued := by rw [hq.pending, hq.line]; exact h.queued
  block := by rw [hq.line]; exact h.block
  heads := h.heads

/-- Other tokens of the line are queued. -/
theorem requeue (h : Upto source past p out s) (hrest : s'.rest = s.rest) (hline : s'.line = s.line)
    (hqueued : ∀ t ∈ s'.pending, t.line = s.line) : Upto source past p out s' where
  split := hrest ▸ h.split
  plain := h.plain
  line := hline.trans h.line
  settled := h.settled
  later := by rw [hline]; exact h.later
  queued := by rw [hline]; exact hqueued
  block := by rw [hline]; exact h.block
  heads := h.heads

/-- A token of the current line is returned. -/
theorem concat (h : Upto source past p out s) (hline : t.line = s.line)
    (hblock : t.kind.isBlock = true → lineTokens s.line out = []) : Upto source past p (out ++ [t]) s where
  split := h.split
  plain := h.plain
  line := h.line
  settled i line hi := by
    have hlt := (List.getElem?_eq_some_iff.mp hi).1
    rw [lineTokens_other (by rw [hline, h.line]; omega)]
    exact h.settled i line hi
  later k hk := by
    rw [lineTokens_other (by rw [hline]; omega)]
    exact h.later k hk
  queued := h.queued
  block u hu _ := by
    obtain rfl : t = u := by simpa using hu
    exact hline
  heads := h.heads.concat fun ht => hline ▸ hblock ht

theorem pop (h : Upto source past p out s) (hpending : s.pending = t :: ts)
    (hblock : t.kind.isBlock = true → lineTokens s.line out = []) :
    Upto source past p (out ++ [t]) { s with pending := ts } :=
  (h.concat (h.queued t (by simp [hpending])) hblock).requeue rfl rfl
    fun u hu => h.queued u (by rw [hpending]; exact List.mem_cons_of_mem t hu)

/-- If the current line is settled and over, so are the lines up to it. -/
theorem settled_current (h : Upto source past p out s) {last : List Char} (hlast : Settled last (lineTokens s.line out))
    (i : Nat) (line : List Char) (hi : (past ++ [last])[i]? = some line) : Settled line (lineTokens (i + 1) out) := by
  rw [List.getElem?_append] at hi
  split at hi
  · exact h.settled i line hi
  · obtain ⟨hlength, rfl⟩ := List.getElem?_eq_some_iff.mp hi
    have hi : i = past.length := by simp only [List.length_singleton] at hlength; omega
    have hline : ((i : Int) + 1) = s.line := by rw [h.line, hi]; rfl
    simpa [hline] using hlast

/-- The line that ends is settled too, and its end leads to the next line or out of the text. -/
theorem endLine (h : Upto source past p out m) (hend : m.AtLineEnd) (hpending : m.pending = []) (hstart : AtStart out)
    (hlast : ∀ t ∈ out.getLast?, t.kind.isBlock = false) (hsettled : Settled p (lineTokens m.line out)) :
    Place source out { m.consumeNewline with mode := .lineStart } := by
  obtain ⟨-, hqueue, -⟩ := consumeNewline_eq m
  rw [hpending] at hqueue
  have hsplit := h.split
  rw [textLines_plain h.plain] at hsplit
  have hupto := h.settled_current hsettled
  by_cases hrest : m.rest = []
  · have hsame : m.consumeNewline = m := by simp [consumeNewline, hrest]
    rw [hrest] at hsplit
    refine .finished (.inr ⟨rfl, (congrArg rest hsame).trans hrest, hqueue, hstart⟩) (List.append_nil out).symm h.heads (by simp) ?_
      (by simp [hqueue]) (by rw [hsame]; exact h.block) (by simp [hqueue]) hstart.ready
    have hlines : textLines source = past ++ [p] := by simpa [textLines] using hsplit
    rw [hlines]
    exact hupto
  · obtain ⟨hlines, hline⟩ := textLines_consumeNewline hend hrest
    rw [hlines] at hsplit
    have hnext : Upto source (past ++ [p]) [] out { m.consumeNewline with mode := .lineStart } := by
      refine ⟨by simpa using hsplit, by simp, by simp [hline, h.line], hupto, ?_, by simp [hqueue], ?_, h.heads⟩
      · show ∀ k : Int, (m.consumeNewline.line : Int) < k → _
        rw [hline]
        exact fun k hk => h.later k (by omega)
      · intro t ht hblock
        rw [hlast t ht] at hblock
        cases hblock
    refine .between hnext rfl (by simp) ?_ hstart (by simp [hqueue]) fun _ => ⟨hqueue, hlast⟩
    show lineTokens (m.consumeNewline.line : Int) out = []
    rw [hline]
    exact h.later _ (by omega)

end Upto

theorem isEof_of_isLayout (h : t.kind.isLayout = false) : t.isEof = false := by
  cases hk : t.kind <;> simp_all [Token.isEof, TokenKind.isLayout]

theorem isLayout_of_headKinds : ∀ kind ∈ headKinds, kind.isLayout = false := by decide

theorem hasContent_along (hq : Along q s s') (h : hasContent (p ++ s.lineLeft) = true) :
    hasContent (p ++ q ++ s'.lineLeft) = true := by
  rwa [List.append_assoc, ← lineLeft_of_along hq]

/-- A token of the line, once returned, leaves the lexer within it. -/
theorem Upto.within (h : Upto source past p out s) (hmode : s.mode.inLine = true)
    (hcontent : hasContent (p ++ s.lineLeft) = true) (hnewline : ∀ u ∈ lineTokens s.line out, u.kind ≠ .newline)
    (hpending : ∀ u ∈ s.pending, u.kind ∈ headKinds) (hline : t.line = s.line) (hkind : t.kind.isLayout = false) :
    Place source (out ++ [t]) s := by
  have hblock := isBlock_of_isLayout hkind
  have hown : lineTokens s.line (out ++ [t]) = lineTokens s.line out ++ [t] :=
    hline ▸ lineTokens_own hblock (isEof_of_isLayout hkind)
  refine .within (h.concat hline (by simp [hblock])) hmode hcontent (by simp [hown]) ?_ hpending (by simpa using hkind)
  rw [hown]
  simp only [List.mem_append, List.mem_singleton]
  rintro u (hu | rfl) hk
  · exact hnewline u hu hk
  · rw [hk] at hkind
    cases hkind

/-- So does the next token of the line, and the token that ends it leads on. -/
theorem Upto.token (h : Upto source past p out s) (hcontent : hasContent (p ++ s.lineLeft) = true)
    (hnewline : ∀ t ∈ lineTokens s.line out, t.kind ≠ .newline) (hpending : s.pending = []) (ht : t.line = s.line)
    (hline : InLine s t s') : Place source (out ++ [t]) s' := by
  cases hline with
  | @mark q hq halong hmode hkind =>
    exact (h.along halong).within hmode (hasContent_along halong hcontent) (by rw [halong.line]; exact hnewline)
      (by simp [halong.pending, hpending]) (by rw [halong.line]; exact ht) hkind
  | @stop q m halong hend ht' hs =>
    subst ht' hs
    have hm : (m.line : Int) = s.line := congrArg _ halong.line
    have hclosed := (h.along halong).concat (t := m.newline.1) rfl (by simp [newline, tokenHere, TokenKind.isBlock])
    have hown : lineTokens m.line (out ++ [m.newline.1]) = lineTokens m.line out ++ [m.newline.1] :=
      lineTokens_own (t := m.newline.1) rfl rfl
    refine hclosed.endLine hend (halong.pending.trans hpending) (.concat (.inl rfl)) (by simp [newline, tokenHere, TokenKind.isBlock]) ?_
    have hline : hasContent (p ++ q) = true := by
      simpa [lineLeft_of_along halong, lineLeft_atLineEnd hend] using hcontent
    rw [Settled, if_pos hline, hown]
    exact ⟨_, _, rfl, rfl, hm ▸ hnewline⟩

/-- And a queued token of the line. -/
theorem Upto.popHead (h : Upto source past p out s) (hmode : s.mode.inLine = true)
    (hcontent : hasContent (p ++ s.lineLeft) = true) (hnewline : ∀ t ∈ lineTokens s.line out, t.kind ≠ .newline)
    (hpending : s.pending = t :: ts) (hkind : t.kind.isLayout = false) (hheads : ∀ u ∈ ts, u.kind ∈ headKinds) :
    Place source (out ++ [t]) { s with pending := ts } := by
  have hqueued : ∀ u ∈ ts, u.line = s.line := fun u hu => h.queued u (by rw [hpending]; exact List.mem_cons_of_mem t hu)
  have hpopped : Upto source past p out { s with pending := ts } := h.requeue rfl rfl hqueued
  exact hpopped.within hmode hcontent hnewline hheads (h.queued t (by simp [hpending])) hkind

namespace Place

theorem pop (h : Place source out s) (hpending : s.pending = t :: ts) :
    Place source (out ++ [t]) { s with pending := ts } := by
  cases h with
  | between h hmode hblank hnone hstart hblocks hwait =>
    have ht := hblocks t (by simp [hpending])
    refine .between (h.pop hpending fun _ => hnone) hmode hblank ((lineTokens_block ht).trans hnone) (.concat (.inr ht))
      (fun u hu => hblocks u (by rw [hpending]; exact List.mem_cons_of_mem t hu)) fun hempty => ?_
    have := (hwait hempty).1
    rw [hpending] at this
    cases this
  | @opening past p h hmode hcontent hnone hstart blocks heads hqueue hblocks hheads hfirst =>
    cases blocks with
    | cons u blocks =>
      obtain ⟨rfl, rfl⟩ := List.cons.inj (hpending.symm.trans hqueue)
      have ht := hblocks t (by simp)
      exact .opening (h.pop hpending fun _ => hnone) hmode hcontent ((lineTokens_block ht).trans hnone) (.concat (.inr ht)) rfl
        (fun u hu => hblocks u (List.mem_cons_of_mem t hu)) hheads hfirst
    | nil =>
      obtain rfl : heads = t :: ts := hqueue.symm.trans hpending
      have hkind := isLayout_of_headKinds _ (hheads t (by simp))
      exact h.popHead hmode hcontent (by simp [hnone]) hpending hkind fun u hu => hheads u (List.mem_cons_of_mem t hu)
  | within h hmode hcontent hsome hnewline hheads hlast =>
    have hkind := isLayout_of_headKinds _ (hheads t (by simp [hpending]))
    exact h.popHead hmode hcontent hnewline hpending hkind fun u hu => hheads u (by rw [hpending]; exact List.mem_cons_of_mem t hu)
  | @finished before tail hmode hout hheads htail hsettled hqueue hblock hstart _ =>
    have hdone : s.mode = .done := hmode.resolve_right fun hidle => by simp [hpending] at hidle
    obtain ⟨hkind, hline⟩ := hqueue t (by simp [hpending])
    have hout' : out ++ [t] = before ++ (tail ++ [t]) := by rw [hout, List.append_assoc]
    refine .finished (.inl hdone) hout' hheads ?_ ?_
      (fun u hu => hqueue u (by rw [hpending]; exact List.mem_cons_of_mem t hu)) ?_ (fun _ => .concat (.inr (by rw [hkind]; rfl)))
      (.concat (by rw [hkind]; rfl))
    · simpa [or_imp, forall_and, hkind] using htail
    · intro i line hi
      rw [lineTokens_dedent_or_eof (.inl hkind)]
      exact hsettled i line hi
    · intro u hu _
      obtain rfl : t = u := by simpa using hu
      exact hline

/-- All blocks are closed at the end of the text. -/
theorem queued_closeBlocks (hpending : m.pending = []) :
    ∀ t ∈ m.closeBlocks.pending, t.kind = .dedent ∧ t.line = m.line := by
  simp +contextual [closeBlocks, queue, hpending, tokenHere]

/-- Indenting a line queues block tokens of the line, and changes nothing else but the levels. -/
theorem queued_indentTo {n : Nat} {e : Option LexError} (h : s.indentTo n = (e, m)) :
    ∃ blocks levels, m = { s.queue blocks with levels := levels } ∧
      ∀ t ∈ blocks, t.kind.isBlock = true ∧ t.line = s.line := by
  obtain ⟨blocks, levels, hm, hlines, hkinds⟩ := levels_of_indentTo h
  refine ⟨blocks, levels, hm, fun t ht => ⟨?_, hlines t ht⟩⟩
  rcases hkinds with ⟨-, -, rfl⟩ | ⟨hdedent, -⟩
  · rw [List.mem_singleton.mp ht]
    rfl
  · rw [hdedent t ht]
    rfl

theorem isBlank_takeWhile (s : Lexer) : ∀ c ∈ s.rest.takeWhile isBlank, isBlank c = true :=
  fun _ hc => List.mem_takeWhile_imp hc

/-- A blank rest of the text is no line with content, and then all blocks are closed. -/
theorem finish (h : Upto source past p out s) (hrest : s.rest = []) (hblank : ∀ c ∈ p, isBlank c = true)
    (hnone : lineTokens s.line out = []) (hstart : AtStart out) (hpending : s.pending = []) :
    Place source out { s.closeBlocks with mode := .done } := by
  refine .finished (.inl rfl) (List.append_nil out).symm h.heads (by simp) ?_ (queued_closeBlocks hpending)
    h.block (fun _ => hstart) hstart.ready
  have hlines : textLines source = past ++ [p] := by
    have := h.split
    rw [textLines_plain h.plain, hrest] at this
    simpa [textLines] using this
  have hempty : hasContent p = false := by
    rw [← List.append_nil p, hasContent_append hblank]
    rfl
  rw [hlines]
  exact h.settled_current (by simpa [Settled, hempty] using hnone)

/-- Behind its blanks a line with content is indented and classified, and its first token is to come. -/
theorem startContent (h : Upto source past p out s) (hcontent : hasContent (p ++ s.lineLeft) = true)
    (hnone : lineTokens s.line out = []) (hstart : AtStart out) (hpending : s.pending = []) {n : Nat}
    (hindent : s.indentTo n = (none, m)) : Place source out m.classify := by
  obtain ⟨blocks, levels, hm, hblocks⟩ := queued_indentTo hindent
  obtain ⟨hinline, heads, q, hq, hheads, -⟩ := classified_classify m
  have hrest : (m.queue heads).rest = s.rest := by rw [hm]; rfl
  have hline : (m.queue heads).line = s.line := by rw [hm]; rfl
  have hblocks' : m.pending = blocks := by
    rw [hm]
    simp [queue, hpending]
  have hqueue : m.classify.pending = blocks ++ heads := hq.pending.trans (by rw [← hblocks']; rfl)
  have hqueued : ∀ t ∈ (m.queue heads).pending, t.line = s.line := by
    intro t ht
    rw [← hq.pending] at ht
    rcases line_classify m t ht with ht | ht
    · exact (hblocks t (hblocks' ▸ ht)).2
    · rw [ht, hm]
      rfl
  have hupto := (h.requeue hrest hline hqueued).along hq
  have hcontent : hasContent (p ++ (m.queue heads).lineLeft) = true := by
    rw [lineLeft, hrest]
    exact hcontent
  have hnone : lineTokens m.classify.line out = [] := by
    rw [hq.line, hline]
    exact hnone
  exact .opening hupto hinline (hasContent_along hq hcontent) hnone hstart hqueue (fun t ht => (hblocks t ht).1) hheads
    (.inr (leads_classify m))

theorem startBetween (h : Upto source past p out s) (hmode : s.mode = .lineStart)
    (hblank : ∀ c ∈ p, isBlank c = true) (hnone : lineTokens s.line out = []) (hstart : AtStart out)
    (hpending : s.pending = []) (hlast : hasContent s.lineLeft = false → ∀ t ∈ out.getLast?, t.kind.isBlock = false)
    {e : Option LexError} (hs : Started s e s') : Place source out s' := by
  have hskipped := h.along (.skipBlanks s)
  have hcurrent : hasContent (p ++ s.lineLeft) = hasContent s.lineLeft := hasContent_append hblank
  have hcurrent' : hasContent (p ++ s.rest.takeWhile isBlank ++ s.skipBlanks.lineLeft) = hasContent s.lineLeft := by
    rw [List.append_assoc, ← lineLeft_of_along (.skipBlanks s), hcurrent]
  cases hs with
  | finish hrest => exact finish h hrest hblank hnone hstart hpending
  | @skip q m hcontent hne halong hmode' hend =>
    have hempty : hasContent (p ++ q) = false := by
      rw [← hcontent, ← hcurrent, lineLeft_of_along halong, lineLeft_atLineEnd hend, List.append_nil]
    have hplace := (h.along halong).endLine hend (halong.pending.trans hpending) hstart (hlast hcontent)
      (by simpa [Settled, hempty, halong.line] using hnone)
    rwa [consumeNewline_lineStart (hmode'.trans hmode)]
  | header hcontent hline =>
    have hqueue := queued_closeBlocks (m := s.skipBlanks) hpending
    exact .opening (hskipped.requeue rfl rfl fun t ht => (hqueue t ht).2) rfl (hcurrent'.trans hcontent) hnone hstart
      (List.append_nil _).symm (fun t ht => by rw [(hqueue t ht).1]; rfl) (by simp) (.inl rfl)
  | content hcontent _ hindent => exact startContent hskipped (hcurrent'.trans hcontent) hnone hstart hpending hindent
  | @refused e m hcontent hline hindent =>
    obtain ⟨blocks, levels, rfl, hblocks⟩ := queued_indentTo hindent
    have hqueue : (s.skipBlanks.queue blocks).pending = blocks := by simp [queue, skipBlanks, hpending]
    refine .between (hskipped.requeue rfl rfl fun t ht => (hblocks t (hqueue ▸ ht)).2) hmode ?_ hnone hstart
      (fun t ht => (hblocks t (hqueue ▸ ht)).1) fun hempty => ?_
    · intro c hc
      exact (List.mem_append.mp hc).elim (hblank c) (isBlank_takeWhile s c)
    · rw [hasContent_skipBlanks] at hcontent
      have hempty : hasContent s.skipBlanks.lineLeft = false := hempty
      rw [hcontent] at hempty
      cases hempty

/-- What starting a line leads to. Once the text is over there is no line to start. -/
theorem start (h : Place source out s) (hpending : s.pending = []) (hmode : s.mode = .lineStart) {e : Option LexError}
    (hs : Started s e s') : Place source out s' := by
  cases h with
  | between h hmode hblank hnone hstart _ hwait =>
    exact startBetween h hmode hblank hnone hstart hpending (fun hempty => (hwait hempty).2) hs
  | opening _ hinline | within _ hinline => simp [hmode, Mode.inLine] at hinline
  | finished hfinished hout hheads htail hsettled _ hblock hstart _ =>
    obtain ⟨-, hrest, -, hstart⟩ := hfinished.resolve_left (by simp [hmode])
    have hempty : hasContent s.lineLeft = false := by
      rw [lineLeft_atLineEnd (atLineEnd_nil hrest)]
      rfl
    cases hs with
    | finish _ =>
      exact .finished (.inl rfl) hout hheads htail hsettled (queued_closeBlocks hpending) hblock (fun _ => hstart)
        hstart.ready
    | skip _ hne => exact absurd hrest hne
    | header hcontent | content hcontent | refused hcontent =>
      rw [hempty] at hcontent
      cases hcontent

theorem pass (h : Place source out s) (hpending : s.pending = []) (hmode : s.mode.inLine = true) (halong : Along q s s')
    (hmode' : s'.mode = s.mode) (hnone : ∀ t, s.pass.1 ≠ .token t) : Place source out s' := by
  have hqueue : s'.pending = [] := halong.pending.trans hpending
  cases h with
  | between _ hstart => simp [hstart, Mode.inLine] at hmode
  | finished hfinished => rcases hfinished with hfinished | ⟨hfinished, -⟩ <;> simp [hfinished, Mode.inLine] at hmode
  | @opening past p h _ hcontent hnone' hstart _ _ _ _ _ hfirst =>
    refine .opening (h.along halong) (hmode'.symm ▸ hmode) (hasContent_along halong hcontent)
      (by rw [halong.line]; exact hnone') hstart (hqueue.trans (List.append_nil []).symm) (by simp) (by simp) ?_
    exact hfirst.imp halong.levels.trans fun hleads => .inl (hmode'.trans (hleads.pass hnone))
  | within h _ hcontent hsome hnewline _ hlast =>
    exact .within (h.along halong) (hmode'.symm ▸ hmode) (hasContent_along halong hcontent) (by rw [halong.line]; exact hsome)
      (by rw [halong.line]; exact hnewline) (by simp [hqueue]) hlast

theorem token (h : Place source out s) (hpending : s.pending = []) (hmode : s.mode.inLine = true)
    (hpass : s.pass = (.token t, s')) (hline : InLine s t s') : Place source (out ++ [t]) s' := by
  cases h with
  | between _ hstart => simp [hstart, Mode.inLine] at hmode
  | finished hfinished => rcases hfinished with hfinished | ⟨hfinished, -⟩ <;> simp [hfinished, Mode.inLine] at hmode
  | opening h _ hcontent hnone => exact h.token hcontent (by simp [hnone]) hpending (line_pass_token hpass) hline
  | within h _ hcontent _ hnewline => exact h.token hcontent hnewline hpending (line_pass_token hpass) hline

theorem last (h : Place source out s) (hpending : s.pending = []) (hmode : s.mode = .done) :
    Place source (out ++ [s.tokenHere .eof ""]) s := by
  cases h with
  | between _ hstart => simp [hstart] at hmode
  | opening _ hinline | within _ hinline => simp [hmode, Mode.inLine] at hinline
  | @finished before tail _ hout hheads htail hsettled hqueue _ _ _ =>
    have hout' : out ++ [s.tokenHere .eof ""] = before ++ (tail ++ [s.tokenHere .eof ""]) := by rw [hout, List.append_assoc]
    refine .finished (.inl hmode) hout' hheads ?_ ?_ hqueue ?_ ?_ (.concat rfl)
    · simpa [or_imp, forall_and, tokenHere] using htail
    · intro i line hi
      rw [lineTokens_dedent_or_eof (.inr rfl)]
      exact hsettled i line hi
    · simp [tokenHere, TokenKind.isBlock]
    · simp [hpending]

theorem move (h : Place source out s) (hmove : Move s new s') : Place source (out ++ new) s' := by
  cases hmove with
  | pop hpending => exact h.pop hpending
  | start hpending hmode hs =>
    rw [List.append_nil]
    exact h.start hpending hmode (started_of_startLine hs)
  | pass hpending hmode halong hmode' hnone =>
    rw [List.append_nil]
    exact h.pass hpending hmode halong hmode' hnone
  | token hpending hmode hpass hline => exact h.token hpending hmode hpass hline
  | last hpending hmode => exact h.last hpending hmode

theorem ofText (source : String) : Place source.toList [] (ofText source) := by
  have hupto : Upto source.toList [] [] [] (Lexer.ofText source) :=
    ⟨rfl, by simp, rfl, by simp, fun _ _ => rfl, by simp [Lexer.ofText], by simp, fun before t ht => by simp at ht⟩
  exact .between hupto rfl (by simp) rfl (by simp [AtStart]) (by simp [Lexer.ofText]) fun _ => ⟨rfl, by simp⟩

end Place

end
end Lexer
end Parley
