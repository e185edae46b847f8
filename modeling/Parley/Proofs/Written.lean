import Parley.Proofs.Grammar
import Parley.Proofs.Vocabulary
import Parley.Proofs.Numbering

/-!
# Expressions of scripts can be written in code

Every expression of a script that was parsed from a text is the tree of a phrase of genuine tokens (`Expr.Written`). The
parser reads an expression only where the stream of tokens is certainly code: after a keyword on its line, or after an
opening brace. `Writes` says that along a piece of the parser: given an orderly rest it leaves an orderly rest, and the
expressions that it answers are written ones.
-/

namespace Parley

/-- The expression is the tree of a phrase that code can spell. -/
def Expr.Written (e : Expr) : Prop := ∃ ts, Derives .or ts e ∧ ∀ t ∈ ts, t.Genuine

/-- Every phrase of a list of genuine tokens is written. -/
theorem DerivesList.written {ts : List Token} {args : List Expr} (h : DerivesList ts args)
    (hgenuine : ∀ t ∈ ts, t.Genuine) : ∀ e ∈ args, e.Written := by
  match h with
  | .one h => simpa using ⟨ts, h, hgenuine⟩
  | @DerivesList.more us vs _ _ _ h _ hmore =>
    have hfirst : ∀ t ∈ us, t.Genuine := fun t ht => hgenuine t (List.mem_append_left _ ht)
    have hrest : ∀ t ∈ vs, t.Genuine := fun t ht => hgenuine t (List.mem_append_right _ (List.mem_cons_of_mem _ ht))
    simpa using ⟨⟨us, h, hfirst⟩, hmore.written hrest⟩

section Orderly
variable {code : Bool} {t : Token} {used ts rest : List Token} {e : Expr}

/-- To be certain of less is no less orderly. -/
theorem Orderly.weaken {less : Bool} (hless : less = true → code = true) (h : Orderly code ts) : Orderly less ts := by
  induction ts generalizing code less with
  | nil => trivial
  | cons t ts ih =>
    refine ⟨fun hcase => h.1 (hcase.imp_left hless), ih (fun hleaves => ?_) h.2⟩
    obtain ⟨hnewline, hbrace, hwhy⟩ := Lexer.leavesCode_of_ne hleaves
    have hcode : code = true ∨ t.kind.opensCode = true := hwhy.imp_left hless
    cases hkind : t.kind <;> simp_all [TokenKind.leavesCode]

theorem Orderly.loose (h : Orderly code ts) : Orderly false ts := h.weaken nofun

theorem leavesCode_eof : TokenKind.eof.leavesCode code = code := by
  cases code <;> rfl

/-- What the next token leaves is as certain as the token allows. -/
theorem Orderly.skip (h : Orderly code ts) : Orderly ((Reading.peek ts).kind.leavesCode code) (Reading.skip ts) := by
  cases ts with
  | nil => trivial
  | cons t ts =>
    show Orderly (t.kind.leavesCode code) (if t.isEof then t :: ts else ts)
    split
    · next heof =>
      have hkind : t.kind = .eof := by simpa [Token.isEof] using heof
      rw [hkind, leavesCode_eof]
      exact h
    · exact h.2

theorem Orderly.numbered (h : Orderly code ts) : Numbered ts := by
  induction ts generalizing code with
  | nil => nofun
  | cons t ts ih =>
    intro u hu hkind
    rcases List.mem_cons.mp hu with rfl | hu
    · exact (h.1 (.inr hkind)).number hkind
    · exact ih h.2 u hu hkind

theorem leavesCode_of_inExpression {kind : TokenKind} (h : kind.inExpression = true) : kind.leavesCode true = true := by
  cases kind <;> first | rfl | cases h

/-- Code is certain throughout an expression. -/
theorem Orderly.split (h : Orderly true (used ++ rest)) (hused : ∀ t ∈ used, t.kind.inExpression = true) :
    (∀ t ∈ used, t.Genuine) ∧ Orderly true rest := by
  induction used with
  | nil => exact ⟨by simp, h⟩
  | cons t used ih =>
    have hleaves := leavesCode_of_inExpression (hused t (by simp))
    have htail : Orderly true (used ++ rest) := by
      have := h.2
      rwa [hleaves] at this
    obtain ⟨hgenuine, hrest⟩ := ih htail fun u hu => hused u (List.mem_cons_of_mem t hu)
    exact ⟨by simpa using ⟨h.1 (.inl rfl), hgenuine⟩, hrest⟩

theorem Orderly.expression (h : Orderly true ts) (hread : Reading.expression ts = .ok (e, rest)) :
    Orderly true rest ∧ e.Written := by
  obtain ⟨used, rfl, hused, -⟩ := Reading.takes_of_expression h.numbered hread
  obtain ⟨hgenuine, hrest⟩ := h.split hused.inExpression
  exact ⟨hrest, used, hused, hgenuine⟩

theorem Orderly.arguments {args : List Expr} (h : Orderly true ts) (hread : Reading.arguments ts = .ok (args, rest)) :
    Orderly true rest ∧ ∀ e ∈ args, e.Written := by
  obtain ⟨used, closing, rfl, hclosing, hused⟩ := (Reading.sound _).arguments h.numbered hread
  have hin : ∀ t ∈ used ++ [closing], t.kind.inExpression = true := by
    have hmark : TokenKind.inExpression .rightParen = true := rfl
    rcases hused with ⟨rfl, -⟩ | hused
    · simp [hclosing, hmark]
    · simpa [or_imp, forall_and, hclosing, hmark] using hused.inExpression
  rw [List.append_cons] at h
  obtain ⟨hgenuine, hrest⟩ := h.split hin
  refine ⟨hrest, ?_⟩
  rcases hused with ⟨rfl, rfl⟩ | hused
  · simp
  · exact hused.written fun t ht => hgenuine t (List.mem_append_left _ ht)

/-- The holes of a text are written, each between its braces. -/
theorem Orderly.textIn {fuel : Nat} {segments : List Segment} (h : Orderly code ts)
    (hread : Reading.textIn fuel ts = .ok (segments, rest)) : Orderly false rest ∧ ∀ e ∈ textExprs segments, e.Written := by
  induction fuel generalizing code ts segments with
  | zero => cases hread
  | succ fuel ih =>
    unfold Reading.textIn at hread
    dsimp only at hread
    split at hread
    · obtain ⟨⟨more, after⟩, hmore, hdone⟩ := Reading.ok_of_bind hread
      cases hdone
      obtain ⟨hrest, hexprs⟩ := ih h.skip hmore
      exact ⟨hrest, by simpa [textExprs, Segment.expr?] using hexprs⟩
    · next hkind =>
      obtain ⟨⟨e, inside⟩, he, hclose⟩ := Reading.ok_of_bind hread
      obtain ⟨⟨closing, after⟩, hclosing, hrest⟩ := Reading.ok_of_bind hclose
      obtain ⟨⟨more, left⟩, hmore, hdone⟩ := Reading.ok_of_bind hrest
      cases hdone
      have hopen : Orderly true (Reading.skip ts) := by
        have := h.skip
        rw [hkind] at this
        exact this.weaken fun _ => by simp [TokenKind.leavesCode, TokenKind.opensCode]
      obtain ⟨hinside, hwritten⟩ := hopen.expression he
      obtain ⟨-, rfl⟩ := Reading.consume_ok (by decide) hclosing
      obtain ⟨hleft, hexprs⟩ := ih hinside.2 hmore
      refine ⟨hleft, ?_⟩
      have hall : ∀ d ∈ e :: textExprs more, d.Written := by simpa using ⟨hwritten, hexprs⟩
      simpa [textExprs, Segment.expr?] using hall
    · cases hread
      exact ⟨h.loose, by simp [textExprs]⟩

theorem Orderly.dropWhile (p : Token → Bool) (h : Orderly code ts) : Orderly false (ts.dropWhile p) := by
  induction ts generalizing code with
  | nil => trivial
  | cons t ts ih =>
    unfold List.dropWhile
    split
    · exact ih h.2
    · exact h.loose

end Orderly

namespace ParseM

/-- From an orderly rest the parser leaves an orderly rest, and the expressions in its answer are written. -/
def Writes {α : Type} (code code' : Bool) (exprs : α → List Expr) (x : ParseM α) : Prop :=
  ∀ s a s', Orderly code s.rest → x s = .ok a s' → Orderly code' s'.rest ∧ ∀ e ∈ exprs a, e.Written

/-- The same where the next token is known. -/
def WritesFrom {α : Type} (t : Token) (code code' : Bool) (exprs : α → List Expr) (x : ParseM α) : Prop :=
  ∀ s a s', Orderly code s.rest → Reading.peek s.rest = t → x s = .ok a s' →
    Orderly code' s'.rest ∧ ∀ e ∈ exprs a, e.Written

/-- The answer holds no expression. -/
abbrev Passes {α : Type} (code code' : Bool) (x : ParseM α) : Prop := Writes code code' (fun _ => []) x

namespace Writes
variable {α β : Type} {code code' code'' : Bool} {exprs : α → List Expr} {exprs' : β → List Expr} {x : ParseM α}

theorem bind {f : α → ParseM β} (hx : Writes code code' exprs x)
    (hf : ∀ a, (∀ e ∈ exprs a, e.Written) → Writes code' code'' exprs' (f a)) : Writes code code'' exprs' (x >>= f) := by
  intro s b s'' hs h
  obtain ⟨a, s', ha, hb⟩ := bind_ok h
  obtain ⟨hs', hexprs⟩ := hx s a s' hs ha
  exact hf a hexprs s' b s'' hs' hb

/-- What is passed over adds nothing to what is known of the answer. -/
theorem pass {f : α → ParseM β} (hx : Passes code code' x) (hf : ∀ a, Writes code' code'' exprs' (f a)) :
    Writes code code'' exprs' (x >>= f) :=
  bind hx fun a _ => hf a

theorem pure {a : α} (h : ∀ e ∈ exprs a, e.Written) : Writes code code exprs (pure a : ParseM α) := by
  rintro s b s' hs ⟨⟩
  exact ⟨hs, h⟩

theorem loose (hx : Writes code code' exprs x) : Writes code false exprs x := by
  intro s a s' hs h
  obtain ⟨hs', hexprs⟩ := hx s a s' hs h
  exact ⟨hs'.loose, hexprs⟩

theorem of_loose (hx : Writes false code' exprs x) : Writes code code' exprs x :=
  fun s a s' hs h => hx s a s' hs.loose h

theorem ite {c : Prop} [Decidable c] {x y : ParseM α} (hx : Writes code code' exprs x) (hy : Writes code code' exprs y) :
    Writes code code' exprs (if c then x else y) := by
  split <;> assumption

theorem read {r : Reading α} (hr : ∀ ts a rest, Orderly code ts → r ts = .ok (a, rest) →
    Orderly code' rest ∧ ∀ e ∈ exprs a, e.Written) : Writes code code' exprs (ParseM.read r) := by
  intro s a s' hs h
  unfold ParseM.read at h
  split at h
  · next hread =>
    cases h
    exact hr _ _ _ hs hread
  · cases h

theorem unfinished : Writes code code' exprs (throw .unfinished : ParseM α) := by
  rintro s a s' hs ⟨⟩

theorem fail (expected : String) : Writes code code' exprs (ParseM.fail expected : ParseM α) := by
  rintro s a s' hs ⟨⟩

theorem at_token (hx : Writes code code' exprs x) (t : Token) : WritesFrom t code code' exprs x :=
  fun s a s' hs _ h => hx s a s' hs h

/-- What looks at the next token finds it there still. -/
theorem peek {f : Token → ParseM β} (hf : ∀ t, WritesFrom t code code'' exprs' (f t)) :
    Writes code code'' exprs' (ParseM.peek >>= f) := by
  intro s b s'' hs h
  obtain ⟨t, s', ht, hb⟩ := bind_ok h
  cases ht
  exact hf _ _ b s'' hs rfl hb

theorem kind {f : TokenKind → ParseM β} (hf : ∀ t, WritesFrom t code code'' exprs' (f t.kind)) :
    Writes code code'' exprs' (ParseM.kind >>= f) := by
  intro s b s'' hs h
  obtain ⟨kind, s', hkind, hb⟩ := bind_ok h
  cases hkind
  exact hf _ _ b s'' hs rfl hb

/-- What follows a token knows what the token leaves. -/
theorem advance {f : Token → ParseM β} (hf : ∀ t, Writes (t.kind.leavesCode code) code'' exprs' (f t)) :
    Writes code code'' exprs' (ParseM.advance >>= f) := by
  intro s b s'' hs h
  obtain ⟨t, s', ht, hb⟩ := bind_ok h
  cases ht
  exact hf _ _ b s'' hs.skip hb

theorem consume {kind : TokenKind} {expected : String} {f : Token → ParseM β}
    (hf : ∀ t, Writes (kind.leavesCode code) code'' exprs' (f t)) :
    Writes code code'' exprs' (ParseM.consume kind expected >>= f) := by
  refine pass (Writes.read fun ts t rest hts h => ?_) hf
  unfold Reading.consume at h
  split at h
  · next hsees =>
    cases h
    have hkind : (Reading.peek ts).kind = kind := by simpa [Reading.sees] using hsees
    exact ⟨hkind ▸ hts.skip, by simp⟩
  · cases h

end Writes

theorem WritesFrom.advance {β : Type} {t : Token} {code code' : Bool} {exprs : β → List Expr} {f : Token → ParseM β}
    (hf : Writes (t.kind.leavesCode code) code' exprs (f t)) : WritesFrom t code code' exprs (ParseM.advance >>= f) := by
  intro s b s'' hs ht h
  obtain ⟨u, s', hu, hb⟩ := bind_ok h
  cases hu
  subst ht
  exact hf _ b s'' hs.skip hb

theorem passes_peek {code : Bool} : Passes code code peek := by
  rintro s a s' hs ⟨⟩
  exact ⟨hs, by simp⟩

theorem passes_kind {code : Bool} : Passes code code kind := .pass passes_peek fun _ => .pure (by simp)

theorem passes_note {code : Bool} (n : ParseNote) : Passes code code (note n) := by
  rintro s a s' hs ⟨⟩
  exact ⟨hs, by simp⟩

theorem passes_tags {code : Bool} : Passes code false tags := by
  refine .read fun ts a rest hts h => ⟨?_, by simp⟩
  unfold Reading.tags at h
  split at h
  · cases h
    exact hts.dropWhile _
  · cases h
    exact hts.loose

/-- The mark does not end code, whether it is there or not. -/
theorem passes_accept {code : Bool} {wanted : TokenKind} (h : wanted.leavesCode code = code) :
    Passes code code (accept wanted) := by
  intro s taken s' hs hok
  unfold accept at hok
  obtain ⟨kind, s₁, hkind, hok⟩ := bind_ok hok
  cases hkind
  split at hok
  · next hwanted =>
    cases hok
    refine ⟨?_, by simp⟩
    have := hs.skip
    rwa [hwanted, h] at this
  · cases hok
    exact ⟨hs, by simp⟩

theorem passes_lineEnd {code : Bool} : Passes code false lineEnd := by
  refine .pass passes_kind fun kind => .ite (.loose (.pure (by simp))) (.consume fun _ => ?_)
  exact .loose (.pure (by simp))

theorem writes_expression : Writes true true (fun e => [e]) (read Reading.expression) :=
  .read fun _ _ _ hts h => by simpa using hts.expression h

theorem writes_text {code : Bool} : Writes code false textExprs (read Reading.text) :=
  .read fun _ _ _ hts h => hts.textIn h

theorem writes_arguments : Writes true true id (read Reading.arguments) := .read fun _ _ _ hts h => hts.arguments h

/-- After its keyword a command is code. -/
theorem writes_commandAfter (t : Token) : Writes true true Command.exprs (commandAfter t) := by
  unfold commandAfter
  split
  · exact .consume fun target => .pure (by simp [Command.exprs])
  · have hnone : Writes true true id (pure [] : ParseM (List Expr)) := .pure (by simp)
    have hargs : ∀ name : Token, ∀ args : List Expr, (∀ e ∈ id args, e.Written) →
        Writes true true Command.exprs (pure (.call name.value args) : ParseM Command) :=
      fun name args hargs => .pure (by simpa [Command.exprs] using hargs)
    refine .consume fun name => .pass (passes_accept rfl) fun opening => ?_
    split
    · exact .bind writes_arguments (hargs name)
    · exact .bind hnone (hargs name)
  · exact .bind writes_expression fun e he => .pure (by simpa [Command.exprs] using he)
  · exact .consume fun target => .pass (passes_accept rfl) fun _ =>
      .bind writes_expression fun e he => .pure (by simpa [Command.exprs] using he)

/-- The expressions in an item, if there is one. -/
def itemExprs (item : Option Content) : List Expr := contentExprs item.toList

theorem itemExprs_some (c : Content) : itemExprs (some c) = c.exprs := by simp [itemExprs, contentExprs]

theorem writes_command {t : Token} (ht : t.kind.isCommand = true) :
    WritesFrom t false false itemExprs (some <$> command) := by
  have hcode : t.kind.leavesCode false = true := by
    cases hk : t.kind <;> simp [hk, TokenKind.isCommand] at ht <;> rfl
  rw [map_eq_pure_bind]
  unfold command
  simp only [bind_assoc, pure_bind]
  refine .advance ?_
  rw [hcode]
  refine .bind (writes_commandAfter t) fun c hc => .pass passes_lineEnd fun _ => .pure ?_
  rw [itemExprs_some]
  exact hc

theorem writes_lineBody : Writes false false (fun body => textExprs body.1) lineBody :=
  .bind writes_text fun _ htext => .pass passes_tags fun _ => .pass passes_lineEnd fun _ => .pure htext

theorem writes_dialogue : Writes false false itemExprs dialogue := by
  unfold dialogue
  refine .advance fun speaker => .of_loose (.pass (passes_accept rfl) fun bracket => ?_)
  -- whatever the emotion is, the rest of the line is read the same way
  extract_lets body
  have hbody (emotion : Option String) : Writes false false itemExprs (body () emotion) :=
    .consume fun _ => .bind writes_lineBody fun ⟨_, _⟩ htext =>
      .ite (.pass (passes_note _) fun _ => .pure (by simp [itemExprs, contentExprs]))
        (.pure (by rw [itemExprs_some]; exact htext))
  refine .ite (.pass passes_kind fun _ => .pass passes_kind fun _ => .ite ?_ ?_) (hbody _)
  · exact .advance fun _ => .of_loose (.consume fun _ => hbody _)
  · exact .consume fun _ => hbody _

theorem writes_narration : Writes false false itemExprs narration := by
  refine .pass passes_peek fun start => .bind writes_lineBody fun ⟨_, _⟩ htext => .pure ?_
  split
  · simp [itemExprs, contentExprs]
  · rw [itemExprs_some]
    exact htext

theorem writes_textLine (first : Token) : Writes false false itemExprs (textLine first) := by
  have hget : Passes false false (get : ParseM ParseState) := by
    rintro s a s' hs ⟨⟩
    exact ⟨hs, by simp⟩
  unfold textLine
  refine .pass hget fun s => ?_
  split
  · exact .ite writes_dialogue writes_narration
  · exact .ite writes_dialogue writes_narration
  · exact writes_narration
  · exact writes_narration
  · exact .fail _

theorem writes_guard : Writes false false Option.toList guard := by
  refine .pass (passes_accept rfl) fun bracket => .ite ?_ (.pure (by simp))
  exact .consume fun _ => .bind writes_expression fun e he => .consume fun _ => .loose (.pure (by simpa using he))

theorem writes_test : Writes true false (fun e => [e]) test :=
  .bind writes_expression fun _ he => .pass passes_lineEnd fun _ => .pure he

/-- What is parsed with some fuel holds written expressions only. A condition is parsed from its keyword. -/
structure WritesBlocks (node : String) (fuel : Nat) : Prop where
  content : Writes false false itemExprs (content node fuel)
  choice : Writes false false itemExprs (choice node fuel)
  condition : ∀ t : Token, t.kind = .ifWord → WritesFrom t false false itemExprs (condition node fuel)
  elifs : Writes false false branchExprs (elifs node fuel)
  block : Writes false false contentExprs (block node fuel)
  items : ∀ depth, Writes false false contentExprs (blockItems node depth fuel)

theorem contentExprs_append (first second : List Content) :
    contentExprs (first ++ second) = contentExprs first ++ contentExprs second := by
  induction first with
  | nil => rfl
  | cons c first ih => simp [contentExprs, ih]

/-- An item and what follows it. -/
theorem writes_more {item : Option Content} {more : List Content} (hitem : ∀ e ∈ itemExprs item, e.Written)
    (hmore : ∀ e ∈ contentExprs more, e.Written) : ∀ e ∈ contentExprs (item.toList ++ more), e.Written := by
  intro e he
  rw [contentExprs_append] at he
  exact (List.mem_append.mp he).elim (hitem e) (hmore e)

namespace WritesBlocks
variable {node : String} {fuel : Nat}

theorem content_succ (h : WritesBlocks node fuel) : Writes false false itemExprs (ParseM.content node (fuel + 1)) := by
  refine .peek fun t => ?_
  split
  · exact h.choice.at_token t
  · next hkind => exact h.condition t hkind
  · split
    · next hkind => exact writes_command hkind
    · exact (writes_textLine t).at_token t

theorem choice_succ (h : WritesBlocks node fuel) : Writes false false itemExprs (ParseM.choice node (fuel + 1)) := by
  refine .advance fun arrow => .of_loose (.bind writes_text fun text htext => .bind writes_guard fun guard hguard =>
    .pass passes_lineEnd fun _ => .bind h.block fun content hcontent => .ite ?_ (.pure ?_))
  · exact .pass (passes_note _) fun _ => .pure (by simp [itemExprs, contentExprs])
  · rw [itemExprs_some, Content.exprs]
    intro e he
    rcases List.mem_append.mp he with he | he
    · exact (List.mem_append.mp he).elim (htext e) (hguard e)
    · exact hcontent e he

theorem condition_succ (h : WritesBlocks node fuel) (t : Token) (ht : t.kind = .ifWord) :
    WritesFrom t false false itemExprs (ParseM.condition node (fuel + 1)) := by
  have hcount : Passes true true (modify fun s => { s with conditions := s.conditions + 1 } : ParseM PUnit) := by
    rintro s a s' hs ⟨⟩
    exact ⟨hs, by simp⟩
  have hget : Passes true true (get : ParseM ParseState) := by
    rintro s a s' hs ⟨⟩
    exact ⟨hs, by simp⟩
  unfold ParseM.condition
  refine .advance ?_
  rw [ht]
  refine .pass hcount fun _ => .pass hget fun s => .bind writes_test fun test htest => .bind h.block fun thenBranch hthen =>
    .bind h.elifs fun elifs helifs => .pass (passes_accept rfl) fun isElse => ?_
  extract_lets finish
  have hfinish (elseBranch : Option (List Content)) (helse : ∀ e ∈ contentExprs (elseBranch.getD []), e.Written) :
      Writes false false itemExprs (finish elseBranch) := by
    refine .consume fun _ => .pass passes_lineEnd fun _ => .ite ?_ (.pure ?_)
    · exact .pass (passes_note _) fun _ => .pure (by simp [itemExprs, contentExprs])
    · rw [itemExprs_some]
      intro e he
      have hcases : e = test ∨ e ∈ contentExprs thenBranch ∨ e ∈ branchExprs elifs ∨
          e ∈ contentExprs (elseBranch.getD []) := by
        cases elseBranch <;> simpa [Content.exprs, contentExprs, or_assoc] using he
      rcases hcases with rfl | he | he | he
      · exact htest e (by simp)
      · exact hthen e he
      · exact helifs e he
      · exact helse e he
  refine .ite (.pass passes_lineEnd fun _ => ?_) ?_
  · rw [map_eq_pure_bind, bind_assoc]
    refine .bind h.block fun content hcontent => ?_
    exact hfinish (some content) hcontent
  · rw [pure_bind]
    exact hfinish none (by simp [contentExprs])

theorem elifs_succ (h : WritesBlocks node fuel) : Writes false false branchExprs (ParseM.elifs node (fuel + 1)) := by
  refine .kind fun t => ?_
  split
  · next hkind =>
    refine .advance ?_
    rw [hkind]
    refine .bind writes_test fun test htest => .bind h.block fun content hcontent => .bind h.elifs fun more hmore =>
      .pure ?_
    intro e he
    have hcases : e = test ∨ e ∈ contentExprs content ∨ e ∈ branchExprs more := by simpa [branchExprs] using he
    rcases hcases with rfl | he | he
    · exact htest e (by simp)
    · exact hcontent e he
    · exact hmore e he
  · exact Writes.at_token (.pure (by simp [branchExprs])) t

theorem block_succ (h : WritesBlocks node fuel) : Writes false false contentExprs (ParseM.block node (fuel + 1)) :=
  .pass (passes_accept rfl) fun _ => .ite (h.items 0) (.pure (by simp [contentExprs]))

theorem items_succ (h : WritesBlocks node fuel) (depth : Nat) :
    Writes false false contentExprs (ParseM.blockItems node depth (fuel + 1)) := by
  unfold ParseM.blockItems
  refine .pass passes_kind fun kind => ?_
  split
  · exact .advance fun _ => .of_loose (h.items _)
  · refine .advance fun _ => .of_loose ?_
    split
    · exact .pure (by simp [contentExprs])
    · exact h.items _
  · exact .advance fun _ => .of_loose (h.items _)
  · exact .fail _
  · exact .fail _
  · exact .bind h.content fun item hitem => .bind (h.items _) fun more hmore => .pure (writes_more hitem hmore)

end WritesBlocks

theorem writesBlocks (node : String) (fuel : Nat) : WritesBlocks node fuel := by
  induction fuel with
  | zero =>
    exact ⟨.unfinished, .unfinished, fun t _ => Writes.at_token .unfinished t, .unfinished, .unfinished,
      fun _ => .unfinished⟩
  | succ fuel ih =>
    exact ⟨ih.content_succ, ih.choice_succ, ih.condition_succ, ih.elifs_succ, ih.block_succ, ih.items_succ⟩

theorem writes_nodeItems (node : String) (depth fuel : Nat) :
    Writes false false contentExprs (nodeItems node depth fuel) := by
  induction fuel generalizing depth with
  | zero => exact .unfinished
  | succ fuel ih =>
    unfold nodeItems
    refine .pass passes_kind fun kind => ?_
    split
    · exact .pure (by simp [contentExprs])
    · exact .pure (by simp [contentExprs])
    · exact .advance fun _ => .of_loose (ih _)
    · split
      · exact .fail _
      · exact .advance fun _ => .of_loose (ih _)
    · exact .advance fun _ => .of_loose (ih _)
    · exact .bind (writesBlocks node fuel).content fun item hitem => .bind (ih _) fun more hmore =>
        .pure (writes_more hitem hmore)

theorem writes_node (fuel : Nat) : Writes false false (fun n => contentExprs n.content) (node fuel) := by
  have hreset : Passes false false (modify fun s => { s with conditions := 0 } : ParseM PUnit) := by
    rintro s a s' hs ⟨⟩
    exact ⟨hs, by simp⟩
  exact .advance fun header => .of_loose (.consume fun name => .of_loose (.pass passes_lineEnd fun _ =>
    .pass hreset fun _ => .bind (writes_nodeItems _ _ _) fun content hcontent => .pure hcontent))

theorem writes_nodes (fuel : Nat) :
    Writes false false (fun made => made.flatMap fun n => contentExprs n.content) (nodes fuel) := by
  induction fuel with
  | zero => exact .unfinished
  | succ fuel ih =>
    unfold nodes
    refine .pass passes_kind fun kind => ?_
    split
    · exact .advance fun _ => .of_loose ih
    · exact .advance fun _ => .of_loose ih
    · exact .pure (by simp)
    · refine .bind (writes_node fuel) fun made hmade => .ite (.pass (passes_note _) fun _ => ih) ?_
      refine .bind ih fun more hmore => .pure ?_
      simpa [or_imp, forall_and] using ⟨hmade, by simpa using hmore⟩
    · exact .fail _

end ParseM

/-- Every expression of a parsed script is the tree of a phrase that code can spell. -/
theorem Script.written {source : String} {script : Script} (h : (parseScript source).result = .ok script) :
    ∀ e ∈ script.exprs, e.Written := by
  obtain ⟨ts, s, hemits, hnodes⟩ := parseScript_eq_ok_iff.mp h
  have horderly : Orderly false ts := hemits.orderly nofun nofun
  exact (ParseM.writes_nodes _ _ _ _ horderly hnodes).2

end Parley
