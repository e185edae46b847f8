import Parley.Parser
import Parley.Proofs.Passes

/-! # The tokens that a lexer emits

`Lexes s ts e`: from here the lexer yields the tokens `ts` and then breaks off with the error `e`, or comes to the end
of the text if there is none. `Emits s ts` is the part of it without errors, where the last token is the end of the
text. The relations follow the passes one by one and count nothing, so what holds of all token streams is proved by
induction on them. They say the same as the lexer's own loop, which makes a bounded number of calls (`lexes_tokenize`,
`Lexes.tokenize`): every token that is yielded lowers `budget`, which counts what is left to be yielded, and the loop
is given more calls than that. A character counts twice, since the last one of a text is a token and makes room for the
token that ends its line. -/

namespace Parley

/-- From here on the lexer yields these tokens, and then the text is over or the lexer breaks off with an error. -/
inductive Lexes : Lexer → List Token → Option LexError → Prop
  | queued {s : Lexer} {t : Token} {ts out : List Token} {e : Option LexError} (hpending : s.pending = t :: ts)
      (ht : t.isEof = false) (h : Lexes { s with pending := ts } out e) : Lexes s (t :: out) e
  | again {s s' : Lexer} {out : List Token} {e : Option LexError} (hpending : s.pending = [])
      (hpass : s.pass = (.again, s')) (h : Lexes s' out e) : Lexes s out e
  | token {s s' : Lexer} {t : Token} {out : List Token} {e : Option LexError} (hpending : s.pending = [])
      (hpass : s.pass = (.token t, s')) (ht : t.isEof = false) (h : Lexes s' out e) : Lexes s (t :: out) e
  | last {s s' : Lexer} {t : Token} (hpending : s.pending = []) (hpass : s.pass = (.token t, s'))
      (ht : t.isEof = true) : Lexes s [t] none
  | failed {s s' : Lexer} {e : LexError} (hpending : s.pending = []) (hpass : s.pass = (.failed e, s')) :
      Lexes s [] (some e)

/-- From here on the lexer yields these tokens. -/
inductive Emits : Lexer → List Token → Prop
  | queued {s : Lexer} {t : Token} {ts out : List Token} (hpending : s.pending = t :: ts) (ht : t.isEof = false)
      (h : Emits { s with pending := ts } out) : Emits s (t :: out)
  | again {s s' : Lexer} {out : List Token} (hpending : s.pending = []) (hpass : s.pass = (.again, s'))
      (h : Emits s' out) : Emits s out
  | token {s s' : Lexer} {t : Token} {out : List Token} (hpending : s.pending = []) (hpass : s.pass = (.token t, s'))
      (ht : t.isEof = false) (h : Emits s' out) : Emits s (t :: out)
  | last {s s' : Lexer} {t : Token} (hpending : s.pending = []) (hpass : s.pass = (.token t, s'))
      (ht : t.isEof = true) : Emits s [t]

/-- Emitting is yielding without an error. -/
theorem emits_iff_lexes {s : Lexer} {out : List Token} : Emits s out ↔ Lexes s out none := by
  constructor
  · intro h
    induction h with
    | queued hpending ht _ ih => exact .queued hpending ht ih
    | again hpending hpass _ ih => exact .again hpending hpass ih
    | token hpending hpass ht _ ih => exact .token hpending hpass ht ih
    | last hpending hpass ht => exact .last hpending hpass ht
  · intro h
    generalize he : none = e at h
    induction h with
    | queued hpending ht _ ih => exact .queued hpending ht (ih he)
    | again hpending hpass _ ih => exact .again hpending hpass (ih he)
    | token hpending hpass ht _ ih => exact .token hpending hpass ht (ih he)
    | last hpending hpass ht => exact .last hpending hpass ht
    | failed => cases he

namespace Lexer

/-- A bound on the tokens before the end of the text. A line that is open at the end of the text is still to be
ended. -/
def budget (s : Lexer) : Nat :=
  2 * s.rest.length + s.pending.length + s.levels.length + if s.rest = [] ∧ s.mode.inLine = true then 1 else 0

theorem budget_lt_patience (s : Lexer) : s.budget < s.patience := by
  unfold budget patience
  split <;> omega

section Budget
variable {s s' m : Lexer} {t : Token}

theorem consumeNewline_eq (s : Lexer) :
    s.consumeNewline.levels = s.levels ∧ s.consumeNewline.pending = s.pending ∧ s.consumeNewline.mode = s.mode := by
  unfold consumeNewline
  split
  · exact ⟨rfl, rfl, rfl⟩
  · split <;> exact ⟨rfl, rfl, rfl⟩
  · exact ⟨rfl, rfl, rfl⟩

theorem consumeNewline_lineStart (h : s.mode = .lineStart) :
    s.consumeNewline = { s.consumeNewline with mode := .lineStart } := by
  have hmode : s.consumeNewline.mode = .lineStart := (consumeNewline_eq s).2.2.trans h
  rw [← hmode]

/-- What is left of a text after the end of its line, or the line is over because the text is. -/
theorem rest_consumeNewline (h : s.AtLineEnd) :
    s.rest = [] ∧ s.consumeNewline.rest = [] ∨ s.consumeNewline.rest.length < s.rest.length := by
  cases hrest : s.rest with
  | nil => exact .inl ⟨rfl, by simp [consumeNewline, hrest]⟩
  | cons c tail => exact .inr (hrest ▸ length_consumeNewline_lt hrest (h c (by simp [hrest])))

/-- A pass inside a line takes more than it yields. -/
theorem InLine.budget_lt (hmode : s.mode.inLine = true) (h : InLine s t s') : s'.budget < s.budget := by
  cases h with
  | @mark p hp h _ _ =>
    have hlength := List.length_pos_iff.mpr hp
    have hrest := congrArg List.length h.rest
    rw [List.length_append] at hrest
    unfold budget
    rw [h.levels, h.pending]
    split <;> omega
  | @stop p m h hend _ hs =>
    obtain ⟨hlevels, hpending, -⟩ := consumeNewline_eq m
    have hrest := congrArg List.length h.rest
    rw [List.length_append] at hrest
    have hbudget : s'.budget = 2 * m.consumeNewline.rest.length + s.pending.length + s.levels.length := by
      subst hs
      simp [budget, newline, hlevels, hpending, h.levels, h.pending, Mode.inLine]
    rw [hbudget, budget]
    rcases rest_consumeNewline hend with ⟨hnil, hnil'⟩ | hlt
    · by_cases hp : s.rest = []
      · simp [hp, hmode, hnil']
      · have := List.length_pos_iff.mpr hp
        rw [hnil']
        simp only [List.length_nil]
        omega
    · omega

/-- Indenting a line queues only what opens or closes a block, and no more than it and the blanks pay for. -/
theorem indentTo_spec {indent : Nat} {e : Option LexError} (h : s.indentTo indent = (e, s')) :
    s'.rest = s.rest ∧ s'.line = s.line ∧ s'.column = s.column ∧ ∃ ds, s'.pending = s.pending ++ ds ∧
      (∀ t ∈ ds, t.kind = .indent ∨ t.kind = .dedent) ∧ ds.length + s'.levels.length ≤ s.levels.length + 2 * indent := by
  unfold indentTo at h
  dsimp only at h
  split at h
  · next hdeeper =>
    cases h
    refine ⟨rfl, rfl, rfl, [s.tokenHere .indent ""], rfl, by simp [tokenHere], ?_⟩
    simp only [List.length_cons, List.length_nil]
    omega
  · have hkept := (List.dropWhile_suffix (l := s.levels) fun level => decide (indent < level)).length_le
    split at h <;> cases h <;> refine ⟨rfl, rfl, rfl, _, rfl, by simp +contextual [tokenHere], ?_⟩ <;>
      (simp only [List.length_replicate]; omega)

theorem Opening.budget_le (hmode : s.mode.inLine = false) (h : Opening s s') : s'.budget ≤ s.budget := by
  have hbudget : s.budget = 2 * s.rest.length + s.pending.length + s.levels.length := by simp [budget, hmode]
  cases h with
  | finish hrest hs =>
    subst hs
    simp [budget, closeBlocks, queue, hrest, Mode.inLine]
  | @skip p m h hmode' hend hne hs =>
    obtain ⟨hlevels, hpending, hm⟩ := consumeNewline_eq m
    have hle := length_consumeNewline_le (s := m)
    have hrest := congrArg List.length h.rest
    rw [List.length_append] at hrest
    subst hs
    simp [budget, hm, hmode', hmode, hlevels, hpending, h.levels, h.pending]
    omega
  | @header p m h hline hs =>
    have hrest := congrArg List.length h.rest
    rw [List.length_append] at hrest
    have hne : m.rest ≠ [] := fun hnil => hline (atLineEnd_nil hnil)
    subst hs
    simp [budget, closeBlocks, queue, hne, h.levels, h.pending]
    omega
  | @content p m m' h hline hindent hs =>
    obtain ⟨hrest, -, -, ds, hds, -, hcount⟩ := indentTo_spec hindent
    obtain ⟨hinline, ts, q, hq, -, hroom⟩ := classified_classify m'
    have hne : m'.rest ≠ [] := fun hnil => hline (atLineEnd_nil (hrest ▸ hnil))
    have hlength := congrArg List.length h.rest
    have hlength' : m'.rest.length = q.length + m'.classify.rest.length := by
      simpa using congrArg List.length hq.rest
    have hpending : m'.classify.pending.length = s.pending.length + ds.length + ts.length := by
      rw [hq.pending]
      simp [queue, hds, h.pending, Nat.add_assoc]
    have hlevels : m'.classify.levels = m'.levels := hq.levels
    rw [List.length_append, ← hrest] at hlength
    rw [h.levels] at hcount
    subst hs
    rw [hbudget, budget, hpending, hlevels]
    rcases hroom with ⟨rfl, rfl⟩ | hroom
    · have : m'.classify.rest = m'.rest := hq.rest.symm
      simp only [this, hne, false_and, if_false, List.length_nil] at *
      omega
    · split <;> omega

end Budget

/-- The end of the text is never queued. -/
def Unended (s : Lexer) : Prop := ∀ t ∈ s.pending, t.isEof = false

section Loop
variable {s s' : Lexer} {t : Token}

/-- Kinds of the tokens that a line queues before it is read. -/
def queuedKinds : List TokenKind := .indent :: .dedent :: headKinds

theorem Opening.pending (h : Opening s s') : ∃ ts, s'.pending = s.pending ++ ts ∧ ∀ t ∈ ts, t.kind ∈ queuedKinds := by
  have hdedents (n : Nat) : ∀ t ∈ List.replicate n (s.tokenHere .dedent ""), t.kind ∈ queuedKinds := by
    simp +contextual [tokenHere, queuedKinds]
  cases h with
  | finish hrest hs =>
    subst hs
    exact ⟨_, rfl, hdedents _⟩
  | @skip p m h hmode hend hne hs =>
    subst hs
    exact ⟨[], by rw [(consumeNewline_eq m).2.1, h.pending, List.append_nil], by simp⟩
  | @header p m h hline hs =>
    subst hs
    refine ⟨List.replicate m.levels.length (m.tokenHere .dedent ""), ?_, by simp +contextual [tokenHere, queuedKinds]⟩
    simp [closeBlocks, queue, h.pending]
  | @content p m m' h hline hindent hs =>
    obtain ⟨-, -, -, ds, hds, hkinds, -⟩ := indentTo_spec hindent
    obtain ⟨-, ts, q, hq, hcontent, -⟩ := classified_classify m'
    subst hs
    refine ⟨ds ++ ts, by rw [hq.pending]; simp [queue, hds, h.pending], fun t ht => ?_⟩
    rcases List.mem_append.mp ht with ht | ht
    · rcases hkinds t ht with hk | hk <;> simp [queuedKinds, hk]
    · simp [queuedKinds, hcontent t ht]

theorem pending_pass_again (h : s.pass = (.again, s')) :
    ∃ ts, s'.pending = s.pending ++ ts ∧ ∀ t ∈ ts, t.kind ∈ queuedKinds := by
  rcases pass_again h with ⟨-, hopening⟩ | ⟨-, p, -, halong, -⟩
  · exact hopening.pending
  · exact ⟨[], by rw [halong.pending, List.append_nil], by simp⟩

theorem InLine.pending (h : InLine s t s') : s'.pending = s.pending := by
  cases h with
  | mark _ h _ _ => exact h.pending
  | @stop p m h _ _ hs =>
    subst hs
    exact (consumeNewline_eq m).2.1.trans h.pending

theorem budget_pass_again (h : s.pass = (.again, s')) : s'.budget ≤ s.budget := by
  rcases pass_again h with ⟨hmode, hopening⟩ | ⟨hmode, p, hp, halong, hmode'⟩
  · exact hopening.budget_le (by rw [hmode]; rfl)
  · have hrest := congrArg List.length halong.rest
    have := List.length_pos_iff.mpr hp
    rw [List.length_append] at hrest
    unfold budget
    rw [halong.levels, halong.pending]
    split <;> omega

theorem unended_pass_again (hs : Unended s) (h : s.pass = (.again, s')) : Unended s' := by
  obtain ⟨ts, hts, hkinds⟩ := pending_pass_again h
  have hqueued : ∀ kind ∈ queuedKinds, kind ≠ .eof := by decide
  intro t ht
  rw [hts] at ht
  rcases List.mem_append.mp ht with ht | ht
  · exact hs t ht
  · simpa [Token.isEof] using hqueued _ (hkinds t ht)

theorem budget_queued {ts : List Token} (h : s.pending = t :: ts) :
    ({ s with pending := ts } : Lexer).budget < s.budget := by
  simp only [budget, h, List.length_cons]
  omega

/-- The next token is the first that is yielded, and a token before the end leaves less to be yielded. -/
theorem lexes_of_next {s s' : Lexer} {t : Token} (hs : Unended s) (h : s.next = (.ok t, s')) :
    if t.isEof then Lexes s [t] none
    else Unended s' ∧ s'.budget < s.budget ∧ ∀ out e, Lexes s' out e → Lexes s (t :: out) e := by
  rw [next_eq] at h
  split at h
  · next ts hpending =>
    cases h
    have ht := hs t (by simp [hpending])
    rw [if_neg (by simp [ht])]
    refine ⟨fun u hu => hs u (by rw [hpending]; exact List.mem_cons_of_mem t hu), budget_queued hpending, ?_⟩
    exact fun out e hout => .queued hpending ht hout
  · next hpending =>
    split at h
    · next hpass =>
      cases h
      rcases pass_token hpass with ⟨hmode, hline⟩ | ⟨-, rfl, rfl⟩
      · have ht := hline.isEof
        rw [if_neg (by simp [ht])]
        exact ⟨fun u hu => hs u (hline.pending ▸ hu), hline.budget_lt hmode,
          fun out e hout => .token hpending hpass ht hout⟩
      · exact Lexes.last hpending hpass rfl
    · cases h
    · next m hpass =>
      have hweight := weight_pass hpass
      have ih := lexes_of_next (unended_pass_again hs hpass) h
      split at ih
      · next ht =>
        rw [if_pos ht]
        exact .again hpending hpass ih
      · next ht =>
        rw [if_neg ht]
        obtain ⟨hs', hbudget, hyields⟩ := ih
        exact ⟨hs', Nat.lt_of_lt_of_le hbudget (budget_pass_again hpass),
          fun out e hout => .again hpending hpass (hyields out e hout)⟩
termination_by s.weight

/-- After an error nothing is yielded. -/
theorem lexes_of_error {s s' : Lexer} {e : LexError} (h : s.next = (.error e, s')) : Lexes s [] (some e) := by
  rw [next_eq] at h
  split at h
  · cases h
  · next hpending =>
    split at h
    · cases h
    · next hpass =>
      cases h
      exact .failed hpending hpass
    · next m hpass =>
      have hweight := weight_pass hpass
      exact .again hpending hpass (lexes_of_error h)
termination_by s.weight

theorem lexes_scan {fuel : Nat} (hs : Unended s) (hfuel : s.budget < fuel) :
    Lexes s (s.scan fuel).tokens (s.scan fuel).error := by
  induction fuel generalizing s with
  | zero => cases hfuel
  | succ fuel ih =>
    unfold scan
    split
    · next hnext => exact lexes_of_error hnext
    · next t s' hnext =>
      have hyields := lexes_of_next hs hnext
      split at hyields
      · next ht => simpa [ht] using hyields
      · next ht =>
        obtain ⟨hs', hbudget, hout⟩ := hyields
        simp only [ht, Bool.false_eq_true, if_false]
        exact hout _ _ (ih hs' (by omega))

theorem scan_of_lexes {fuel : Nat} {ts : List Token} {e : Option LexError} (h : Lexes s ts e)
    (hfuel : s.budget < fuel) : (s.scan fuel).tokens = ts ∧ (s.scan fuel).error = e := by
  induction h generalizing fuel with
  | @queued s t ts out e hpending ht _ ih =>
    obtain ⟨fuel, rfl⟩ : ∃ f, fuel = f + 1 := Nat.exists_eq_add_of_le' (by omega)
    have hbudget := budget_queued hpending
    have hnext : s.next = (.ok t, { s with pending := ts }) := by rw [next_eq, hpending]
    have hrest : { s with pending := ts }.budget < fuel := by omega
    obtain ⟨htokens, herror⟩ := ih hrest
    simp [scan, hnext, ht, htokens, herror]
  | @again s s' out e hpending hpass _ ih =>
    obtain ⟨fuel, rfl⟩ : ∃ f, fuel = f + 1 := Nat.exists_eq_add_of_le' (by omega)
    have hnext : s.next = s'.next := by rw [next_eq, hpending, hpass]
    have hscan : s.scan (fuel + 1) = s'.scan (fuel + 1) := by
      unfold scan
      rw [hnext]
    rw [hscan]
    exact ih (Nat.lt_of_le_of_lt (budget_pass_again hpass) hfuel)
  | @token s s' t out e hpending hpass ht _ ih =>
    obtain ⟨fuel, rfl⟩ : ∃ f, fuel = f + 1 := Nat.exists_eq_add_of_le' (by omega)
    have hnext : s.next = (.ok t, s') := by rw [next_eq, hpending, hpass]
    have hbudget : s'.budget < s.budget := by
      obtain ⟨hmode, hline⟩ := inLine_of_pass hpass ht
      exact hline.budget_lt hmode
    have hrest : s'.budget < fuel := by omega
    obtain ⟨htokens, herror⟩ := ih hrest
    simp [scan, hnext, ht, htokens, herror]
  | @last s s' t hpending hpass ht =>
    obtain ⟨fuel, rfl⟩ : ∃ f, fuel = f + 1 := Nat.exists_eq_add_of_le' (by omega)
    have hnext : s.next = (.ok t, s') := by rw [next_eq, hpending, hpass]
    simp [scan, hnext, ht]
  | @failed s s' e hpending hpass =>
    obtain ⟨fuel, rfl⟩ : ∃ f, fuel = f + 1 := Nat.exists_eq_add_of_le' (by omega)
    have hnext : s.next = (.error e, s') := by rw [next_eq, hpending, hpass]
    simp [scan, hnext]

/-- What a lexer yields is what its loop comes to. -/
theorem lexes_tokenize (hs : Unended s) : Lexes s s.tokenize.tokens s.tokenize.error :=
  lexes_scan hs s.budget_lt_patience

end Loop
end Lexer

theorem Lexes.tokenize {s : Lexer} {ts : List Token} {e : Option LexError} (h : Lexes s ts e) :
    s.tokenize.tokens = ts ∧ s.tokenize.error = e :=
  Lexer.scan_of_lexes h s.budget_lt_patience

/-- There is one thing that a lexer yields. -/
theorem Lexes.unique {s : Lexer} {ts ts' : List Token} {e e' : Option LexError} (h : Lexes s ts e)
    (h' : Lexes s ts' e') : ts = ts' ∧ e = e' :=
  ⟨h.tokenize.1.symm.trans h'.tokenize.1, h.tokenize.2.symm.trans h'.tokenize.2⟩

theorem tokens_eq_ok_iff {source : String} {ts : List Token} :
    tokens source = .ok ts ↔ Emits (.ofText source) ts := by
  have hyields : Lexes (Lexer.ofText source) _ _ := Lexer.lexes_tokenize fun t ht => by cases ht
  rw [emits_iff_lexes]
  unfold tokens
  dsimp only
  constructor
  · intro h
    split at h
    · cases h
    · next herror =>
      cases h
      exact herror ▸ hyields
  · intro h
    obtain ⟨htokens, herror⟩ := h.tokenize
    rw [herror, htokens]

/-- The last token that is yielded is the end of the text. -/
theorem Emits.getLast?_isEof {s : Lexer} {ts : List Token} (h : Emits s ts) :
    ∃ t, ts.getLast? = some t ∧ t.isEof = true := by
  induction h with
  | @queued s t ts out _ _ _ ih | @token s s' t out _ _ _ _ ih =>
    obtain ⟨u, hu, heof⟩ := ih
    exact ⟨u, by simp [List.getLast?_cons, hu], heof⟩
  | again _ _ _ ih => exact ih
  | @last s s' t _ _ ht => exact ⟨t, rfl, ht⟩

/-- The tokens that a source yields are parsed as they are, for they end with the end of the text. -/
theorem Emits.terminated {s : Lexer} {ts : List Token} (h : Emits s ts) : Reading.terminated ts = ts := by
  obtain ⟨t, ht, heof⟩ := h.getLast?_isEof
  simp [Reading.terminated, ht, heof]

/-- A source parses to a script if its tokens do. -/
theorem parseScript_eq_ok_iff {source : String} {script : Script} :
    (parseScript source).result = .ok script ↔
      ∃ ts s, Emits (.ofText source) ts ∧ ParseM.nodes (Reading.patience ts) { rest := ts } = .ok script.nodes s := by
  unfold parseScript
  constructor
  · intro h
    split at h
    · cases h
    · next ts hts =>
      have hemits := tokens_eq_ok_iff.mp hts
      unfold Parsed.ofTokens parseTokens at h
      rw [hemits.terminated] at h
      dsimp only at h
      cases hnodes : ParseM.nodes (Reading.patience ts) { rest := ts } with
      | ok made s =>
        rw [hnodes] at h
        cases h
        exact ⟨ts, s, hemits, hnodes⟩
      | error e s =>
        rw [hnodes] at h
        cases h
  · rintro ⟨ts, s, hemits, hnodes⟩
    rw [tokens_eq_ok_iff.mpr hemits]
    unfold Parsed.ofTokens parseTokens
    dsimp only
    rw [hemits.terminated, hnodes]

end Parley
