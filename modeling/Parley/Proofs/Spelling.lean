import Parley.Proofs.ConditionKeys
import Parley.Proofs.Grammar
import Parley.Proofs.Relocation

/-! # Scripts spelled out in tokens

`SpelledNodes nodes ts` says that the tokens are a way to write the nodes down: headers, lines one by one, and an
`INDENT` and a `DEDENT` around every block that is not empty. An expression may be any phrase of its grammar. Neither the
places of the tokens nor those of the syntax matter, and a condition is written without its key: what the tokens tell
of the syntax is its `shape`. -/

namespace Parley

/-- Forgets a place. -/
abbrev nowhere : Pos → Pos := fun _ => {}

namespace Expr

def Spelled (e : Expr) (ts : List Token) : Prop := ∃ made, Derives .or ts made ∧ made.placeless = e.placeless

/-- One argument or more, with commas between them. -/
def AllSpelled (args : List Expr) (ts : List Token) : Prop :=
  ∃ made, DerivesList ts made ∧ relocateAll nowhere made = relocateAll nowhere args

end Expr

inductive SpelledText : List Segment → List Token → Prop
  | nil : SpelledText [] []
  | literal {t : Token} {pos : Pos} {text : List Segment} {ts : List Token} (ht : t.kind = .text)
      (hmore : SpelledText text ts) : SpelledText (.literal t.value pos :: text) (t :: ts)
  | hole {opening closing : Token} {e : Expr} {pos : Pos} {text : List Segment} {us ts : List Token}
      (hopening : opening.kind = .leftBrace) (he : e.Spelled us) (hclosing : closing.kind = .rightBrace)
      (hmore : SpelledText text ts) : SpelledText (.hole e pos :: text) (opening :: (us ++ closing :: ts))

/-- Every tag has a hash of its own. -/
inductive SpelledTags : List String → List Token → Prop
  | nil : SpelledTags [] []
  | cons {hash word : Token} {tags : List String} {ts : List Token} (hhash : hash.kind = .hash)
      (hword : word.kind = .text ∨ word.kind = .identifier) (hmore : SpelledTags tags ts) :
      SpelledTags (word.value :: tags) (hash :: word :: ts)

/-- A line of text behind its speaker. -/
inductive SpelledBody : List Segment → List String → List Token → Prop
  | mk {text : List Segment} {tags : List String} {us vs : List Token} {lineEnd : Token} (htext : SpelledText text us)
      (htags : SpelledTags tags vs) (hend : lineEnd.kind = .newline) : SpelledBody text tags (us ++ (vs ++ [lineEnd]))

/-- A speaker with the colon. -/
inductive Speech.Spelled : Speech → List Token → Prop
  | plain {speaker colon : Token} (hspeaker : speaker.kind = .text ∨ speaker.kind = .identifier)
      (hcolon : colon.kind = .colon) : Speech.Spelled ⟨speaker.value, none⟩ [speaker, colon]
  | feeling {speaker opening emotion closing colon : Token}
      (hspeaker : speaker.kind = .text ∨ speaker.kind = .identifier) (hopening : opening.kind = .leftBracket)
      (hemotion : emotion.kind = .text ∨ emotion.kind = .identifier) (hclosing : closing.kind = .rightBracket)
      (hcolon : colon.kind = .colon) :
      Speech.Spelled ⟨speaker.value, some emotion.value⟩ [speaker, opening, emotion, closing, colon]

/-- The guard of a choice, if it has one. -/
inductive SpelledGuard : Option Expr → List Token → Prop
  | none : SpelledGuard none []
  | some {opening word closing : Token} {e : Expr} {ts : List Token} (hopening : opening.kind = .leftBracket)
      (hword : word.kind = .ifWord) (he : e.Spelled ts) (hclosing : closing.kind = .rightBracket) :
      SpelledGuard (some e) (opening :: word :: (ts ++ [closing]))

/-- A test with the end of its line. -/
inductive SpelledTest : Expr → List Token → Prop
  | mk {e : Expr} {ts : List Token} {lineEnd : Token} (he : e.Spelled ts) (hend : lineEnd.kind = .newline) :
      SpelledTest e (ts ++ [lineEnd])

/-- The words that make a command change a variable in this way. -/
def VarOp.words : VarOp → List TokenKind
  | set => [.varWord, .setWord]
  | add => [.addWord]
  | sub => [.subWord]
  | mul => [.mulWord]
  | div => [.divWord]
  | mod => [.modWord]

/-- A command line up to its end. -/
inductive Command.Spelled : Command → List Token → Prop
  | assign {word target : Token} {op : VarOp} {e : Expr} {ts : List Token} (hword : word.kind ∈ op.words)
      (htarget : target.kind = .reference) (he : e.Spelled ts) :
      Command.Spelled (.assign target.value op e) (word :: target :: ts)
  | assignSign {word target sign : Token} {op : VarOp} {e : Expr} {ts : List Token} (hword : word.kind ∈ op.words)
      (htarget : target.kind = .reference) (hsign : sign.kind = .assign) (he : e.Spelled ts) :
      Command.Spelled (.assign target.value op e) (word :: target :: sign :: ts)
  | bare {word name : Token} (hword : word.kind = .call) (hname : name.kind = .identifier) :
      Command.Spelled (.call name.value []) [word, name]
  | call {word name opening closing : Token} (hword : word.kind = .call) (hname : name.kind = .identifier)
      (hopening : opening.kind = .leftParen) (hclosing : closing.kind = .rightParen) :
      Command.Spelled (.call name.value []) [word, name, opening, closing]
  | callWith {word name opening closing : Token} {args : List Expr} {ts : List Token} (hword : word.kind = .call)
      (hname : name.kind = .identifier) (hopening : opening.kind = .leftParen) (hargs : Expr.AllSpelled args ts)
      (hclosing : closing.kind = .rightParen) :
      Command.Spelled (.call name.value args) (word :: name :: opening :: (ts ++ [closing]))
  | wait {word : Token} {e : Expr} {ts : List Token} (hword : word.kind = .wait) (he : e.Spelled ts) :
      Command.Spelled (.wait e) (word :: ts)
  | jump {word target : Token} (hword : word.kind = .jump) (htarget : target.kind = .identifier) :
      Command.Spelled (.jump target.value) [word, target]

mutual

inductive Content.Spelled : Content → List Token → Prop
  | narration {text : List Segment} {tags : List String} {pos : Pos} {ts : List Token}
      (h : SpelledBody text tags ts) : Content.Spelled (.line ⟨none, text, tags, pos⟩) ts
  | dialogue {speech : Speech} {text : List Segment} {tags : List String} {pos : Pos} {us vs : List Token}
      (hspeech : speech.Spelled us) (h : SpelledBody text tags vs) :
      Content.Spelled (.line ⟨some speech, text, tags, pos⟩) (us ++ vs)
  | choice {arrow lineEnd : Token} {text : List Segment} {guard : Option Expr} {content : List Content} {pos : Pos}
      {us vs ws : List Token} (harrow : arrow.kind = .arrow) (htext : SpelledText text us)
      (hguard : SpelledGuard guard vs) (hend : lineEnd.kind = .newline) (hcontent : SpelledBlock content ws) :
      Content.Spelled (.choice ⟨text, guard, content, pos⟩) (arrow :: (us ++ (vs ++ lineEnd :: ws)))
  | condition {opening closing lineEnd : Token} {test : Expr} {thenBranch : List Content} {elifs : List Branch}
      {elseBranch : Option (List Content)} {key : ConditionKey} {pos : Pos} {us vs ws xs : List Token}
      (hopening : opening.kind = .ifWord) (htest : SpelledTest test us) (hthen : SpelledBlock thenBranch vs)
      (helifs : SpelledElifs elifs ws) (helse : SpelledElse elseBranch xs) (hclosing : closing.kind = .endifWord)
      (hend : lineEnd.kind = .newline) :
      Content.Spelled (.condition ⟨test, thenBranch, elifs, elseBranch, key, pos⟩)
        (opening :: (us ++ (vs ++ (ws ++ (xs ++ [closing, lineEnd])))))
  | command {c : Command} {pos : Pos} {lineEnd : Token} {ts : List Token} (h : c.Spelled ts)
      (hend : lineEnd.kind = .newline) : Content.Spelled (.command c pos) (ts ++ [lineEnd])

/-- The block below a choice or a branch; an empty one is written as nothing. -/
inductive SpelledBlock : List Content → List Token → Prop
  | empty : SpelledBlock [] []
  | indented {opening closing : Token} {items : List Content} {ts : List Token} (hopening : opening.kind = .indent)
      (hne : items ≠ []) (h : SpelledItems items ts) (hclosing : closing.kind = .dedent) :
      SpelledBlock items (opening :: (ts ++ [closing]))

inductive SpelledItems : List Content → List Token → Prop
  | nil : SpelledItems [] []
  | cons {c : Content} {rest : List Content} {us vs : List Token} (h : c.Spelled us) (hmore : SpelledItems rest vs) :
      SpelledItems (c :: rest) (us ++ vs)

inductive SpelledElifs : List Branch → List Token → Prop
  | nil : SpelledElifs [] []
  | cons {opening : Token} {test : Expr} {content : List Content} {pos : Pos} {rest : List Branch}
      {us vs ws : List Token} (hopening : opening.kind = .elifWord) (htest : SpelledTest test us)
      (hcontent : SpelledBlock content vs) (hmore : SpelledElifs rest ws) :
      SpelledElifs (⟨test, content, pos⟩ :: rest) (opening :: (us ++ (vs ++ ws)))

inductive SpelledElse : Option (List Content) → List Token → Prop
  | none : SpelledElse none []
  | some {opening lineEnd : Token} {content : List Content} {ts : List Token} (hopening : opening.kind = .elseWord)
      (hend : lineEnd.kind = .newline) (h : SpelledBlock content ts) :
      SpelledElse (some content) (opening :: lineEnd :: ts)

end

inductive SpelledNodes : List Node → List Token → Prop
  | nil : SpelledNodes [] []
  | cons {header name lineEnd : Token} {content : List Content} {pos : Pos} {rest : List Node} {us vs : List Token}
      (hheader : header.kind = .doubleColon) (hname : name.kind = .identifier) (hend : lineEnd.kind = .newline)
      (h : SpelledItems content us) (hmore : SpelledNodes rest vs) :
      SpelledNodes (⟨name.value, content, pos⟩ :: rest) (header :: name :: lineEnd :: (us ++ vs))

/-! ### What the tokens tell -/

mutual

/-- The content without its places and without the keys of its conditions. -/
def Content.shape : Content → Content
  | .line l => .line (l.relocate nowhere)
  | .choice ⟨text, guard, content, _⟩ =>
    .choice ⟨relocateText nowhere text, guard.map Expr.placeless, contentShapes content, {}⟩
  | .condition ⟨test, thenBranch, elifs, elseBranch, _, _⟩ =>
    .condition ⟨test.placeless, contentShapes thenBranch, branchShapes elifs,
      match elseBranch with
      | some content => some (contentShapes content)
      | none => none, default, {}⟩
  | .command c _ => .command (c.relocate nowhere) {}

def contentShapes : List Content → List Content
  | [] => []
  | c :: rest => c.shape :: contentShapes rest

def branchShapes : List Branch → List Branch
  | [] => []
  | ⟨test, content, _⟩ :: rest => ⟨test.placeless, contentShapes content, {}⟩ :: branchShapes rest

end

def Node.shape (n : Node) : Node := { n with content := contentShapes n.content, pos := {} }

mutual

/-- The content and all content in its blocks, in reading order. -/
def Content.parts : Content → List Content
  | .line l => [.line l]
  | .command c pos => [.command c pos]
  | .choice ⟨text, guard, content, pos⟩ => .choice ⟨text, guard, content, pos⟩ :: contentParts content
  | .condition ⟨test, thenBranch, elifs, elseBranch, key, pos⟩ =>
    .condition ⟨test, thenBranch, elifs, elseBranch, key, pos⟩ :: (contentParts thenBranch ++ (branchParts elifs ++
      match elseBranch with
      | some content => contentParts content
      | none => []))

def contentParts : List Content → List Content
  | [] => []
  | c :: rest => c.parts ++ contentParts rest

def branchParts : List Branch → List Content
  | [] => []
  | ⟨_, content, _⟩ :: rest => contentParts content ++ branchParts rest

end

/-- Comes to nothing when it is parsed: a blank line, a blank choice with nothing below it, a condition with nothing in
its branches. -/
def Content.isElidable : Content → Bool
  | .line l => isBlankText l.text
  | .choice c => isBlankText c.text && c.content.isEmpty
  | .condition c => c.isEmpty
  | .command .. => false

/-- The emotion of a spoken line. -/
def Content.emotion? : Content → Option String
  | .line l => l.speech.bind Speech.emotion
  | _ => none

def Segment.Writable : Segment → Prop
  | .literal .. => True
  | .hole e _ => ∃ ts, e.Spelled ts
  | .stray _ => False

/-- The keys of conditions that are numbered one after the other. -/
def ConditionKey.run (node : String) (first count : Nat) : List ConditionKey :=
  (List.range' first count).map (ConditionKey.mk node)

theorem isEmpty_contentShapes (cs : List Content) : (contentShapes cs).isEmpty = cs.isEmpty := by
  cases cs <;> rfl

theorem all_isEmpty_branchShapes (bs : List Branch) :
    ((branchShapes bs).all fun b => b.content.isEmpty) = bs.all fun b => b.content.isEmpty := by
  induction bs with
  | nil => rfl
  | cons b rest ih =>
    obtain ⟨test, content, pos⟩ := b
    simp [branchShapes, ih, isEmpty_contentShapes]

/-- Whether content comes to nothing shows in its shape. -/
theorem Content.isElidable_shape (c : Content) : c.shape.isElidable = c.isElidable := by
  cases c with
  | line l => exact isBlankText_relocateText l.text
  | choice c =>
    obtain ⟨text, guard, content, pos⟩ := c
    simp [shape, isElidable, isBlankText_relocateText, isEmpty_contentShapes]
  | condition c =>
    obtain ⟨test, thenBranch, elifs, elseBranch, key, pos⟩ := c
    cases elseBranch <;>
      simp [shape, isElidable, Condition.isEmpty, isEmpty_contentShapes, all_isEmpty_branchShapes]
  | command c pos => rfl

theorem Content.isElidable_congr {c d : Content} (h : c.shape = d.shape) : c.isElidable = d.isElidable := by
  rw [← c.isElidable_shape, h, d.isElidable_shape]

/-- Its own expressions have phrases, and its text is made of literals and holes. -/
def Content.Writable : Content → Prop
  | .line l => ∀ segment ∈ l.text, segment.Writable
  | .choice c => (∀ segment ∈ c.text, segment.Writable) ∧ ∀ e ∈ c.guard, ∃ ts, e.Spelled ts
  | .condition c => (∃ ts, c.test.Spelled ts) ∧ ∀ b ∈ c.elifs, ∃ ts, b.test.Spelled ts
  | .command c _ => ∀ e ∈ c.exprs, ∃ ts, e.Spelled ts

theorem parts_choice (c : Choice) : (Content.choice c).parts = .choice c :: contentParts c.content := by
  cases c; rfl

theorem parts_condition (c : Condition) : (Content.condition c).parts = .condition c ::
    (contentParts c.thenBranch ++ (branchParts c.elifs ++ c.elseBranch.elim [] contentParts)) := by
  obtain ⟨test, thenBranch, elifs, _ | elseBranch, key, pos⟩ := c <;> rfl

theorem Content.mem_parts_self (c : Content) : c ∈ c.parts := by
  cases c with
  | line l => exact List.mem_singleton_self _
  | choice c => simp [parts_choice]
  | condition c => simp [parts_condition]
  | command c pos => exact List.mem_singleton_self _

theorem ConditionKey.run_succ (node : String) (first count : Nat) :
    run node first (count + 1) = ⟨node, first⟩ :: run node (first + 1) count := rfl

theorem ConditionKey.run_append (node : String) (first m n : Nat) :
    run node first m ++ run node (first + m) n = run node first (m + n) := by
  rw [run, run, run, ← List.map_append, List.range'_append_1]

theorem ConditionKey.length_run (node : String) (first count : Nat) : (run node first count).length = count := by
  simp [run]

/-! ### Everything can be written -/

theorem exists_spelledText {text : List Segment} (h : ∀ segment ∈ text, segment.Writable) : ∃ ts, SpelledText text ts := by
  induction text with
  | nil => exact ⟨[], .nil⟩
  | cons segment rest ih =>
    obtain ⟨ts, hts⟩ := ih fun segment hmem => h segment (.tail _ hmem)
    cases segment with
    | literal value pos => exact ⟨_, @SpelledText.literal ⟨.text, value, 1, 1⟩ _ _ _ rfl hts⟩
    | hole e pos =>
      obtain ⟨us, hus⟩ := h _ List.mem_cons_self
      exact ⟨_, @SpelledText.hole ⟨.leftBrace, "\x7b", 1, 1⟩ ⟨.rightBrace, "\x7d", 1, 1⟩ _ _ _ _ _ rfl hus rfl hts⟩
    | stray e => exact absurd (h _ List.mem_cons_self) id

theorem exists_spelledTags (tags : List String) : ∃ ts, SpelledTags tags ts := by
  induction tags with
  | nil => exact ⟨[], .nil⟩
  | cons tag rest ih =>
    obtain ⟨ts, hts⟩ := ih
    exact ⟨_, @SpelledTags.cons ⟨.hash, "#", 1, 1⟩ ⟨.text, tag, 1, 1⟩ _ _ rfl (.inl rfl) hts⟩

theorem exists_spelledSpeech (speech : Speech) : ∃ ts, speech.Spelled ts := by
  obtain ⟨speaker, _ | emotion⟩ := speech
  · exact ⟨_, @Speech.Spelled.plain ⟨.text, speaker, 1, 1⟩ ⟨.colon, ":", 1, 1⟩ (.inl rfl) rfl⟩
  · exact ⟨_, @Speech.Spelled.feeling ⟨.text, speaker, 1, 1⟩ ⟨.leftBracket, "[", 1, 1⟩ ⟨.text, emotion, 1, 1⟩
      ⟨.rightBracket, "]", 1, 1⟩ ⟨.colon, ":", 1, 1⟩ (.inl rfl) rfl (.inl rfl) rfl rfl⟩

theorem exists_allSpelled {e : Expr} {args : List Expr} (h : ∀ arg ∈ e :: args, ∃ ts, arg.Spelled ts) :
    ∃ ts, Expr.AllSpelled (e :: args) ts := by
  induction args generalizing e with
  | nil =>
    obtain ⟨ts, made, hmade, hsame⟩ := h e List.mem_cons_self
    exact ⟨ts, [made], .one hmade, congrArg (· :: []) hsame⟩
  | cons next rest ih =>
    obtain ⟨us, made, hmade, hsame⟩ := h e List.mem_cons_self
    obtain ⟨vs, more, hmore, hsame'⟩ := ih fun arg harg => h arg (.tail _ harg)
    refine ⟨_, made :: more, @DerivesList.more _ _ ⟨.comma, ",", 1, 1⟩ _ _ hmade rfl hmore, ?_⟩
    show made.placeless :: relocateAll nowhere more = e.placeless :: relocateAll nowhere (next :: rest)
    rw [hsame, hsame']

theorem exists_spelledCommand {c : Command} (h : ∀ e ∈ c.exprs, ∃ ts, e.Spelled ts) : ∃ ts, c.Spelled ts := by
  cases c with
  | assign name op value =>
    obtain ⟨ts, hts⟩ := h value (by simp [Command.exprs])
    obtain ⟨kind, hkind⟩ : ∃ kind, kind ∈ op.words := by cases op <;> exact ⟨_, List.mem_cons_self⟩
    exact ⟨_, @Command.Spelled.assign ⟨kind, op.label, 1, 1⟩ ⟨.reference, name, 1, 1⟩ _ _ _ hkind rfl hts⟩
  | call function args =>
    cases args with
    | nil => exact ⟨_, @Command.Spelled.bare ⟨.call, "call", 1, 1⟩ ⟨.identifier, function, 1, 1⟩ rfl rfl⟩
    | cons e rest =>
      obtain ⟨ts, hts⟩ := exists_allSpelled h
      exact ⟨_, @Command.Spelled.callWith ⟨.call, "call", 1, 1⟩ ⟨.identifier, function, 1, 1⟩ ⟨.leftParen, "(", 1, 1⟩
        ⟨.rightParen, ")", 1, 1⟩ _ _ rfl rfl rfl hts rfl⟩
  | wait duration =>
    obtain ⟨ts, hts⟩ := h duration (by simp [Command.exprs])
    exact ⟨_, @Command.Spelled.wait ⟨.wait, "wait", 1, 1⟩ _ _ rfl hts⟩
  | jump target => exact ⟨_, @Command.Spelled.jump ⟨.jump, "jump", 1, 1⟩ ⟨.identifier, target, 1, 1⟩ rfl rfl⟩

theorem exists_spelledTest {e : Expr} (h : ∃ ts, e.Spelled ts) : ∃ ts, SpelledTest e ts := by
  obtain ⟨ts, hts⟩ := h
  exact ⟨_, @SpelledTest.mk _ _ ⟨.newline, "\n", 1, 1⟩ hts rfl⟩

theorem exists_spelledGuard {guard : Option Expr} (h : ∀ e ∈ guard, ∃ ts, e.Spelled ts) : ∃ ts, SpelledGuard guard ts := by
  cases guard with
  | none => exact ⟨[], .none⟩
  | some e =>
    obtain ⟨ts, hts⟩ := h e rfl
    exact ⟨_, @SpelledGuard.some ⟨.leftBracket, "[", 1, 1⟩ ⟨.ifWord, "if", 1, 1⟩ ⟨.rightBracket, "]", 1, 1⟩ _ _ rfl rfl
      hts rfl⟩

theorem exists_spelledLine {l : Line} (h : ∀ segment ∈ l.text, segment.Writable) : ∃ ts, (Content.line l).Spelled ts := by
  obtain ⟨speech, text, tags, pos⟩ := l
  obtain ⟨us, hus⟩ := exists_spelledText h
  obtain ⟨vs, hvs⟩ := exists_spelledTags tags
  have hbody : SpelledBody text tags _ := @SpelledBody.mk _ _ _ _ ⟨.newline, "\n", 1, 1⟩ hus hvs rfl
  cases speech with
  | none => exact ⟨_, .narration hbody⟩
  | some speech =>
    obtain ⟨ws, hws⟩ := exists_spelledSpeech speech
    exact ⟨_, .dialogue hws hbody⟩

theorem exists_spelledBlock {items : List Content} (h : ∃ ts, SpelledItems items ts) : ∃ ts, SpelledBlock items ts := by
  by_cases hne : items = []
  · exact ⟨[], hne ▸ .empty⟩
  · obtain ⟨ts, hts⟩ := h
    exact ⟨_, @SpelledBlock.indented ⟨.indent, "", 1, 1⟩ ⟨.dedent, "", 1, 1⟩ _ _ rfl hne hts rfl⟩

mutual

theorem Content.exists_spelled (c : Content) (h : ∀ part ∈ c.parts, part.Writable) : ∃ ts, c.Spelled ts := by
  match c with
  | .line l => exact exists_spelledLine (h _ (Content.mem_parts_self _))
  | .choice ⟨text, guard, content, pos⟩ =>
    obtain ⟨htext, hguard⟩ := h _ (Content.mem_parts_self _)
    obtain ⟨us, hus⟩ := exists_spelledText htext
    obtain ⟨vs, hvs⟩ := exists_spelledGuard hguard
    obtain ⟨ws, hws⟩ := exists_spelledBlock (exists_spelledItems content fun part hpart =>
      h part (by simp [parts_choice, hpart]))
    exact ⟨_, @Content.Spelled.choice ⟨.arrow, "->", 1, 1⟩ ⟨.newline, "\n", 1, 1⟩ _ _ _ _ _ _ _ rfl hus hvs rfl hws⟩
  | .condition ⟨test, thenBranch, elifs, elseBranch, key, pos⟩ =>
    obtain ⟨htest, htests⟩ := h _ (Content.mem_parts_self _)
    obtain ⟨us, hus⟩ := exists_spelledTest htest
    obtain ⟨vs, hvs⟩ := exists_spelledBlock (exists_spelledItems thenBranch fun part hpart =>
      h part (by simp [parts_condition, hpart]))
    obtain ⟨ws, hws⟩ := exists_spelledElifs elifs (fun part hpart => h part (by simp [parts_condition, hpart])) htests
    obtain ⟨xs, hxs⟩ : ∃ xs, SpelledElse elseBranch xs := by
      match elseBranch with
      | none => exact ⟨[], .none⟩
      | some content =>
        obtain ⟨ts, hts⟩ := exists_spelledBlock (exists_spelledItems content fun part hpart =>
          h part (by simp [parts_condition, hpart]))
        exact ⟨_, @SpelledElse.some ⟨.elseWord, "else", 1, 1⟩ ⟨.newline, "\n", 1, 1⟩ _ _ rfl rfl hts⟩
    exact ⟨_, @Content.Spelled.condition ⟨.ifWord, "if", 1, 1⟩ ⟨.endifWord, "endif", 1, 1⟩ ⟨.newline, "\n", 1, 1⟩ _ _ _ _ _ _ _ _ _ _
      rfl hus hvs hws hxs rfl rfl⟩
  | .command c pos =>
    obtain ⟨ts, hts⟩ := exists_spelledCommand (h _ (Content.mem_parts_self _))
    exact ⟨_, @Content.Spelled.command _ _ ⟨.newline, "\n", 1, 1⟩ _ hts rfl⟩

theorem exists_spelledItems (items : List Content) (h : ∀ part ∈ contentParts items, part.Writable) :
    ∃ ts, SpelledItems items ts := by
  match items with
  | [] => exact ⟨[], .nil⟩
  | c :: rest =>
    obtain ⟨us, hus⟩ := c.exists_spelled fun part hpart => h part (by simp [contentParts, hpart])
    obtain ⟨vs, hvs⟩ := exists_spelledItems rest fun part hpart => h part (by simp [contentParts, hpart])
    exact ⟨_, .cons hus hvs⟩

theorem exists_spelledElifs (elifs : List Branch) (h : ∀ part ∈ branchParts elifs, part.Writable)
    (htests : ∀ b ∈ elifs, ∃ ts, b.test.Spelled ts) : ∃ ts, SpelledElifs elifs ts := by
  match elifs with
  | [] => exact ⟨[], .nil⟩
  | ⟨test, content, pos⟩ :: rest =>
    obtain ⟨us, hus⟩ := exists_spelledTest (htests _ List.mem_cons_self)
    obtain ⟨vs, hvs⟩ := exists_spelledBlock (exists_spelledItems content fun part hpart =>
      h part (by simp [branchParts, hpart]))
    obtain ⟨ws, hws⟩ := exists_spelledElifs rest (fun part hpart => h part (by simp [branchParts, hpart]))
      fun b hb => htests b (.tail _ hb)
    exact ⟨_, @SpelledElifs.cons ⟨.elifWord, "elif", 1, 1⟩ _ _ _ _ _ _ _ rfl hus hvs hws⟩

end

/-- There are tokens for every script whose expressions are phrases. -/
theorem exists_spelledNodes (ns : List Node) (h : ∀ n ∈ ns, ∀ part ∈ contentParts n.content, part.Writable) :
    ∃ ts, SpelledNodes ns ts := by
  induction ns with
  | nil => exact ⟨[], .nil⟩
  | cons n rest ih =>
    obtain ⟨us, hus⟩ := exists_spelledItems n.content (h n List.mem_cons_self)
    obtain ⟨vs, hvs⟩ := ih fun n hn => h n (.tail _ hn)
    exact ⟨_, @SpelledNodes.cons ⟨.doubleColon, "::", 1, 1⟩ ⟨.identifier, n.name, 1, 1⟩ ⟨.newline, "\n", 1, 1⟩ _ _ _ _ _ rfl rfl
      rfl hus hvs⟩

end Parley
