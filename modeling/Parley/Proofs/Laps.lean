import Parley.Proofs.Finishing

/-! # The loops of the parser

Where the parser repeats something it goes round a loop: each lap comes to a next one or to the answer (`Lap`), and an
error of a lap ends the loop too. The recursions of the parser are these loops, and a lap takes a token, unless it is the
last one and leaves all as it was (`Productive`). So the parser comes to an end over any tokens. -/

namespace Parley

/-- What a lap of a loop comes to: another lap, and what is made of the answer of those to come; or the answer. -/
inductive Lap (ι α : Type) where
  | again (next : ι) (wrap : α → α)
  | last (answer : α)

namespace Lap
variable {ι α : Type}

def IsLast : Lap ι α → Prop
  | again .. => False
  | last _ => True

end Lap

namespace Reading
variable {ι α : Type}

def loop (lap : Nat → ι → Reading (Lap ι α)) : Nat → ι → Reading α
  | 0, _, _ => .error .unfinished
  | fuel + 1, i, ts => do
    let (lapped, ts) ← lap fuel i ts
    match lapped with
    | .again next wrap => do
      let (answer, ts) ← loop lap fuel next ts
      return (wrap answer, ts)
    | .last answer => return (answer, ts)

/-- Whatever the tokens, a lap takes one or it is the last one and leaves them as they were. -/
def Productive (lap : Nat → ι → Reading (Lap ι α)) : Prop :=
  ∀ fuel i ts lapped rest, lap fuel i ts = .ok (lapped, rest) → Taken 1 ts rest ∨ lapped.IsLast ∧ rest = ts

/-- A recursion of readings is this loop, which is productive. -/
structure IsLoop (run : Nat → ι → Reading α) (lap : Nat → ι → Reading (Lap ι α)) : Prop where
  unrolls : ∀ fuel i ts, run fuel i ts = loop lap fuel i ts
  productive : Productive lap

/-- An operator and the operand after it, while there is one. -/
def operatorLap (tier : List TokenKind) (tighter : List (List TokenKind)) (fuel : Nat) (left : Expr) :
    Reading (Lap Expr Expr) := fun ts =>
  let op := peek ts
  if tier.contains op.kind then do
    let (right, ts) ← tiersIn fuel tighter (skip ts)
    return (.again (.binary (.ofSymbol op.value) left right op.pos) id, ts)
  else return (.last left, ts)

/-- An argument, with the comma or the parenthesis after it. -/
def argumentLap (fuel : Nat) (_ : Unit) : Reading (Lap Unit (List Expr)) := fun ts => do
  let (arg, ts) ← tiersIn fuel tiers ts
  if sees ts .comma then return (.again () (arg :: ·), skip ts)
  else
    let (_, ts) ← consume .rightParen "')' after arguments" ts
    return (.last [arg], ts)

/-- A literal run or an expression in braces, while there is one. -/
def textLap (_ : Nat) (_ : Unit) : Reading (Lap Unit (List Segment)) := fun ts =>
  let t := peek ts
  match t.kind with
  | .text => return (.again () (.literal t.value t.pos :: ·), skip ts)
  | .leftBrace => do
    let (e, ts) ← expression (skip ts)
    let (_, ts) ← consume .rightBrace "'\x7d' after interpolation" ts
    return (.again () (.hole e t.pos :: ·), ts)
  | _ => return (.last [], ts)

/-- A word or a comma, while there is one. -/
def wordLap (_ : Nat) (_ : Unit) : Reading (Lap Unit (List String)) := fun ts =>
  let t := peek ts
  match t.kind with
  | .identifier | .text => return (.again () (t.value :: ·), skip ts)
  | .comma => return (.again () id, skip ts)
  | _ => return (.last [], ts)

/-- A hash and the words after it, while there is one. -/
def tagLap (fuel : Nat) (_ : Unit) : Reading (Lap Unit (List String)) := fun ts =>
  if sees ts .hash then do
    let (words, ts) ← loop wordLap fuel () (skip ts)
    return (.again () (words ++ ·), ts)
  else return (.last [], ts)

theorem operatorsIn_eq_loop (tier : List TokenKind) (tighter : List (List TokenKind)) (fuel : Nat) (left : Expr)
    (ts : List Token) : operatorsIn fuel tier tighter left ts = loop (operatorLap tier tighter) fuel left ts := by
  induction fuel generalizing left ts with
  | zero => rw [operatorsIn, loop]
  | succ fuel ih =>
    rw [operatorsIn, loop, operatorLap]
    dsimp only
    split
    · simp [ih]
    · rfl

theorem argumentListIn_eq_loop (fuel : Nat) (ts : List Token) :
    argumentListIn fuel ts = loop argumentLap fuel () ts := by
  induction fuel generalizing ts with
  | zero => rw [argumentListIn, loop]
  | succ fuel ih =>
    rw [argumentListIn, loop, argumentLap, bind_assoc]
    refine bind_congr fun made => ?_
    dsimp only
    split
    · simp [ih]
    · simp

theorem textIn_eq_loop (fuel : Nat) (ts : List Token) : textIn fuel ts = loop textLap fuel () ts := by
  induction fuel generalizing ts with
  | zero => rw [textIn, loop]
  | succ fuel ih =>
    rw [textIn, loop, textLap]
    dsimp only
    split
    · next hkind => simp [hkind, ih]
    · next hkind => simp [hkind, ih]
    · simp only [pure_bind]
      rfl

/-- A token between two hashes of tags. -/
def isTagWord (t : Token) : Bool := t.kind == .identifier || t.kind == .text || t.kind == .comma

theorem loop_wordLap {fuel : Nat} {ts : List Token} (hfuel : ts.length < fuel) :
    loop wordLap fuel () ts = .ok (((ts.takeWhile isTagWord).filter fun t => t.kind == .identifier || t.kind == .text).map
      Token.value, ts.dropWhile isTagWord) := by
  induction fuel generalizing ts with
  | zero => omega
  | succ fuel ih =>
    rw [loop, wordLap]
    cases ts with
    | nil => rfl
    | cons t ts =>
      rw [List.length_cons] at hfuel
      have hnext := @ih ts (by omega)
      dsimp only [peek, List.headD_cons]
      split
      · next hkind => simp [skip_cons hkind, hnext, isTagWord, hkind]
      · next hkind => simp [skip_cons hkind, hnext, isTagWord, hkind]
      · next hkind => simp [skip_cons hkind, hnext, isTagWord, hkind]
      · next hid htext hcomma =>
        have hno : isTagWord t = false := by simpa [isTagWord] using ⟨⟨hid, htext⟩, hcomma⟩
        simp [hno]
        rfl

theorem isTagPart_eq (t : Token) : isTagPart t = (t.kind == .hash || isTagWord t) := by
  simp only [isTagPart, isTagWord, Bool.or_assoc]

/-- What is left behind the words of a hash holds more tags just where it opens with another hash. -/
theorem tags_dropWhile (ts : List Token) : tags (ts.dropWhile isTagWord) =
    ((((ts.dropWhile isTagWord).takeWhile isTagPart).filter fun t => t.kind == .identifier || t.kind == .text).map
      Token.value, (ts.dropWhile isTagWord).dropWhile isTagPart) := by
  unfold tags
  split
  · rfl
  · next hno =>
    cases hrest : ts.dropWhile isTagWord with
    | nil => rfl
    | cons t rest =>
      have hword : isTagWord t = false := by simpa [hrest] using List.head?_dropWhile_not isTagWord ts
      have hhash : (t.kind == .hash) = false := by simpa [hrest, sees, peek] using hno
      have hpart : isTagPart t = false := by rw [isTagPart_eq, hhash, hword]; rfl
      simp [hpart]

theorem tags_cons_hash {t : Token} {ts : List Token} (ht : t.kind = .hash) : tags (t :: ts) =
    (((ts.takeWhile isTagWord).filter fun t => t.kind == .identifier || t.kind == .text).map Token.value ++
      (tags (ts.dropWhile isTagWord)).1, (tags (ts.dropWhile isTagWord)).2) := by
  have hwords : ∀ u ∈ ts.takeWhile isTagWord, isTagPart u = true := fun u hu => by
    rw [isTagPart_eq, List.mem_takeWhile_imp hu, Bool.or_true]
  have hpart : isTagPart t = true := by simp [isTagPart, ht]
  have hsplit : ts.takeWhile isTagWord ++ ts.dropWhile isTagWord = ts := List.takeWhile_append_dropWhile
  have htake : ts.takeWhile isTagPart = ts.takeWhile isTagWord ++ (ts.dropWhile isTagWord).takeWhile isTagPart := by
    rw [← List.takeWhile_append_of_pos hwords, hsplit]
  have hdrop : ts.dropWhile isTagPart = (ts.dropWhile isTagWord).dropWhile isTagPart := by
    calc ts.dropWhile isTagPart
        = (ts.takeWhile isTagWord ++ ts.dropWhile isTagWord).dropWhile isTagPart := by rw [hsplit]
      _ = (ts.dropWhile isTagWord).dropWhile isTagPart := List.dropWhile_append_of_pos hwords
  rw [tags_dropWhile, ← hdrop, tags, if_pos (by simp [sees, peek, ht])]
  simp [hpart, ht, htake]

theorem tags_eq_loop {fuel : Nat} {ts : List Token} (hfuel : ts.length < fuel) :
    .ok (tags ts) = loop tagLap fuel () ts := by
  induction fuel generalizing ts with
  | zero => omega
  | succ fuel ih =>
    rw [loop, tagLap]
    cases ts with
    | nil => rfl
    | cons t ts =>
      rw [List.length_cons] at hfuel
      by_cases hhash : t.kind = .hash
      · have hsees : sees (t :: ts) .hash = true := by simp [sees, peek, hhash]
        have hrest := ih (Nat.lt_of_le_of_lt (List.length_dropWhile_le isTagWord ts) (by omega))
        rw [if_pos hsees, skip_cons hhash (by decide), loop_wordLap (by omega), tags_cons_hash hhash]
        show _ = loop tagLap fuel () (ts.dropWhile isTagWord) >>= _
        rw [← hrest]
        rfl
      · have hsees : ¬ sees (t :: ts) .hash = true := by simpa [sees, peek] using hhash
        rw [if_neg hsees, tags, if_neg hsees]
        rfl

/-! ### What the laps of readings take -/

theorem taken_skip {kind : TokenKind} {ts : List Token} (hline : kind.isLayout = false) (h : (peek ts).kind = kind) :
    Taken 1 ts (skip ts) :=
  .skip fun heof => by
    obtain rfl : kind = .eof := h.symm.trans heof
    cases hline

theorem taken_of_sees {kind : TokenKind} {ts : List Token} (hline : kind.isLayout = false) (h : sees ts kind = true) :
    Taken 1 ts (skip ts) :=
  taken_skip hline (by simpa [sees] using h)

theorem taken_loop {lap : Nat → ι → Reading (Lap ι α)} (hlap : Productive lap) {fuel : Nat} {i : ι}
    {ts rest : List Token} {answer : α} (h : loop lap fuel i ts = .ok (answer, rest)) : Taken 0 ts rest := by
  induction fuel generalizing i ts answer with
  | zero => cases h
  | succ fuel ih =>
    obtain ⟨⟨lapped, after⟩, hfirst, hmore⟩ := ok_of_bind h
    have htaken : Taken 0 ts after := by
      obtain htaken | ⟨-, rfl⟩ := hlap fuel i ts lapped after hfirst
      · exact htaken.any
      · exact .refl _
    cases lapped with
    | last made =>
      cases hmore
      exact htaken
    | again next wrap =>
      obtain ⟨⟨made, left⟩, hmade, hdone⟩ := ok_of_bind hmore
      cases hdone
      exact htaken.trans (ih hmade)

theorem productive_operatorLap {tier : List TokenKind} {tighter : List (List TokenKind)}
    (htiers : tier :: tighter <:+ tiers) : Productive (operatorLap tier tighter) := by
  intro fuel left ts lapped rest hlap
  have hops : ∀ tier' ∈ tier :: tighter, ∀ kind ∈ tier', kind.isLayout = false :=
    fun tier' ht => Inline.isLayout_tiers tier' (htiers.subset ht)
  unfold operatorLap at hlap
  dsimp only at hlap
  split at hlap
  · next hop =>
    obtain ⟨⟨right, after⟩, hright, hdone⟩ := ok_of_bind hlap
    cases hdone
    have hoperand : OnLine (skip ts) (tiersIn fuel tighter (skip ts)) :=
      (inline fuel).tiers fun t ht => hops t (List.mem_cons_of_mem tier ht)
    exact .inl ((taken_skip (hops tier (by simp) _ (by simpa using hop)) rfl).trans (.of_onLine hoperand hright))
  · cases hlap
    exact .inr ⟨trivial, rfl⟩

theorem productive_argumentLap : Productive argumentLap := by
  intro fuel i ts lapped rest hlap
  obtain ⟨⟨arg, after⟩, harg, hmore⟩ := ok_of_bind hlap
  have hfirst : Taken 0 ts after := .of_onLine ((inline fuel).tiers Inline.isLayout_tiers) harg
  dsimp only at hmore
  split at hmore
  · next hcomma =>
    cases hmore
    exact .inl (hfirst.trans (taken_of_sees rfl hcomma))
  · obtain ⟨⟨closing, left⟩, hclosing, hdone⟩ := ok_of_bind hmore
    cases hdone
    exact .inl (hfirst.trans (.of_consume (by decide) hclosing))

theorem productive_textLap : Productive textLap := by
  intro fuel i ts lapped rest hlap
  unfold textLap at hlap
  dsimp only at hlap
  split at hlap
  · next hkind =>
    cases hlap
    exact .inl (taken_skip rfl hkind)
  · next hkind =>
    obtain ⟨⟨e, after⟩, he, hmore⟩ := ok_of_bind hlap
    obtain ⟨⟨closing, left⟩, hclosing, hdone⟩ := ok_of_bind hmore
    cases hdone
    have hhole : Taken 1 ts after := (taken_skip rfl hkind).trans (.of_onLine onLine_expression he)
    exact .inl ((hhole.trans (.of_consume (by decide) hclosing)).less (by decide))
  · cases hlap
    exact .inr ⟨trivial, rfl⟩

theorem productive_wordLap : Productive wordLap := by
  intro fuel i ts lapped rest hlap
  unfold wordLap at hlap
  dsimp only at hlap
  split at hlap <;> cases hlap
  · next hkind => exact .inl (taken_skip rfl hkind)
  · next hkind => exact .inl (taken_skip rfl hkind)
  · next hkind => exact .inl (taken_skip rfl hkind)
  · exact .inr ⟨trivial, rfl⟩

theorem productive_tagLap : Productive tagLap := by
  intro fuel i ts lapped rest hlap
  unfold tagLap at hlap
  split at hlap
  · next hhash =>
    obtain ⟨⟨words, after⟩, hwords, hdone⟩ := ok_of_bind hlap
    cases hdone
    exact .inl ((taken_of_sees rfl hhash).trans (taken_loop productive_wordLap hwords))
  · cases hlap
    exact .inr ⟨trivial, rfl⟩

end Reading

namespace ParseM
variable {ι α : Type}

def loop (lap : Nat → ι → ParseM (Lap ι α)) : Nat → ι → ParseM α
  | 0, _ => throw .unfinished
  | fuel + 1, i => do
    match ← lap fuel i with
    | .again next wrap => wrap <$> loop lap fuel next
    | .last answer => return answer

def Productive (lap : Nat → ι → ParseM (Lap ι α)) : Prop :=
  ∀ fuel i s lapped s', lap fuel i s = .ok lapped s' → Taken 1 s.rest s'.rest ∨ lapped.IsLast ∧ s' = s

/-- A recursion of the parser is this loop, which is productive. -/
structure IsLoop (run : Nat → ι → ParseM α) (lap : Nat → ι → ParseM (Lap ι α)) : Prop where
  unrolls : ∀ fuel i, run fuel i = loop lap fuel i
  productive : Productive lap

def elifLap (node : String) (fuel : Nat) (_ : Unit) : ParseM (Lap Unit (List Branch)) := do
  if (← kind) = .elifWord then
    let opening ← advance
    let test ← test
    let content ← block node fuel
    return .again () (⟨test, content, opening.pos⟩ :: ·)
  return .last []

def blockLap (node : String) (fuel depth : Nat) : ParseM (Lap Nat (List Content)) := do
  match ← kind with
  | .indent =>
    let _ ← advance
    return .again (depth + 1) id
  | .dedent =>
    let _ ← advance
    match depth with
    | 0 => return .last []
    | depth + 1 => return .again depth id
  | .newline =>
    let _ ← advance
    return .again depth id
  | .eof | .doubleColon => fail "end of indented block"
  | _ =>
    let item ← content node fuel
    return .again depth (item.toList ++ ·)

theorem elifs_eq_loop (node : String) (fuel : Nat) : elifs node fuel = loop (elifLap node) fuel () := by
  induction fuel with
  | zero => rfl
  | succ fuel ih =>
    rw [elifs, loop, elifLap, bind_assoc]
    refine bind_congr fun kind => ?_
    split <;> simp [ih]

theorem blockItems_eq_loop (node : String) (fuel depth : Nat) :
    blockItems node depth fuel = loop (blockLap node) fuel depth := by
  induction fuel generalizing depth with
  | zero => rfl
  | succ fuel ih =>
    unfold blockItems
    rw [loop, blockLap.eq_def, bind_assoc]
    refine bind_congr fun kind => ?_
    split
    · simp [ih]
    · cases depth <;> simp [ih]
    · simp [ih]
    · rfl
    · rfl
    · simp [ih]

def nodeLap (name : String) (fuel depth : Nat) : ParseM (Lap Nat (List Content)) := do
  match ← kind with
  | .eof | .doubleColon => return .last []
  | .indent =>
    let _ ← advance
    return .again (depth + 1) id
  | .dedent =>
    match depth with
    | 0 => fail "content"
    | depth + 1 =>
      let _ ← advance
      return .again depth id
  | .newline =>
    let _ ← advance
    return .again depth id
  | _ =>
    let item ← content name fuel
    return .again depth (item.toList ++ ·)

def scriptLap (fuel : Nat) (_ : Unit) : ParseM (Lap Unit (List Node)) := do
  match ← kind with
  | .newline | .dedent =>
    let _ ← advance
    return .again () id
  | .eof => return .last []
  | .doubleColon =>
    let made ← node fuel
    if made.content.isEmpty then
      note (.node made.name)
      return .again () id
    else return .again () (made :: ·)
  | _ => fail "node header '::'"

theorem fail_bind {β : Type} (expected : String) (f : α → ParseM β) : (fail expected >>= f) = fail expected := rfl

theorem nodeItems_eq_loop (name : String) (fuel depth : Nat) :
    nodeItems name depth fuel = loop (nodeLap name) fuel depth := by
  induction fuel generalizing depth with
  | zero => rfl
  | succ fuel ih =>
    unfold nodeItems
    rw [loop, nodeLap.eq_def, bind_assoc]
    refine bind_congr fun kind => ?_
    split
    · simp
    · simp
    · simp [ih]
    · cases depth with
      | zero => rfl
      | succ depth => simp [ih]
    · simp [ih]
    · simp [ih]

theorem nodes_eq_loop (fuel : Nat) : nodes fuel = loop scriptLap fuel () := by
  induction fuel with
  | zero => rfl
  | succ fuel ih =>
    rw [nodes, loop, scriptLap, bind_assoc]
    refine bind_congr fun kind => ?_
    split
    · simp [ih]
    · simp [ih]
    · simp
    · rw [bind_assoc]
      refine bind_congr fun made => ?_
      split <;> simp [ih]
    · simp [fail_bind]

/-! ### What the laps take -/

/-- An answer is that of a last lap. -/
theorem exists_last_of_loop {lap : Nat → ι → ParseM (Lap ι α)} {fuel : Nat} {i : ι} {s s' : ParseState} {answer : α}
    (h : loop lap fuel i s = .ok answer s') : ∃ left next t made, lap left next t = .ok (.last made) s' := by
  induction fuel generalizing i s answer with
  | zero => cases h
  | succ fuel ih =>
    obtain ⟨lapped, t, hlap, hrest⟩ := bind_ok h
    cases lapped with
    | last made =>
      cases hrest
      exact ⟨fuel, i, s, _, hlap⟩
    | again next wrap =>
      dsimp only at hrest
      rw [map_eq_pure_bind] at hrest
      obtain ⟨more, u, hmore, hmade⟩ := bind_ok hrest
      cases hmade
      exact ih hmore

/-- From tokens with `P` a lap takes one, or it is the last one and leaves all as it was. -/
def Gains (P : List Token → Prop) (x : ParseM (Lap ι α)) : Prop :=
  ∀ s : ParseState, P s.rest → ∀ lapped s', x s = .ok lapped s' →
    Taken 1 s.rest s'.rest ∨ lapped.IsLast ∧ s' = s

namespace Gains
variable {P : List Token → Prop} {x : ParseM (Lap ι α)}

theorem of_goes (h : Goes P 0 1 x) : Gains P x :=
  fun s hs lapped s' hrun => .inl ((h.advances s hs).answered lapped s' hrun)

theorem last {made : α} : Gains P (pure (.last made) : ParseM (Lap ι α)) := by
  rintro s - lapped s' ⟨⟩
  exact .inr ⟨trivial, rfl⟩

theorem kind {f : TokenKind → ParseM (Lap ι α)} (hf : ∀ kind, Gains (fun ts => P ts ∧ Ahead kind ts) (f kind)) :
    Gains P (ParseM.kind >>= f) :=
  fun s hs => hf (Reading.peek s.rest).kind s ⟨hs, rfl⟩

/-- Past a token that is not the end. -/
theorem past {wanted : TokenKind} {y : ParseM (Lap ι α)} (hwanted : wanted ≠ .eof) (hy : Goes Any 0 0 y) :
    Gains (fun ts => P ts ∧ Ahead wanted ts) (advance >>= fun _ => y) :=
  .of_goes (.past hwanted hy)

theorem content {node : String} {fuel : Nat} {kind : TokenKind} (hkind : kind ≠ .eof)
    {made : Option Content → Lap ι α} :
    Gains (fun ts => P ts ∧ Ahead kind ts) (content node fuel >>= fun item => pure (made item)) :=
  .of_goes ((((ample node fuel).content 0 (Nat.zero_le _)).weaken (inside_of_ahead hkind)).bind fun _ => .pure)

end Gains

theorem productive_elifLap (node : String) : Productive (elifLap node) := by
  intro fuel i s
  refine (?_ : Gains Any (elifLap node fuel i)) s trivial
  refine .kind fun kind => ?_
  split
  · next helif =>
    refine .of_goes (.advance (inside_of_ahead (by rw [helif]; decide)) fun opening => goes_test.bind fun test => ?_)
    exact ((ample node fuel).block _ (Nat.zero_le _)).bind fun content => .pure
  · exact .last

theorem productive_blockLap (node : String) : Productive (blockLap node) := by
  intro fuel depth s
  refine (?_ : Gains Any (blockLap node fuel depth)) s trivial
  unfold blockLap
  refine .kind fun kind => ?_
  split
  · exact .past (by decide) .pure
  · refine .past (by decide) ?_
    cases depth <;> exact .pure
  · exact .past (by decide) .pure
  · exact .of_goes .fail
  · exact .of_goes .fail
  · next heof _ => exact .content heof

theorem productive_nodeLap (name : String) : Productive (nodeLap name) := by
  intro fuel depth s
  refine (?_ : Gains Any (nodeLap name fuel depth)) s trivial
  unfold nodeLap
  refine .kind fun kind => ?_
  split
  · exact .last
  · exact .last
  · exact .past (by decide) .pure
  · cases depth with
    | zero => exact .of_goes .fail
    | succ depth => exact .past (by decide) .pure
  · exact .past (by decide) .pure
  · next heof _ _ _ _ => exact .content heof

theorem productive_scriptLap : Productive scriptLap := by
  intro fuel i s
  refine (?_ : Gains Any (scriptLap fuel i)) s trivial
  unfold scriptLap
  refine .kind fun kind => ?_
  split
  · exact .past (by decide) .pure
  · exact .past (by decide) .pure
  · exact .last
  · have hnode : Goes Inside 0 1 (node fuel) := goes_node fuel 0 (Nat.zero_le _)
    refine .of_goes ((hnode.weaken (inside_of_ahead (by decide))).bind fun made => ?_)
    exact .ite (fun _ => .note .pure) fun _ => .pure
  · exact .of_goes .fail

/-- Only at the end of the text there are no more nodes. -/
theorem peek_of_scriptLap {fuel : Nat} {s s' : ParseState} {made : List Node}
    (h : scriptLap fuel () s = .ok (.last made) s') : (Reading.peek s'.rest).kind = .eof := by
  unfold scriptLap at h
  obtain ⟨kind, t, hkind, h⟩ := bind_ok h
  cases hkind
  generalize hahead : (Reading.peek s.rest).kind = ahead at h
  split at h
  · cases h
  · cases h
  · cases h
    exact hahead
  · obtain ⟨node, t, -, hnode⟩ := bind_ok h
    split at hnode <;> cases hnode
  · cases h

end ParseM

/-- The parts of the parser that read blocks, with so many calls. -/
structure ParseM.Advancing (node : String) (fuel : Nat) : Prop where
  content : Advances Inside 1 (content node fuel)
  choice : Advances Inside 1 (choice node fuel)
  condition : Advances Inside 1 (condition node fuel)
  elifs : Advances Any 0 (elifs node fuel)
  block : Advances Any 0 (block node fuel)
  items : ∀ depth, Advances Any 0 (blockItems node depth fuel)

/-- None of them goes back, however few the calls. -/
theorem ParseM.advancing (node : String) (fuel : Nat) : Advancing node fuel :=
  have h := ample node fuel
  ⟨(h.content 0 (Nat.zero_le _)).advances, (h.choice 0 (Nat.zero_le _)).advances,
    (h.condition 0 (Nat.zero_le _)).advances, (h.elifs 0 (Nat.zero_le _)).advances,
    (h.block 0 (Nat.zero_le _)).advances, fun depth => (h.items 0 depth (Nat.zero_le _)).advances⟩

/-- The loops over the tokens of a line. -/
structure Reading.Looping : Prop where
  operators : ∀ tier tighter, tier :: tighter <:+ tiers →
    IsLoop (fun fuel left => operatorsIn fuel tier tighter left) (operatorLap tier tighter)
  arguments : IsLoop (fun fuel _ => argumentListIn fuel) argumentLap
  text : IsLoop (fun fuel _ => textIn fuel) textLap
  tags : ∀ fuel ts, ts.length < fuel → .ok (Reading.tags ts) = loop tagLap fuel () ts
  tagged : Productive tagLap
  worded : Productive wordLap

theorem Reading.looping : Reading.Looping where
  operators tier tighter htiers := ⟨operatorsIn_eq_loop tier tighter, productive_operatorLap htiers⟩
  arguments := ⟨fun fuel _ => argumentListIn_eq_loop fuel, productive_argumentLap⟩
  text := ⟨fun fuel _ => textIn_eq_loop fuel, productive_textLap⟩
  tags _ _ hfuel := tags_eq_loop hfuel
  tagged := productive_tagLap
  worded := productive_wordLap

/-- The loops over lines. -/
structure ParseM.Looping : Prop where
  nodes : IsLoop (fun fuel _ => nodes fuel) scriptLap
  body : ∀ name, IsLoop (fun fuel depth => nodeItems name depth fuel) (nodeLap name)
  block : ∀ node, IsLoop (fun fuel depth => blockItems node depth fuel) (blockLap node)
  elifs : ∀ node, IsLoop (fun fuel _ => elifs node fuel) (elifLap node)

theorem ParseM.looping : ParseM.Looping where
  nodes := ⟨fun fuel _ => nodes_eq_loop fuel, productive_scriptLap⟩
  body name := ⟨nodeItems_eq_loop name, productive_nodeLap name⟩
  block node := ⟨blockItems_eq_loop node, productive_blockLap node⟩
  elifs node := ⟨fun fuel _ => elifs_eq_loop node fuel, productive_elifLap node⟩

/-- Whatever its tokens, as long as the numbers among them are numerals, the parser takes them one after the other, the
end of the text never, until it has a script and is at the first end, or meets a token that the grammar does not ask
for. No part of it goes back, and a lap of any of its loops takes a token. -/
theorem parseTokens_progresses {tokens : List Token} (h : Numbered tokens) :
    (∃ s : ParseState, Taken 0 (Reading.terminated tokens) s.rest ∧
      ((∃ nodes,
          ParseM.nodes (Reading.patience (Reading.terminated tokens)) { rest := Reading.terminated tokens } = .ok nodes s ∧
          (parseTokens tokens).1 = .ok ⟨nodes⟩ ∧ (Reading.peek s.rest).kind = .eof) ∨
        ∃ line column expected found,
          ParseM.nodes (Reading.patience (Reading.terminated tokens)) { rest := Reading.terminated tokens } =
            .error (.unexpected line column expected found) s ∧
          (parseTokens tokens).1 = .error (.unexpected line column expected found))) ∧
    (∀ node fuel, ParseM.Advancing node fuel) ∧ ParseM.Looping ∧ Reading.Looping := by
  refine ⟨?_, ParseM.advancing, ParseM.looping, Reading.looping⟩
  have hforward := (ParseM.goes_nodes (Reading.patience (Reading.terminated tokens)) 0 (Nat.zero_le _)).advances
    { rest := Reading.terminated tokens } trivial
  cases hrun : ParseM.nodes (Reading.patience (Reading.terminated tokens)) { rest := Reading.terminated tokens } with
  | ok nodes s =>
    have hparsed : (parseTokens tokens).1 = .ok ⟨nodes⟩ := by rw [parseTokens, hrun]
    have hloop := hrun
    rw [ParseM.nodes_eq_loop] at hloop
    obtain ⟨fuel, next, t, made, hlast⟩ := ParseM.exists_last_of_loop hloop
    exact ⟨s, hforward.answered nodes s hrun, .inl ⟨nodes, rfl, hparsed, ParseM.peek_of_scriptLap hlast⟩⟩
  | error e s =>
    have hparsed : (parseTokens tokens).1 = .error e := by rw [parseTokens, hrun]
    obtain ⟨line, column, expected, found, rfl⟩ := parseTokens_finishes h hparsed
    exact ⟨s, hforward.failed _ s hrun, .inr ⟨line, column, expected, found, rfl, hparsed⟩⟩

/-- A block with a number in it that neither the dedent nor the end of the text closes. -/
def openBlock : List Token :=
  [⟨.doubleColon, "::", 1, 1⟩, ⟨.identifier, "n", 1, 4⟩, ⟨.newline, "\\n", 1, 5⟩, ⟨.arrow, "->", 2, 1⟩,
    ⟨.newline, "\\n", 2, 3⟩, ⟨.indent, "", 3, 1⟩, ⟨.wait, "wait", 3, 3⟩, ⟨.number, "1", 3, 8⟩, ⟨.newline, "\\n", 3, 9⟩]

theorem parseTokens_progresses_openBlock : Numbered openBlock ∧ ∃ s : ParseState,
    Taken 0 (openBlock ++ [⟨.eof, "", 3, 9⟩]) s.rest ∧
      (parseTokens openBlock).1 = .error (.unexpected 3 9 "end of indented block" "EOF") := by
  have hone : Numeral.Spells "1".toList ⟨1, 0⟩ := .whole (by decide) (List.all_iff_forall_prop.mp (by decide))
  have hnumbered : Numbered openBlock := by
    intro t ht hkind
    simp only [openBlock, List.mem_cons, List.not_mem_nil, or_false] at ht
    rcases ht with rfl | rfl | rfl | rfl | rfl | rfl | rfl | rfl | rfl <;> first | exact ⟨_, hone⟩ | cases hkind
  obtain ⟨⟨s, htaken, -⟩, -⟩ := parseTokens_progresses hnumbered
  exact ⟨hnumbered, s, htaken, by rfl⟩

end Parley
