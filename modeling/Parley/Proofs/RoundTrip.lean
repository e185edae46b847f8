import Parley.Proofs.Printing

/-! # Expressions are read back as they were

An expression of a parsed script that is printed as the value of an assignment is parsed again, and nothing but its
places can change (`Script.reread`). The line of the assignment and the header above it are scanned and parsed here;
what stands after the name of the variable is printed code (`Derives.prints`). -/

namespace Parley

section Parts
variable {p : Phrase} {ts : List Token} {e : Expr}

theorem written_reference {name : List Char} (hname : isIdentifier name = true) (pos : Pos) :
    (Expr.reference (String.ofList name) pos).Written := by
  refine ⟨[⟨.reference, String.ofList name, pos.line, pos.column⟩], .lift (Nat.zero_le _) (.reference rfl), fun t ht => ?_⟩
  obtain rfl := List.mem_singleton.mp ht
  exact ⟨nofun, fun _ => by simpa using hname, nofun, nofun, nofun⟩

/-- Below a string there are the names in its holes only. -/
theorem Pieces.written {pos : Pos} {cs : List Char} {segments : List Segment} (h : Pieces pos cs segments) :
    ∀ d ∈ textParts segments, d.Written := by
  have hliteral (text : List Char) (more : List Segment) : textParts (literalText pos text ++ more) = textParts more := by
    unfold literalText
    split <;> rfl
  induction h with
  | @last text _ =>
    have := hliteral text []
    rw [List.append_nil] at this
    simp [this, textParts]
  | @hole text body name rest more _ _ hname _ ih =>
    rw [hliteral]
    simpa [textParts, Expr.parts] using ⟨written_reference (isIdentifier_of_holeName? hname) pos, ih⟩

mutual

/-- What is below a phrase of genuine tokens is a phrase of genuine tokens. -/
theorem Derives.parts_written {p : Phrase} {ts : List Token} {e : Expr} (h : Derives p ts e)
    (hgenuine : ∀ t ∈ ts, t.Genuine) : ∀ d ∈ e.parts, d.Written := by
  have hself : e.Written := ⟨ts, h.lift (Nat.zero_le _), hgenuine⟩
  match h with
  | .operand _ h => exact h.parts_written hgenuine
  | .binary hleft _ hright =>
    simp only [List.mem_append, List.mem_cons, or_imp, forall_and] at hgenuine
    have hl := hleft.parts_written hgenuine.1
    have hr := hright.parts_written hgenuine.2.2
    simpa [Expr.parts, or_imp, forall_and] using ⟨hself, hl, hr⟩
  | .unary _ h =>
    have hoperand := h.parts_written fun t ht => hgenuine t (List.mem_cons_of_mem _ ht)
    simpa [Expr.parts] using ⟨hself, hoperand⟩
  | .interpolated _ _ hpieces => simpa [Expr.parts] using ⟨hself, hpieces.written⟩
  | .callWith _ _ hargs _ =>
    have hbelow := hargs.parts_written fun t ht => hgenuine t (by simp [ht])
    simpa [Expr.parts] using ⟨hself, hbelow⟩
  | .parens _ h _ => exact h.parts_written fun t ht => hgenuine t (by simp [ht])
  | .number .. | .string .. | .trueWord .. | .falseWord .. | .reference .. | .name .. | .call .. =>
    simpa [Expr.parts, partsOf] using hself

theorem DerivesList.parts_written {ts : List Token} {args : List Expr} (h : DerivesList ts args)
    (hgenuine : ∀ t ∈ ts, t.Genuine) : ∀ d ∈ partsOf args, d.Written := by
  match h with
  | .one h => simpa [partsOf] using h.parts_written hgenuine
  | .more h _ hmore =>
    simp only [List.mem_append, List.mem_cons, or_imp, forall_and] at hgenuine
    have hfirst := h.parts_written hgenuine.1
    have hrest := hmore.parts_written hgenuine.2.2
    simpa [partsOf, or_imp, forall_and] using ⟨hfirst, hrest⟩

end

theorem Expr.Written.parts (h : e.Written) : ∀ d ∈ e.parts, d.Written := by
  obtain ⟨ts, hder, hgenuine⟩ := h
  exact hder.parts_written hgenuine

theorem Expr.Written.prints (h : e.Written) (hnum : e.Canonical) : Prints .or e.source.toList e := by
  obtain ⟨ts, hder, hgenuine⟩ := h
  exact (hder.prints hgenuine hnum).lift (Nat.zero_le _)

end Parts

namespace Lexer
variable {s : Lexer} {rest : List Char} {out : List Token}

/-- The lexer is at the start of a line below no block. -/
structure AtLine (s : Lexer) (text : List Char) : Prop where
  mode : s.mode = .lineStart
  pending : s.pending = []
  levels : s.levels = []
  rest : s.rest = text

theorem emits_header (hs : s.AtLine ([':', ':'] ++ rest)) :
    ({ s with mode := .code } : Lexer).Before ([':', ':'] ++ rest) ∧
      ∀ out, Emits { s with mode := .code } out → Emits s out := by
  obtain ⟨srest, line, column, levels, pending, mode, inChoice, textStart⟩ := s
  obtain ⟨rfl, rfl, rfl, rfl⟩ := hs
  exact ⟨⟨rfl, rfl, rfl⟩, fun out hout => .again rfl rfl hout⟩

theorem scans_header (hs : s.Before ([':', ':'] ++ rest)) : s.Scans [':', ':'] [s.tokenHere .doubleColon "::"] := by
  obtain ⟨srest, line, column, levels, pending, mode, inChoice, textStart⟩ := s
  obtain ⟨rfl, rfl, rfl⟩ := hs
  exact fun out hout => .token rfl rfl rfl hout

theorem emits_assignment (hs : s.AtLine ("var".toList ++ ([' '] ++ rest))) :
    ({ s with mode := .code } : Lexer).Before ("var".toList ++ ([' '] ++ rest)) ∧
      ∀ out, Emits { s with mode := .code } out → Emits s out := by
  have hword : "var".toList = ['v', 'a', 'r'] := by simp
  rw [hword] at hs ⊢
  obtain ⟨srest, line, column, levels, pending, mode, inChoice, textStart⟩ := s
  obtain ⟨rfl, rfl, rfl, rfl⟩ := hs
  exact ⟨⟨rfl, rfl, rfl⟩, fun out hout => .again rfl rfl hout⟩

/-- The end of a line of code. -/
theorem emits_lineEnd (hs : s.Before ('\n' :: rest)) (hlevels : s.levels = []) :
    s.newline.2.AtLine rest ∧ s.newline.2.line = s.line + 1 ∧ s.newline.2.column = 1 ∧
      ∀ out, Emits s.newline.2 out → Emits s (s.newline.1 :: out) := by
  obtain ⟨srest, line, column, levels, pending, mode, inChoice, textStart⟩ := s
  obtain ⟨rfl, rfl, rfl⟩ := hs
  subst hlevels
  exact ⟨⟨rfl, rfl, rfl, rfl⟩, rfl, rfl, fun out hout => .token rfl rfl rfl hout⟩

theorem emits_end (hs : s.AtLine []) : Emits s [s.tokenHere .eof ""] := by
  obtain ⟨srest, line, column, levels, pending, mode, inChoice, textStart⟩ := s
  obtain ⟨rfl, rfl, rfl, rfl⟩ := hs
  exact .again rfl rfl (.last rfl rfl rfl)

end Lexer

namespace ParseM
variable {t : Token} {ts rest : List Token} {s : ParseState} {kind : TokenKind} {e : Expr}

theorem peek_cons (hs : s.rest = t :: ts) : peek s = .ok t s := by
  show EStateM.Result.ok (Reading.peek s.rest) s = _
  rw [hs]
  rfl

theorem kind_cons (hs : s.rest = t :: ts) : ParseM.kind s = .ok t.kind s := by
  rw [ParseM.kind, bind_eq_of_ok (peek_cons hs)]
  rfl

theorem advance_cons (hs : s.rest = t :: ts) (ht : t.kind ≠ .eof) : advance s = .ok t { s with rest := ts } := by
  have heof : t.isEof = false := by simpa [Token.isEof] using ht
  simp [advance, hs, Reading.peek, Reading.skip, heof]

theorem consume_cons {expected : String} (hs : s.rest = t :: ts) (ht : t.kind = kind) (hkind : kind ≠ .eof) :
    consume kind expected s = .ok t { s with rest := ts } := by
  simp [consume, ParseM.read, hs, Reading.consume, Reading.sees, Reading.peek, ht, Reading.skip_cons ht hkind]

theorem lineEnd_cons (hs : s.rest = t :: ts) (ht : t.kind = .newline) : lineEnd s = .ok () { s with rest := ts } := by
  rw [lineEnd, bind_eq_of_ok (kind_cons hs), if_neg (by simp [ht]), bind_eq_of_ok (consume_cons hs ht (by decide))]
  rfl

/-- A phrase in front of the end of the line is read, if a mark of assignment is missing. -/
theorem command_assignment {word target lineEnd : Token} (hword : word.kind = .varWord) (htarget : target.kind = .reference)
    (hend : lineEnd.kind = .newline) (hder : Derives .or ts e) (hfirst : ∀ t ∈ ts.head?, t.kind ≠ .assign)
    (hs : s.rest = word :: target :: (ts ++ lineEnd :: rest)) :
    command s = .ok (.command (.assign target.value .set e) word.pos) { s with rest } := by
  obtain ⟨t, us, rfl, -⟩ := hder.opens
  have hread : Reading.expression (t :: us ++ lineEnd :: rest) = .ok (e, lineEnd :: rest) :=
    Reading.expression_of_takes ⟨t :: us, rfl, hder, .of_closing (by simp [hend])⟩
  have hno : accept .assign { s with rest := t :: us ++ lineEnd :: rest } =
      .ok false { s with rest := t :: us ++ lineEnd :: rest } := by
    rw [accept, bind_eq_of_ok (kind_cons rfl), if_neg (hfirst t rfl)]
    rfl
  have hvalue : ParseM.read Reading.expression { s with rest := t :: us ++ lineEnd :: rest } =
      .ok e { s with rest := lineEnd :: rest } := by
    simp only [ParseM.read, hread]
  have hafter : commandAfter word { s with rest := target :: (t :: us ++ lineEnd :: rest) } =
      .ok (.assign target.value .set e) { s with rest := lineEnd :: rest } := by
    rw [commandAfter, hword]
    dsimp only
    rw [bind_eq_of_ok (consume_cons rfl htarget (by decide)), bind_eq_of_ok hno, bind_eq_of_ok hvalue]
    rfl
  rw [command, bind_eq_of_ok (advance_cons hs (by simp [hword])), bind_eq_of_ok hafter,
    bind_eq_of_ok (lineEnd_cons rfl hend)]
  rfl

/-- A script of one node with one command. -/
theorem nodes_command {header name lineEnd first eof : Token} {c : Content} {fuel : Nat}
    (hheader : header.kind = .doubleColon) (hname : name.kind = .identifier) (hend : lineEnd.kind = .newline)
    (hfirst : first.kind.isCommand = true) (heof : eof.kind = .eof)
    (hcommand : command { rest := first :: ts } = .ok c { rest := [eof] }) :
    nodes (fuel + 4) { rest := header :: name :: lineEnd :: first :: ts } =
      .ok [⟨name.value, [c], header.pos⟩] { rest := [eof] } := by
  have hcontent : content name.value (fuel + 2) { rest := first :: ts } = .ok (some c) { rest := [eof] } := by
    rw [content, bind_eq_of_ok (peek_cons rfl)]
    cases hkind : first.kind <;> rw [hkind] at hfirst <;> first
      | cases hfirst; done
      | dsimp only
        rw [if_pos hfirst, map_eq_pure_bind, bind_eq_of_ok hcommand]
        rfl
  have hitems : nodeItems name.value 0 (fuel + 3) { rest := first :: ts } = .ok [c] { rest := [eof] } := by
    have hstop : nodeItems name.value 0 (fuel + 2) { rest := [eof] } = .ok [] { rest := [eof] } := by
      rw [nodeItems, bind_eq_of_ok (kind_cons rfl), heof]
      rfl
    rw [nodeItems, bind_eq_of_ok (kind_cons rfl)]
    cases hkind : first.kind <;> rw [hkind] at hfirst <;> first
      | cases hfirst; done
      | dsimp only
        rw [bind_eq_of_ok hcontent, bind_eq_of_ok hstop]
        rfl
  have hnode : node (fuel + 3) { rest := header :: name :: lineEnd :: first :: ts } =
      .ok ⟨name.value, [c], header.pos⟩ { rest := [eof] } := by
    have hreset : (modify fun s => { s with conditions := 0 } : ParseM PUnit) { rest := first :: ts } =
        .ok ⟨⟩ { rest := first :: ts } := rfl
    rw [node, bind_eq_of_ok (advance_cons rfl (by simp [hheader])), bind_eq_of_ok (consume_cons rfl hname (by decide)),
      bind_eq_of_ok (lineEnd_cons rfl hend), bind_eq_of_ok hreset, bind_eq_of_ok hitems]
    rfl
  have hstop : nodes (fuel + 3) { rest := [eof] } = .ok [] { rest := [eof] } := by
    rw [nodes, bind_eq_of_ok (kind_cons rfl), heof]
    rfl
  rw [nodes, bind_eq_of_ok (kind_cons rfl), hheader]
  dsimp only
  rw [bind_eq_of_ok hnode]
  dsimp only
  rw [if_neg (by simp), bind_eq_of_ok hstop]
  rfl

end ParseM
section Lines
variable {s : Lexer} {text rest : List Char} {name : String} {e : Expr}

theorem emits_headerLine (hname : isIdentifier name.toList = true) (hfree : keyword? name = none)
    (hs : s.AtLine ([':', ':'] ++ ([' '] ++ (name.toList ++ '\n' :: rest)))) :
    ∃ lineEnd s', lineEnd.kind = .newline ∧ s'.AtLine rest ∧ s'.line = s.line + 1 ∧ s'.column = 1 ∧
      ∀ out, Emits s' out → Emits s
        (⟨.doubleColon, "::", s.line, s.column⟩ :: ⟨.identifier, name, s.line, s.column + 3⟩ :: lineEnd :: out) := by
  obtain ⟨hs₀, hopen⟩ := Lexer.emits_header hs
  have hs₁ := hs₀.after
  have hs₂ := hs₁.after
  have hmark := Lexer.scans_header hs₀
  have hgap := Lexer.Scans.blank hs₁
  have hword := scans_word hname hs₂ (by simp [isWordPart, isWordStart, isIdeograph])
  rw [hfree] at hword
  obtain ⟨hline, hnumber, hcolumn, hend⟩ := Lexer.emits_lineEnd hs₂.after hs.levels
  exact ⟨_, _, rfl, hline, hnumber, hcolumn, fun out hout => hopen _ (hmark _ (hgap _ (hword _ (hend _ hout))))⟩

theorem Prints.emits_line (h : Prints .or text e)
    (hs : s.AtLine ("var".toList ++ ([' '] ++ (['$', 'r'] ++ ([' '] ++ (text ++ '\n' :: rest)))))) :
    ∃ ts e' lineEnd s', Derives .or ts e' ∧ e'.placeless = e.placeless ∧ lineEnd.kind = .newline ∧ s'.AtLine rest ∧
      ∀ out, Emits s' out → Emits s
        (⟨.varWord, "var", s.line, s.column⟩ :: ⟨.reference, "r", s.line, s.column + 4⟩ :: (ts ++ lineEnd :: out)) := by
  obtain ⟨hs₀, hopen⟩ := Lexer.emits_assignment hs
  have hs₁ := hs₀.after
  have hs₂ := hs₁.after
  have hs₃ := hs₂.after
  have hs₄ := hs₃.after
  have hword := scans_word (by decide) hs₀ (by simp [isWordPart, isWordStart, isIdeograph])
  have hgap := Lexer.Scans.blank hs₁
  have htarget := Lexer.Scans.variable hs₂ (by decide) (by simp [isWordPart, isWordStart, isIdeograph])
  have hspace := Lexer.Scans.blank hs₃
  obtain ⟨ts, e', hscans, hder, hplace⟩ := h.scans hs₄ (by simp [Delimited])
  obtain ⟨hline, -, -, hend⟩ := Lexer.emits_lineEnd hs₄.after hs.levels
  exact ⟨ts, e', _, _, hder, hplace, rfl, hline, fun out hout =>
    hopen _ (hword _ (hgap _ (htarget _ (hspace _ (hscans _ (hend _ hout))))))⟩

end Lines

/-- What an expression is printed as is read back as the expression, up to places. -/
theorem Prints.parses {text : String} {e : Expr} (h : Prints .or text.toList e) {name : String}
    (hname : isIdentifier name.toList = true) (hfree : keyword? name = none) :
    ∃ e', (parseScript (":: " ++ name ++ "\nvar $r " ++ text ++ "\n")).result =
        .ok ⟨[⟨name, [.command (.assign "r" .set e') ⟨2, 1⟩], ⟨1, 1⟩⟩]⟩ ∧
      e'.placeless = e.placeless := by
  generalize hsource : ":: " ++ name ++ "\nvar $r " ++ text ++ "\n" = source
  have hs : (Lexer.ofText source).AtLine ([':', ':'] ++ ([' '] ++ (name.toList ++ '\n' ::
      ("var".toList ++ ([' '] ++ (['$', 'r'] ++ ([' '] ++ (text.toList ++ ['\n'])))))))) :=
    ⟨rfl, rfl, rfl, by simp [Lexer.ofText, ← hsource]⟩
  obtain ⟨lineEnd, s₁, hkind, hs₁, hline, hcolumn, hheader⟩ := emits_headerLine hname hfree hs
  obtain ⟨ts, e', lineEnd', s₂, hder, hplace, hkind', hs₂, hassign⟩ := h.emits_line hs₁
  have hemits := hheader _ (hassign _ (Lexer.emits_end hs₂))
  have hfirst : ∀ t ∈ ts.head?, t.kind ≠ .assign := fun t ht hassign => by
    have hin := hder.inExpression t (List.mem_of_mem_head? ht)
    rw [hassign] at hin
    cases hin
  rw [hline, hcolumn] at hemits
  have heof : (s₂.tokenHere .eof "").kind = .eof := rfl
  refine ⟨e', parseScript_eq_ok_iff.mpr ⟨_, _, hemits, ParseM.nodes_command rfl rfl hkind rfl heof ?_⟩, hplace⟩
  exact ParseM.command_assignment (s := { rest := _ }) rfl rfl hkind' hder hfirst rfl

/-- An expression of a parsed script, however deep in it, is read back from its source as it was, up to places. -/
theorem Script.reread {source : String} {script : Script} (h : (parseScript source).result = .ok script) {top e : Expr}
    (htop : top ∈ script.exprs) (he : e ∈ top.parts) (hnum : e.Canonical) {name : String}
    (hname : isIdentifier name.toList = true) (hfree : keyword? name = none) :
    ∃ e', (parseScript (":: " ++ name ++ "\nvar $r " ++ e.source ++ "\n")).result =
        .ok ⟨[⟨name, [.command (.assign "r" .set e') ⟨2, 1⟩], ⟨1, 1⟩⟩]⟩ ∧
      e'.placeless = e.placeless :=
  (((Script.written h top htop).parts e he).prints hnum).parses hname hfree

/-- The value in the line `var $x ($y - 2.5) * -f("a{$b}")`, which is the second of its script. -/
def scaledDifference : Expr :=
  .binary .mul
    (.binary .sub (.reference "y" ⟨2, 9⟩) (.number (Decimal.toBinary false ⟨25, -1⟩) ⟨2, 14⟩) ⟨2, 12⟩)
    (.unary .neg (.call "f" [.interpolated [.literal "a" ⟨2, 24⟩, .hole (.reference "b" ⟨2, 24⟩) ⟨2, 24⟩] ⟨2, 24⟩]
      false ⟨2, 22⟩) ⟨2, 21⟩) ⟨2, 19⟩

theorem Script.reread_scaledDifference :
    ∃ e', (parseScript (":: " ++ "m" ++ "\nvar $r " ++ scaledDifference.source ++ "\n")).result =
        .ok ⟨[⟨"m", [.command (.assign "r" .set e') ⟨2, 1⟩], ⟨1, 1⟩⟩]⟩ ∧
      e'.placeless = scaledDifference.placeless := by
  have hscript : (parseScript ":: n\nvar $x ($y - 2.5) * -f(\"a\x7b$b\x7d\")\n").result =
      .ok ⟨[⟨"n", [.command (.assign "x" .set scaledDifference) ⟨2, 1⟩], ⟨1, 1⟩⟩]⟩ := rfl
  have hnum : scaledDifference.Canonical := by
    intro x pos hx
    obtain ⟨rfl, rfl⟩ : x = Decimal.toBinary false ⟨25, -1⟩ ∧ pos = ⟨2, 14⟩ := by
      simpa [scaledDifference, Expr.parts, partsOf, textParts] using hx
    have htext : (Decimal.toBinary false ⟨25, -1⟩).text.toList = ['2', '.', '5'] := by decide +kernel
    have hspells : Numeral.Spells (['2'] ++ '.' :: ['5']) _ := .point (by simp) (by simp) (by simp) (by simp)
    exact ⟨⟨_, by rw [htext]; exact hspells⟩, by decide +kernel⟩
  exact Script.reread hscript (.head _) (.head _) hnum (by decide) (by decide)

end Parley
