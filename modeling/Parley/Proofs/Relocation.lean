import Parley.Syntax.Content

/-! # Syntax moved to other places

`relocate f` gives every part of a piece of syntax the place that `f` makes of its own. Two pieces are the same up to
line and column when they agree once every place is forgotten (`Expr.placeless`). -/

namespace Parley

mutual

def Expr.relocate (f : Pos → Pos) : Expr → Expr
  | .number value p => .number value (f p)
  | .string value p => .string value (f p)
  | .boolean value p => .boolean value (f p)
  | .reference name p => .reference name (f p)
  | .unary op operand p => .unary op (operand.relocate f) (f p)
  | .binary op left right p => .binary op (left.relocate f) (right.relocate f) (f p)
  | .call name args bare p => .call name (relocateAll f args) bare (f p)
  | .interpolated segments p => .interpolated (relocateText f segments) (f p)
  | .braces e p => .braces (e.relocate f) (f p)
  | .foreign kind => .foreign kind

def relocateAll (f : Pos → Pos) : List Expr → List Expr
  | [] => []
  | e :: rest => e.relocate f :: relocateAll f rest

def relocateText (f : Pos → Pos) : List Segment → List Segment
  | [] => []
  | .literal text p :: rest => .literal text (f p) :: relocateText f rest
  | .hole e p :: rest => .hole (e.relocate f) (f p) :: relocateText f rest
  | .stray e :: rest => .stray (e.relocate f) :: relocateText f rest

end

/-- The expression without its places. -/
def Expr.placeless (e : Expr) : Expr := e.relocate fun _ => {}

def Line.relocate (f : Pos → Pos) (l : Line) : Line := { l with text := relocateText f l.text, pos := f l.pos }

def Command.relocate (f : Pos → Pos) : Command → Command
  | assign name op value => assign name op (value.relocate f)
  | call function args => call function (relocateAll f args)
  | wait duration => wait (duration.relocate f)
  | jump target => jump target

mutual

def Content.relocate (f : Pos → Pos) : Content → Content
  | .line l => .line (l.relocate f)
  | .choice c => .choice (c.relocate f)
  | .condition c => .condition (c.relocate f)
  | .command c p => .command (c.relocate f) (f p)

def Choice.relocate (f : Pos → Pos) : Choice → Choice
  | ⟨text, guard, content, p⟩ =>
    ⟨relocateText f text, guard.map (Expr.relocate f), relocateContents f content, f p⟩

def Branch.relocate (f : Pos → Pos) : Branch → Branch
  | ⟨test, content, p⟩ => ⟨test.relocate f, relocateContents f content, f p⟩

/-- A condition keeps its key. -/
def Condition.relocate (f : Pos → Pos) : Condition → Condition
  | ⟨test, thenBranch, elifs, elseBranch, key, p⟩ =>
    ⟨test.relocate f, relocateContents f thenBranch, relocateBranches f elifs,
      match elseBranch with
      | some content => some (relocateContents f content)
      | none => none, key, f p⟩

def relocateContents (f : Pos → Pos) : List Content → List Content
  | [] => []
  | c :: rest => c.relocate f :: relocateContents f rest

def relocateBranches (f : Pos → Pos) : List Branch → List Branch
  | [] => []
  | b :: rest => b.relocate f :: relocateBranches f rest

end

def Node.relocate (f : Pos → Pos) (n : Node) : Node :=
  { n with content := relocateContents f n.content, pos := f n.pos }

section Relocate
variable {f g : Pos → Pos}

theorem isEmpty_relocateContents (cs : List Content) : (relocateContents f cs).isEmpty = cs.isEmpty := by
  cases cs <;> rfl

theorem isBlankText_relocateText (text : List Segment) : isBlankText (relocateText f text) = isBlankText text := by
  unfold isBlankText
  induction text with
  | nil => rfl
  | cons segment rest ih => cases segment <;> simp [relocateText, ih]

theorem Condition.isEmpty_relocate (c : Condition) : (c.relocate f).isEmpty = c.isEmpty := by
  obtain ⟨test, thenBranch, elifs, elseBranch, key, p⟩ := c
  have helifs : ((relocateBranches f elifs).all fun b => b.content.isEmpty) = elifs.all fun b => b.content.isEmpty := by
    induction elifs with
    | nil => rfl
    | cons b rest ih =>
      obtain ⟨test, content, p⟩ := b
      simp [relocateBranches, Branch.relocate, ih, isEmpty_relocateContents]
  cases elseBranch <;> simp [Condition.relocate, isEmpty, isEmpty_relocateContents, helifs]

mutual

theorem Expr.relocate_id (e : Expr) : e.relocate id = e := by
  cases e <;> simp only [Expr.relocate, id]
  case unary op e p => rw [e.relocate_id]
  case binary op l r p => rw [l.relocate_id, r.relocate_id]
  case call name args bare p => rw [relocateAll_id args]
  case interpolated segments p => rw [relocateText_id segments]
  case braces e p => rw [e.relocate_id]

theorem relocateAll_id (es : List Expr) : relocateAll id es = es := by
  cases es with
  | nil => rfl
  | cons e rest => rw [relocateAll, e.relocate_id, relocateAll_id rest]

theorem relocateText_id (text : List Segment) : relocateText id text = text := by
  cases text with
  | nil => rfl
  | cons segment rest =>
    cases segment with
    | literal text p => rw [relocateText, relocateText_id rest, id]
    | hole e p => rw [relocateText, e.relocate_id, relocateText_id rest, id]
    | stray e => rw [relocateText, e.relocate_id, relocateText_id rest]

end

mutual

theorem Expr.relocate_relocate (e : Expr) : (e.relocate f).relocate g = e.relocate (g ∘ f) := by
  cases e <;> simp only [Expr.relocate, Function.comp]
  case unary op e p => rw [e.relocate_relocate]
  case binary op l r p => rw [l.relocate_relocate, r.relocate_relocate]
  case call name args bare p => rw [relocateAll_relocateAll args]
  case interpolated segments p => rw [relocateText_relocateText segments]
  case braces e p => rw [e.relocate_relocate]

theorem relocateAll_relocateAll (es : List Expr) : relocateAll g (relocateAll f es) = relocateAll (g ∘ f) es := by
  cases es with
  | nil => rfl
  | cons e rest => rw [relocateAll, relocateAll, relocateAll, e.relocate_relocate, relocateAll_relocateAll rest]

theorem relocateText_relocateText (text : List Segment) :
    relocateText g (relocateText f text) = relocateText (g ∘ f) text := by
  cases text with
  | nil => rfl
  | cons segment rest =>
    cases segment with
    | literal text p =>
      rw [relocateText, relocateText, relocateText, relocateText_relocateText rest]
      rfl
    | hole e p =>
      rw [relocateText, relocateText, relocateText, e.relocate_relocate, relocateText_relocateText rest]
      rfl
    | stray e =>
      rw [relocateText, relocateText, relocateText, e.relocate_relocate, relocateText_relocateText rest]

end

theorem Command.relocate_id (c : Command) : c.relocate id = c := by
  cases c <;> simp [Command.relocate, Expr.relocate_id, relocateAll_id]

theorem Command.relocate_relocate (c : Command) : (c.relocate f).relocate g = c.relocate (g ∘ f) := by
  cases c <;> simp [Command.relocate, Expr.relocate_relocate, relocateAll_relocateAll]

mutual

theorem Content.relocate_id (c : Content) : c.relocate id = c := by
  cases c with
  | line l => simp [Content.relocate, Line.relocate, relocateText_id]
  | choice c => rw [Content.relocate, c.relocate_id]
  | condition c => rw [Content.relocate, c.relocate_id]
  | command c p => rw [Content.relocate, c.relocate_id, id]

theorem Choice.relocate_id (c : Choice) : c.relocate id = c := by
  obtain ⟨text, guard, content, p⟩ := c
  have hguard : guard.map (Expr.relocate id) = guard := by cases guard <;> simp [Expr.relocate_id]
  rw [Choice.relocate, relocateText_id, hguard, relocateContents_id content, id]

theorem Branch.relocate_id (b : Branch) : b.relocate id = b := by
  obtain ⟨test, content, p⟩ := b
  rw [Branch.relocate, test.relocate_id, relocateContents_id content, id]

theorem Condition.relocate_id (c : Condition) : c.relocate id = c := by
  obtain ⟨test, thenBranch, elifs, elseBranch, key, p⟩ := c
  cases elseBranch with
  | none =>
    rw [Condition.relocate, test.relocate_id, relocateContents_id thenBranch, relocateBranches_id elifs, id]
  | some content =>
    rw [Condition.relocate, test.relocate_id, relocateContents_id thenBranch, relocateBranches_id elifs,
      relocateContents_id content, id]

theorem relocateContents_id (cs : List Content) : relocateContents id cs = cs := by
  cases cs with
  | nil => rfl
  | cons c rest => rw [relocateContents, c.relocate_id, relocateContents_id rest]

theorem relocateBranches_id (bs : List Branch) : relocateBranches id bs = bs := by
  cases bs with
  | nil => rfl
  | cons b rest => rw [relocateBranches, b.relocate_id, relocateBranches_id rest]

end

mutual

theorem Content.relocate_relocate (c : Content) : (c.relocate f).relocate g = c.relocate (g ∘ f) := by
  cases c with
  | line l => simp [Content.relocate, Line.relocate, relocateText_relocateText]
  | choice c => rw [Content.relocate, Content.relocate, Content.relocate, c.relocate_relocate]
  | condition c => rw [Content.relocate, Content.relocate, Content.relocate, c.relocate_relocate]
  | command c p =>
    rw [Content.relocate, Content.relocate, Content.relocate, c.relocate_relocate]
    rfl

theorem Choice.relocate_relocate (c : Choice) : (c.relocate f).relocate g = c.relocate (g ∘ f) := by
  obtain ⟨text, guard, content, p⟩ := c
  have hguard : (guard.map (Expr.relocate f)).map (Expr.relocate g) = guard.map (Expr.relocate (g ∘ f)) := by
    cases guard <;> simp [Expr.relocate_relocate]
  rw [Choice.relocate, Choice.relocate, Choice.relocate, relocateText_relocateText, hguard,
    relocateContents_relocateContents content]
  rfl

theorem Branch.relocate_relocate (b : Branch) : (b.relocate f).relocate g = b.relocate (g ∘ f) := by
  obtain ⟨test, content, p⟩ := b
  rw [Branch.relocate, Branch.relocate, Branch.relocate, test.relocate_relocate,
    relocateContents_relocateContents content]
  rfl

theorem Condition.relocate_relocate (c : Condition) : (c.relocate f).relocate g = c.relocate (g ∘ f) := by
  obtain ⟨test, thenBranch, elifs, elseBranch, key, p⟩ := c
  cases elseBranch with
  | none =>
    simp only [Condition.relocate]
    rw [test.relocate_relocate, relocateContents_relocateContents thenBranch, relocateBranches_relocateBranches elifs]
    rfl
  | some content =>
    simp only [Condition.relocate]
    rw [test.relocate_relocate, relocateContents_relocateContents thenBranch, relocateBranches_relocateBranches elifs,
      relocateContents_relocateContents content]
    rfl

theorem relocateContents_relocateContents (cs : List Content) :
    relocateContents g (relocateContents f cs) = relocateContents (g ∘ f) cs := by
  cases cs with
  | nil => rfl
  | cons c rest =>
    rw [relocateContents, relocateContents, relocateContents, c.relocate_relocate,
      relocateContents_relocateContents rest]

theorem relocateBranches_relocateBranches (bs : List Branch) :
    relocateBranches g (relocateBranches f bs) = relocateBranches (g ∘ f) bs := by
  cases bs with
  | nil => rfl
  | cons b rest =>
    rw [relocateBranches, relocateBranches, relocateBranches, b.relocate_relocate,
      relocateBranches_relocateBranches rest]

end

theorem Node.relocate_id (n : Node) : n.relocate id = n := by simp [Node.relocate, relocateContents_id]

theorem Node.relocate_relocate (n : Node) : (n.relocate f).relocate g = n.relocate (g ∘ f) := by
  simp [Node.relocate, relocateContents_relocateContents]

end Relocate
end Parley
