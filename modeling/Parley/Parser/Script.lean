import Parley.Parser.Expression
import Parley.Log

/-! # Parsing scripts

Lines are parsed one by one; what turns out empty is left out of the tree and noted. Conditions are
numbered within their node in the order in which they are met, the dropped ones included. -/

namespace Parley

/-- Something empty that was left out. -/
inductive ParseNote where
  | node (name : String)
  | dialogue (line : Int)
  | choice (line : Int)
  | condition (line : Int)
deriving DecidableEq, Repr

def ParseNote.message : ParseNote → String
  | node name => s!"Dropping empty node '{name}'"
  | dialogue line => s!"Dropping empty dialogue line at line {line}"
  | choice line => s!"Dropping empty choice at line {line}"
  | condition line => s!"Dropping empty condition at line {line}"

structure ParseState where
  rest : List Token
  /-- Conditions met in the current node. -/
  conditions : Nat := 0
  /-- What has been left out, the latest first. -/
  notes : List ParseNote := []

abbrev ParseM := EStateM ParseError ParseState

namespace ParseM

/-- Runs a reading on the tokens that are left. -/
def read {α : Type} (r : Reading α) : ParseM α := fun s =>
  match r s.rest with
  | .ok (a, rest) => .ok a { s with rest }
  | .error e => .error e s

def peek : ParseM Token := do return Reading.peek (← get).rest

def kind : ParseM TokenKind := do return (← peek).kind

def advance : ParseM Token := fun s =>
  .ok (Reading.peek s.rest) { s with rest := Reading.skip s.rest }

def consume (kind : TokenKind) (expected : String) : ParseM Token :=
  read (Reading.consume kind expected)

def fail {α : Type} (expected : String) : ParseM α := fun s =>
  .error (Reading.unexpected s.rest expected) s

/-- Takes a token if it is of the given kind. -/
def accept (wanted : TokenKind) : ParseM Bool := do
  if (← kind) = wanted then
    let _ ← advance
    return true
  else return false

def lineEnd : ParseM Unit := do
  if (← kind) = .eof then return ()
  else
    let _ ← consume .newline "end of line"

def note (n : ParseNote) : ParseM Unit := modify fun s => { s with notes := n :: s.notes }

def tags : ParseM (List String) := read fun ts => .ok (Reading.tags ts)

def varOp : TokenKind → VarOp
  | .addWord => .add
  | .subWord => .sub
  | .mulWord => .mul
  | .divWord => .div
  | .modWord => .mod
  | _ => .set

def commandAfter (t : Token) : ParseM Command := do
  match t.kind with
  | .jump =>
    let target ← consume .identifier "node name after jump"
    return .jump target.value
  | .call =>
    let name ← consume .identifier "function name after 'call'"
    let args ← if ← accept .leftParen then read Reading.arguments else pure []
    return .call name.value args
  | .wait => return .wait (← read Reading.expression)
  | kind =>
    let target ← consume .reference s!"variable after '{t.value}'"
    let _ ← accept .assign
    return .assign target.value (varOp kind) (← read Reading.expression)

def command : ParseM Content := do
  let t ← advance
  let c ← commandAfter t
  lineEnd
  return .command c t.pos

/-- The text of a line after its speaker, with its tags. -/
def lineBody : ParseM (List Segment × List String) := do
  let text ← read Reading.text
  let tags ← tags
  lineEnd
  return (text, tags)

def dialogue : ParseM (Option Content) := do
  let speaker ← advance
  let mut emotion := none
  if ← accept .leftBracket then
    if (← kind) = .identifier ∨ (← kind) = .text then
      let value := (← advance).value
      emotion := if value.isEmpty then none else some value
    let _ ← consume .rightBracket "']' after emotion"
  let _ ← consume .colon "':' after speaker"
  let (text, tags) ← lineBody
  if isBlankText text then
    note (.dialogue speaker.line)
    return none
  return some (.line ⟨some ⟨speaker.value, emotion⟩, text, tags, speaker.pos⟩)

def narration : ParseM (Option Content) := do
  let start ← peek
  let (text, tags) ← lineBody
  return if isBlankText text then none else some (.line ⟨none, text, tags, start.pos⟩)

def guard : ParseM (Option Expr) := do
  if ← accept .leftBracket then
    let _ ← consume .ifWord "'if' in choice condition"
    let e ← read Reading.expression
    let _ ← consume .rightBracket "']' after choice condition"
    return some e
  return none

/-- A test with the end of its line. -/
def test : ParseM Expr := do
  let e ← read Reading.expression
  lineEnd
  return e

/-- A token that opens a line of text, with a speaker if a bracket or a colon comes second. -/
def textLine (first : Token) : ParseM (Option Content) := do
  let second := (Reading.peekSecond (← get).rest).kind
  match first.kind with
  | .text | .identifier => if second = .leftBracket ∨ second = .colon then dialogue else narration
  | .leftBrace | .hash => narration
  | _ => fail "content"

mutual

/-- One line with the blocks below it; none if it comes to nothing. -/
def content (node : String) : Nat → ParseM (Option Content)
  | 0 => throw .unfinished
  | fuel + 1 => do
    let t ← peek
    match t.kind with
    | .arrow => choice node fuel
    | .ifWord => condition node fuel
    | kind => if kind.isCommand then some <$> command else textLine t

def choice (node : String) : Nat → ParseM (Option Content)
  | 0 => throw .unfinished
  | fuel + 1 => do
    let arrow ← advance
    let text ← read Reading.text
    let guard ← guard
    lineEnd
    let content ← block node fuel
    if isBlankText text && content.isEmpty then
      note (.choice arrow.line)
      return none
    return some (.choice ⟨text, guard, content, arrow.pos⟩)

def condition (node : String) : Nat → ParseM (Option Content)
  | 0 => throw .unfinished
  | fuel + 1 => do
    let opening ← advance
    modify fun s => { s with conditions := s.conditions + 1 }
    let key := ⟨node, (← get).conditions⟩
    let test ← test
    let thenBranch ← block node fuel
    let elifs ← elifs node fuel
    let elseBranch ← if ← accept .elseWord then lineEnd; some <$> block node fuel else pure none
    let _ ← consume .endifWord "'endif'"
    lineEnd
    let made : Condition := ⟨test, thenBranch, elifs, elseBranch, key, opening.pos⟩
    if made.isEmpty then
      note (.condition opening.line)
      return none
    return some (.condition made)

def elifs (node : String) : Nat → ParseM (List Branch)
  | 0 => throw .unfinished
  | fuel + 1 => do
    if (← kind) = .elifWord then
      let opening ← advance
      let test ← test
      let content ← block node fuel
      let more ← elifs node fuel
      return ⟨test, content, opening.pos⟩ :: more
    return []

/-- The indented block below a line; nothing if the next line is not indented. -/
def block (node : String) : Nat → ParseM (List Content)
  | 0 => throw .unfinished
  | fuel + 1 => do if ← accept .indent then blockItems node 0 fuel else return []

/-- The rest of a block, `depth` further blocks being open inside it. -/
def blockItems (node : String) (depth : Nat) : Nat → ParseM (List Content)
  | 0 => throw .unfinished
  | fuel + 1 => do
    match ← kind with
    | .indent =>
      let _ ← advance
      blockItems node (depth + 1) fuel
    | .dedent =>
      let _ ← advance
      match depth with
      | 0 => return []
      | depth + 1 => blockItems node depth fuel
    | .newline =>
      let _ ← advance
      blockItems node depth fuel
    | .eof | .doubleColon => fail "end of indented block"
    | _ =>
      let item ← content node fuel
      let more ← blockItems node depth fuel
      return item.toList ++ more

end

/-- The items of a node up to the next header, `depth` blocks being open. -/
def nodeItems (node : String) (depth : Nat) : Nat → ParseM (List Content)
  | 0 => throw .unfinished
  | fuel + 1 => do
    match ← kind with
    | .eof | .doubleColon => return []
    | .indent =>
      let _ ← advance
      nodeItems node (depth + 1) fuel
    | .dedent =>
      match depth with
      | 0 => fail "content"
      | depth + 1 =>
        let _ ← advance
        nodeItems node depth fuel
    | .newline =>
      let _ ← advance
      nodeItems node depth fuel
    | _ =>
      let item ← content node fuel
      let more ← nodeItems node depth fuel
      return item.toList ++ more

def node (fuel : Nat) : ParseM Node := do
  let header ← advance
  let name ← consume .identifier "node name after '::'"
  lineEnd
  modify fun s => { s with conditions := 0 }
  let content ← nodeItems name.value 0 fuel
  return ⟨name.value, content, header.pos⟩

def nodes : Nat → ParseM (List Node)
  | 0 => throw .unfinished
  | fuel + 1 => do
    match ← kind with
    | .newline | .dedent =>
      let _ ← advance
      nodes fuel
    | .eof => return []
    | .doubleColon =>
      let made ← node fuel
      if made.content.isEmpty then
        note (.node made.name)
        nodes fuel
      else
        let more ← nodes fuel
        return made :: more
    | _ => fail "node header '::'"

end ParseM

/-- The script that a list of tokens spells, and what was left out on the way, the first first. -/
def parseTokens (tokens : List Token) : Except ParseError Script × List ParseNote :=
  let tokens := Reading.terminated tokens
  match ParseM.nodes (Reading.patience tokens) { rest := tokens } with
  | .ok nodes s => (.ok ⟨nodes⟩, s.notes.reverse)
  | .error e s => (.error e, s.notes.reverse)

end Parley
