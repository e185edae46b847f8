import Parley.Engine.Evaluate
import Parley.Engine.Nodes
import Parley.Engine.Publish

/-! # Stepping

A step transforms the innermost frame, until there is something for the host to see: a line, a
menu, a wait, or the end. Host code that runs within a step may end the session; the step then goes
on with the frame that it holds, and what it writes to the frame is lost. -/

namespace Parley

inductive NextContent where
  | none
  | content
  | choice
  | jump
  | command
deriving DecidableEq, Repr

def NextContent.label : NextContent → String
  | none => "NONE"
  | content => "CONTENT"
  | choice => "CHOICE"
  | jump => "JUMP"
  | command => "COMMAND"

/-- What a command amounts to before it is run. -/
def Command.next : Command → NextContent
  | .jump _ => .jump
  | _ => .command

/-- The content of a condition in a branch; none where no branch is taken. -/
def Condition.contentIn (c : Condition) : Branching → Option (List Content)
  | .thenBranch => some c.thenBranch
  | .elifBranch i => (c.elifs[i]?).map fun branch => branch.content
  | .elseBranch => c.elseBranch
  | .none => Option.none

/-- What a walk ahead of the runner comes to. -/
structure Lookahead where
  kind : NextContent
  stack : List Frame
  memo : Memo
  /-- The live choices, and the length of the run of choices that they stand in. -/
  choices : List Choice := []
  run : Nat := 0

def Frame.skip (f : Frame) (count : Nat) : Frame := { f with index := f.index + count }

def Frame.key? (f : Frame) : Option ConditionKey :=
  match f.container with
  | .condition c => some c.key
  | _ => none

/-- The name that a session goes by. -/
def sessionName (id : Option SessionId) : String :=
  match id with
  | some n => s!"session-{n}"
  | none => "None"

namespace Runner

/-- Moves the innermost frame on, if there is one. -/
def skip (r : Runner) (count : Nat) : Runner :=
  match r.stack with
  | [] => r
  | f :: below => { r with stack := f.skip count :: below }

def push (r : Runner) (c : Container) : Runner := { r with stack := ⟨c, 0⟩ :: r.stack }

/-- Takes over a stack that was walked ahead, with the branches chosen for what is on it. -/
def adopt (r : Runner) (ahead : Lookahead) : Runner :=
  let stack := match ahead.stack with
    | [] => []
    | f :: below => f.skip ahead.run :: below
  let keys := ahead.stack.filterMap Frame.key?
  { r with stack, memo := ahead.memo.filter fun entry => keys.contains entry.1 }

end Runner

namespace Play
variable {σ μ : Type} (host : Host σ μ)

def complete : Play σ μ Unit := do
  let session := (← runner).session
  modifyRunner Runner.reset
  log .debug .runner s!"Session {sessionName session} completed"
  let _ ← publish host (.completed session)

/-- A jump resets the flow of control; it is not a call. -/
def enterNode (n : Node) : Play σ μ Unit := do
  modifyRunner fun r => { r with stack := [⟨.node n, 0⟩], memo := [], menu := [] }
  log .debug .runner s!"Entering node '{n.name}'"
  let _ ← publish host (.entered n.name)

def popFrame : Play σ μ Unit := do
  match (← runner).stack with
  | [] => throw .emptyStack
  | f :: below =>
    modifyRunner fun r =>
      { r with stack := below, memo := (f.key?.map r.memo.forget).getD r.memo }

def selectElif : Nat → List Branch → Play σ μ (Option Nat)
  | _, [] => return none
  | i, branch :: rest => do
    if ← test host "elif condition" branch.test then return some i else selectElif (i + 1) rest

def selectBranch (c : Condition) : Play σ μ Branching := do
  if ← test host "if condition" c.test then return .thenBranch
  match ← selectElif host 0 c.elifs with
  | some i => return .elifBranch i
  | none => return if c.elseBranch.isSome then .elseBranch else .none

/-- The items of a frame, as the runner's memo has it; a condition that it does not know yet chooses
its branch now. -/
def frameItems (f : Frame) : Play σ μ (Option (List Content)) := do
  match f.container with
  | .node n => return some n.content
  | .choice c => return some c.content
  | .condition c =>
    match (← runner).memo.lookup c.key with
    | some b => return c.contentIn b
    | none =>
      let b ← selectBranch host c
      modifyRunner fun r => { r with memo := r.memo.record c.key b }
      return c.contentIn b

/-- The same with a memo that is not the runner's. -/
def frameItemsIn (memo : Memo) (f : Frame) : Play σ μ (Option (List Content) × Memo) := do
  match f.container with
  | .node n => return (some n.content, memo)
  | .choice c => return (some c.content, memo)
  | .condition c =>
    match memo.lookup c.key with
    | some b => return (c.contentIn b, memo)
    | none =>
      let b ← selectBranch host c
      return (c.contentIn b, memo.record c.key b)

/-- The live choices of the run of choices that a list starts with, and the length of the run. -/
def collectChoices : List Content → Play σ μ (List Choice × Nat)
  | .choice c :: rest => do
    let isLive ← match c.guard with
      | none => pure true
      | some e => test host "choice condition" e
    let (live, count) ← collectChoices rest
    return (if isLive then c :: live else live, count + 1)
  | _ => return ([], 0)

/-- The text of a line or a choice. -/
def render (text : List Segment) : Play σ μ String := do
  buildText host (← runnerConfig).strictText text

def renderAll : List Choice → Play σ μ (List String)
  | [] => return []
  | c :: rest => do
    let text ← render host c.text
    return text :: (← renderAll rest)

/-- The texts of the open menu. -/
def choiceTexts : Play σ μ (List String) := do renderAll host (← runner).menu

def openMenu (choices : List Choice) : Play σ μ Unit := do
  modifyRunner fun r => { r with menu := choices }
  let texts ← renderAll host choices
  let _ ← publish host (.menuOpened choices texts)

def display (l : Line) : Play σ μ Unit := do
  let text ← render host l.text
  let _ ← publish host (.displayed l text)

def failLimit {α : Type} (limit : Nat) : Play σ μ α := do
  let node ← ofExcept (← runner).currentNode
  failOn .runner (.limit limit node)

/-- Room for a loop that takes a step of the limit at a time. -/
def loopFuel : Play σ μ Nat := do return host.patience + (← runnerConfig).maxSteps + 2

/-- Walks a copy of the stack to the next item that stepping would act on. -/
def scanFrom : Nat → Nat → List Frame → Memo → Play σ μ Lookahead
  | 0, _, _, _ => throw .exhausted
  | _, _, [], memo => return ⟨.none, [], memo, [], 0⟩
  | fuel + 1, steps, frame :: below, memo => do
    let limit := (← runnerConfig).maxSteps
    if limit ≤ steps then failLimit limit
    else
      let (items, memo) ← frameItemsIn host memo frame
      match items.bind fun items => items[frame.index]? with
      | none =>
        if below.isEmpty then return ⟨.none, frame :: below, memo, [], 0⟩
        else scanFrom fuel (steps + 1) below memo
      | some (.condition c) =>
        scanFrom fuel (steps + 1) (⟨.condition c, 0⟩ :: frame.skip 1 :: below) memo
      | some (.choice _) =>
        let (live, run) ← collectChoices host ((items.getD []).drop frame.index)
        if live.isEmpty then scanFrom fuel (steps + 1) (frame.skip run :: below) memo
        else return ⟨.choice, frame :: below, memo, live, run⟩
      | some (.command c _) => return ⟨c.next, frame :: below, memo, [], 0⟩
      | some (.line _) => return ⟨.content, frame :: below, memo, [], 0⟩

def scan : Play σ μ Lookahead := do
  let fuel ← loopFuel host
  let r ← runner
  scanFrom host fuel 0 r.stack r.memo

/-- Opens the menu at once if one comes next. -/
def advanceToChoices : Play σ μ Unit := do
  let ahead ← scan host
  if ahead.kind = .choice then
    modifyRunner fun r => r.adopt ahead
    openMenu host ahead.choices

/-- Carries out a command and goes where it leads to. -/
def obey (c : Command) (line : Int) : Play σ μ Bool := do
  match ← execute host c line with
  | some target => enterNode host (← getNode target)
  | none => modifyRunner fun r => r.skip 1
  return false

/-- Acts on an item; `following` holds it and what comes after it in its container. -/
def act (item : Content) (following : List Content) : Play σ μ Bool := do
  match item with
  | .condition c =>
    modifyRunner fun r => (r.skip 1).push (.condition c)
    return false
  | .choice c =>
    let (live, run) ← collectChoices host following
    modifyRunner fun r => r.skip run
    if live.isEmpty then
      log .debug .runner s!"No live choices at line {c.pos.line}; skipping the menu"
      return false
    openMenu host live
    return true
  | .command (.wait e) pos =>
    let duration ← waitDuration host e pos.line
    modifyRunner fun r => { r.skip 1 with wait := some duration }
    let _ ← publish host (.waiting duration)
    return true
  | .command c pos => obey host c pos.line
  | .line l =>
    modifyRunner fun r => r.skip 1
    display host l
    if (← runnerConfig).autoChoices ∧ (← runner).session.isSome then advanceToChoices host
    return true

/-- Leaves a frame that has no further item; the last one ends the session. -/
def leaveFrame : Play σ μ Bool := do
  if (← runner).stack.length = 1 then
    complete host
    return true
  else
    popFrame
    return false

/-- Acts on the item that a frame with these items is at. -/
def actIn (frame : Frame) (items : Option (List Content)) : Play σ μ Bool :=
  match items.bind fun items => items[frame.index]? with
  | none => leaveFrame host
  | some item => act host item ((items.getD []).drop frame.index)

/-- One step; answers whether there is something for the host to see. -/
def stepOnce : Play σ μ Bool := do
  match (← runner).stack with
  | [] =>
    complete host
    return true
  | frame :: _ => actIn host frame (← frameItems host frame)

def advanceFrom : Nat → Nat → Play σ μ Unit
  | 0, _ => throw .exhausted
  | fuel + 1, steps => do
    let r ← runner
    if r.session.isNone ∨ !r.menu.isEmpty then return ()
    let limit := (← runnerConfig).maxSteps
    if limit ≤ steps then failLimit limit
    else if ← stepOnce host then return ()
    else advanceFrom fuel (steps + 1)

/-- Steps until control goes back to the host. -/
def advance : Play σ μ Unit := do
  modifyRunner fun r => { r with wait := none }
  advanceFrom host (← loopFuel host) 0

end Play
end Parley
