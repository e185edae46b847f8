import Parley.Syntax.Content
import Parley.Value

/-! # Notices

What a runner tells its host. A host may publish notices of its own under the same kinds. -/

namespace Parley

inductive EventKind where
  | dialogueStarted
  | nodeEntered
  | contentDisplayed
  | choicesDisplayed
  | choiceSelected
  | waitRequested
  | dialogueCompleted
deriving DecidableEq, Repr, Inhabited

namespace EventKind

def label : EventKind → String
  | dialogueStarted => "DIALOGUE_STARTED"
  | nodeEntered => "NODE_ENTERED"
  | contentDisplayed => "CONTENT_DISPLAYED"
  | choicesDisplayed => "CHOICES_DISPLAYED"
  | choiceSelected => "CHOICE_SELECTED"
  | waitRequested => "WAIT_REQUESTED"
  | dialogueCompleted => "DIALOGUE_COMPLETED"

def all : List EventKind :=
  [dialogueStarted, nodeEntered, contentDisplayed, choicesDisplayed, choiceSelected, waitRequested,
    dialogueCompleted]

def ofLabel? (name : String) : Option EventKind := all.find? fun kind => kind.label == name

end EventKind

/-- Sessions are numbered from 1, over all runners. -/
abbrev SessionId := Nat

inductive Notice where
  | started (session : SessionId) (node : String)
  | entered (node : String)
  | displayed (line : Line) (text : String)
  | menuOpened (choices : List Choice) (texts : List String)
  | selected (choice : Choice) (index : Nat)
  | waiting (duration : Binary64)
  | completed (session : Option SessionId)
  /-- A notice that the host composed. -/
  | custom (kind : EventKind) (data : List (String × Native))

def Notice.kind : Notice → EventKind
  | started .. => .dialogueStarted
  | entered _ => .nodeEntered
  | displayed .. => .contentDisplayed
  | menuOpened .. => .choicesDisplayed
  | selected .. => .choiceSelected
  | waiting _ => .waitRequested
  | completed _ => .dialogueCompleted
  | custom kind _ => kind

end Parley
