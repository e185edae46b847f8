import Parley.Proofs.HostOrder
import Parley.Proofs.Midstep

/-! # What a runner has announced

The journal holds the notices of all runners, and those that the host has composed. `World.told w seat` are the ones
that the runner of a seat has published of its own, the latest first. A session is `Open` for announcements if it has
not been completed since it was started; a list of notices is `Final` if completions are, up to one notice that a step
had in hand when its session ended under it (`Notice.Follows`). -/

namespace Parley
variable {σ μ : Type}

namespace Notice

def isCustom : Notice → Bool
  | custom .. => true
  | _ => false

def isStarted : Notice → Bool
  | started .. => true
  | _ => false

def isSelected : Notice → Bool
  | selected .. => true
  | _ => false

def isCompleted : Notice → Bool
  | completed _ => true
  | _ => false

theorem exists_completed {n : Notice} (hkind : n.kind = .dialogueCompleted) (hcustom : n.isCustom = false) :
    ∃ id, n = completed id := by
  cases n with
  | completed id => exact ⟨id, rfl⟩
  | custom => cases hcustom
  | _ => cases hkind

end Notice

/-- The notice of its own that the runner of a seat has published. -/
def Entry.told? (seat : Nat) : Entry μ → Option Notice
  | .published s n => if s = seat ∧ n.isCustom = false then some n else none
  | _ => none

namespace World

def told (w : World σ μ) (seat : Nat) : List Notice := w.journal.filterMap (Entry.told? seat)

variable (w : World σ μ) (seat : Nat)

theorem told_noting (e : Entry μ) : (w.noting e).told seat = (e.told? seat).toList ++ w.told seat := by
  unfold told noting
  rw [List.filterMap_cons]
  cases e.told? seat <;> rfl

variable {w seat} in
theorem isCustom_of_mem_told {n : Notice} (h : n ∈ w.told seat) : n.isCustom = false := by
  obtain ⟨e, -, he⟩ := List.mem_filterMap.1 h
  cases e with
  | published s m =>
    obtain ⟨hm, hn⟩ : (s = seat ∧ m.isCustom = false) ∧ m = n := by simpa [Entry.told?] using he
    exact hn ▸ hm.2
  | _ => cases he

theorem told_quiet {e : Entry μ} (he : e.isQuiet) : (w.noting e).told seat = w.told seat := by
  rw [told_noting]
  cases e <;> first | rfl | cases he

theorem told_custom (s : Nat) (kind : EventKind) (data : List (String × Native)) :
    (w.noting (.published s (.custom kind data))).told seat = w.told seat := by
  rw [told_noting]
  simp [Entry.told?, Notice.isCustom]

theorem told_marked (m : μ) : (w.noting (.marked m)).told seat = w.told seat := told_noting w seat _

theorem told_published {n : Notice} (hn : n.isCustom = false) (s : Nat) :
    (w.noting (.published s n)).told seat = if seat = s then n :: w.told seat else w.told seat := by
  rw [told_noting]
  by_cases hs : seat = s
  · simp [Entry.told?, hn, hs]
  · simp [Entry.told?, hs, Ne.symm hs]

theorem told_turnTo (s : Nat) : (w.turnTo s).told seat = w.told seat := by
  rw [told, journal_turnTo]
  rfl

theorem told_opening (n : Node) (name : String) (index s : Nat) : (w.opening n name index).told s =
    if s = w.seat then .started (w.sessions + 1) name :: w.told s else w.told s := by
  unfold opening
  dsimp only
  rw [told_published _ s rfl, told_quiet _ s rfl]
  rfl

/-- The session of the runner in front is over, and this is announced. -/
def completing (w : World σ μ) : World σ μ :=
  ((w.withRunner w.runner.reset).noting
    (.logged ⟨.debug, .runner, s!"Session {sessionName w.runner.session} completed"⟩)).noting
      (.published w.seat (.completed w.runner.session))

theorem told_completing (w : World σ μ) (s : Nat) :
    w.completing.told s = if s = w.seat then .completed w.runner.session :: w.told s else w.told s := by
  unfold completing
  rw [told_published _ s rfl, told_quiet _ s rfl]
  rfl

end World

/-- No completion since the last start; the latest notice comes first. -/
def Open : List Notice → Prop
  | [] => True
  | .started .. :: _ => True
  | .completed _ :: _ => False
  | _ :: older => Open older

theorem Open.cons {told : List Notice} {n : Notice} (h : Open told) (hn : n.isCompleted = false) : Open (n :: told) := by
  cases n with
  | completed => cases hn
  | started => trivial
  | _ => exact h

/-- What may be told after the notices so far. On a session that is over this is the start of another one, or, right
behind its completion, what the step had in hand that the session ended under: a notice that is `Late`, or the name of
the node where the session had just been announced to start. -/
def Notice.Follows (Late : Notice → Prop) (n : Notice) (told : List Notice) : Prop :=
  n.isStarted ∨ Open told ∨ ∃ id older, told = .completed id :: older ∧
    (Late n ∨ ∃ session node before, id = some session ∧ n = .entered node ∧ older = .started session node :: before)

def Final (Late : Notice → Prop) : List Notice → Prop
  | [] => True
  | n :: older => n.Follows Late older ∧ Final Late older

namespace Final
variable {Late : Notice → Prop} {told : List Notice}

theorem of_append {newer older : List Notice} (h : Final Late (newer ++ older)) : Final Late older := by
  induction newer with
  | nil => exact h
  | cons n newer ih => exact ih h.2

theorem not_open {between older : List Notice} {id : Option SessionId} (h : ∀ m ∈ between, m.isStarted = false) :
    ¬ Open (between ++ .completed id :: older) := by
  induction between with
  | nil => exact not_false
  | cons m between ih =>
    obtain ⟨hm, hbetween⟩ := List.forall_mem_cons.1 h
    intro hopen
    cases m with
    | started => cases hm
    | completed => exact hopen
    | entered | displayed | menuOpened | selected | waiting | custom => exact ih hbetween hopen

/-- Between a completion and the next start there is at most the one late notice, right behind the completion. -/
theorem late (hlate : ∀ id, ¬ Late (.completed id)) {newer between older : List Notice} {n : Notice}
    {id : Option SessionId} (h : Final Late (newer ++ n :: (between ++ .completed id :: older)))
    (hn : n.isStarted = false) (hbetween : ∀ m ∈ between, m.isStarted = false) :
    between = [] ∧ (Late n ∨ ∃ session node before,
      id = some session ∧ n = .entered node ∧ older = .started session node :: before) := by
  have hfinal : Final Late (n :: (between ++ .completed id :: older)) := h.of_append
  rcases hfinal.1 with hstart | hopen | ⟨id', older', htold, hcase⟩
  · rw [hn] at hstart; cases hstart
  · exact absurd hopen (not_open hbetween)
  cases between with
  | nil => cases htold; exact ⟨rfl, hcase⟩
  | cons m between =>
    -- the completion in between would itself come late
    obtain ⟨rfl, -⟩ := List.cons.inj htold
    rcases hfinal.2.1 with hstart | hopen | ⟨id'', older'', -, hagain | ⟨_, _, _, -, hentered, -⟩⟩
    · cases hstart
    · exact absurd hopen (not_open (List.forall_mem_cons.1 hbetween).2)
    · exact absurd hagain (hlate id')
    · cases hentered

end Final
end Parley
