import Parley.Proofs.Notices
import Parley.Proofs.TidyCalls

/-! # Closed sessions are not spoken of

In a world that is `Closing`, whatever has been told since a session was completed may follow its completion, and a
runner with a session has not told of its completion yet. Host code that interrupts a step can add to what the
runner of that step has told by no more than the completion of its session (`World.Hushed`). So a step that has its
session still may announce, and what it announces right after the session has gone follows the completion at once:
the latter is left to happen only where the text of a line or of a choice does not let the session last
(`Notice.IsLate`), since queries are calm and everything else is announced after another look at the session. -/

namespace Parley
variable {σ μ : Type}

/-- The session of a step in the middle of which this is evaluated outlasts it, whatever it comes to. -/
def Lasting (host : Host σ μ) (e : Expr) : Prop :=
  ∀ ⦃w : World σ μ⦄, w.runner.busy = true → w.runner.session.isSome →
    wp (Play.evaluate host e) (fun _ w' => w'.runner.session.isSome) (fun _ w' => w'.runner.session.isSome) w

/-- The texts that a notice shows. -/
def Notice.texts : Notice → List (List Segment)
  | .displayed l _ => [l.text]
  | .menuOpened choices _ => choices.map Choice.text
  | _ => []

/-- Shows a text with something in it that has not `q`. -/
def Notice.IsLate (q : Expr → Prop) (n : Notice) : Prop := ∃ text ∈ n.texts, ∃ e ∈ textExprs text, ¬ q e

namespace World

/-- The session that the runner of a seat runs, and whether it runs a step. -/
def phase (w : World σ μ) (seat : Nat) : Option (Option SessionId × Bool) :=
  (w.at? seat).map fun r => (r.session, r.busy)

variable {q : Expr → Prop} {w₀ w w' w'' : World σ μ}

theorem phase_seat (w : World σ μ) : w.phase w.seat = some (w.runner.session, w.runner.busy) := by
  rw [phase, at?_seat]
  rfl

theorem phase_withRunner (w : World σ μ) (r : Runner) (s : Nat) :
    (w.withRunner r).phase s = if s = w.seat then some (r.session, r.busy) else w.phase s := by
  rw [phase, at?_withRunner]
  split <;> rfl

/-- A runner that is changed neither in its session nor in its being busy. -/
theorem phase_withRunner_same {r : Runner} (hs : r.session = w.runner.session) (hb : r.busy = w.runner.busy) (s : Nat) :
    (w.withRunner r).phase s = w.phase s := by
  rw [phase_withRunner]
  split
  · next h => rw [h, phase_seat, hs, hb]
  · rfl

theorem phase_turnTo (w : World σ μ) (seat s : Nat) : (w.turnTo seat).phase s = w.phase s := by
  rw [phase, at?_turnTo]
  rfl

structure Closing (q : Expr → Prop) (w : World σ μ) : Prop where
  final : ∀ s, Final (Notice.IsLate q) (w.told s)
  running : ∀ s id busy, w.phase s = some (some id, busy) → Open (w.told s)

/-- Since `w₀` runners in the middle of a step have told nothing, or that their session is completed. -/
def Hushed (w₀ w : World σ μ) : Prop :=
  ∀ s session, w₀.phase s = some (session, true) →
    w.phase s = some (session, true) ∧ w.told s = w₀.told s ∨
      session.isSome ∧ w.phase s = some (none, true) ∧ w.told s = .completed session :: w₀.told s

/-- What calls and host code may do. -/
structure Settles (q : Expr → Prop) (w₀ w : World σ μ) : Prop where
  closing : w.Closing q
  hushed : w₀.Hushed w

namespace Closing

theorem settles (h : w.Closing q) : w.Settles q w := ⟨h, fun _ _ hs => .inl ⟨hs, rfl⟩⟩

theorem congr (h : w.Closing q) (hphase : ∀ s, w'.phase s = w.phase s) (htold : ∀ s, w'.told s = w.told s) :
    w'.Closing q :=
  ⟨fun s => htold s ▸ h.final s, fun s id busy hs => htold s ▸ h.running s id busy (hphase s ▸ hs)⟩

/-- A runner that goes on with its session. -/
theorem withRunner (h : w.Closing q) {r : Runner} (hs : r.session = w.runner.session) : (w.withRunner r).Closing q := by
  refine ⟨h.final, fun s id busy hphase => ?_⟩
  rw [phase_withRunner] at hphase
  split at hphase
  · next hseat =>
    obtain ⟨hid, -⟩ : r.session = some id ∧ r.busy = busy := by simpa using hphase
    exact h.running s id w.runner.busy (by rw [hseat, phase_seat, ← hs, hid])
  · exact h.running s id busy hphase

theorem open_front (h : w.Closing q) (hlive : w.runner.session.isSome) : Open (w.told w.seat) := by
  obtain ⟨id, hid⟩ := Option.isSome_iff_exists.1 hlive
  exact h.running w.seat id w.runner.busy (by rw [phase_seat, hid])

/-- A notice that follows may be published, unless it completes a session that goes on. -/
theorem announcing (h : w.Closing q) {n : Notice} (hcustom : n.isCustom = false)
    (hn : n.Follows (Notice.IsLate q) (w.told w.seat)) (hgone : n.isCompleted = false ∨ w.runner.session = none) :
    (w.noting (.published w.seat n)).Closing q := by
  refine ⟨fun s => ?_, fun s id busy hs => ?_⟩
  · rw [told_published w s hcustom]
    split
    · next hseat => exact ⟨hseat ▸ hn, h.final s⟩
    · exact h.final s
  · rw [told_published w s hcustom]
    have hs : w.phase s = some (some id, busy) := hs
    have hopen := h.running s id busy hs
    split
    · next hseat =>
      rcases hgone with hgone | hgone
      · exact hopen.cons hgone
      · rw [hseat, phase_seat, hgone] at hs; cases hs
    · exact hopen

end Closing

namespace Hushed

theorem trans (h : w₀.Hushed w) (h' : w.Hushed w') : w₀.Hushed w' := by
  intro s session hs
  rcases h s session hs with ⟨hphase, htold⟩ | ⟨hsome, hphase, htold⟩
  · rcases h' s session hphase with ⟨hphase', htold'⟩ | ⟨hsome, hphase', htold'⟩
    · exact .inl ⟨hphase', htold'.trans htold⟩
    · exact .inr ⟨hsome, hphase', by rw [htold', htold]⟩
  · rcases h' s none hphase with ⟨hphase', htold'⟩ | ⟨hnone, -⟩
    · exact .inr ⟨hsome, hphase', htold'.trans htold⟩
    · cases hnone

theorem congr (h : w₀.Hushed w) (hphase : ∀ s, w'.phase s = w.phase s) (htold : ∀ s, w'.told s = w.told s) :
    w₀.Hushed w' := by
  intro s session hs
  rw [hphase, htold]
  exact h s session hs

/-- What a step of its own does to a runner and makes it tell. -/
theorem front (h : w₀.Hushed w) (hidle : w₀.runner.busy = false) (hseat : w.seat = w₀.seat)
    (hphase : ∀ s, s ≠ w.seat → w'.phase s = w.phase s) (htold : ∀ s, s ≠ w.seat → w'.told s = w.told s) :
    w₀.Hushed w' := by
  intro s session hs
  have hne : s ≠ w.seat := by
    rintro rfl
    rw [hseat, phase_seat, hidle] at hs
    cases hs
  rw [hphase s hne, htold s hne]
  exact h s session hs

end Hushed

namespace Settles

theorem trans (h : w₀.Settles q w) (h' : w.Settles q w') : w₀.Settles q w' := ⟨h'.closing, h.hushed.trans h'.hushed⟩

theorem congr (h : w₀.Settles q w) (hphase : ∀ s, w'.phase s = w.phase s) (htold : ∀ s, w'.told s = w.told s) :
    w₀.Settles q w' :=
  ⟨h.closing.congr hphase htold, h.hushed.congr hphase htold⟩

theorem quiet (h : w₀.Settles q w) {e : Entry μ} (he : e.isQuiet) : w₀.Settles q (w.noting e) :=
  h.congr (fun _ => rfl) fun s => w.told_quiet s he

theorem of_quiet {e : Entry μ} (he : e.isQuiet) (h : (w₀.noting e).Settles q w) : w₀.Settles q w := by
  refine ⟨h.closing, fun s session hs => ?_⟩
  have hushed := h.hushed s session hs
  rwa [told_quiet w₀ s he] at hushed

theorem configured (h : w₀.Settles q w) (c : Config) : w₀.Settles q (w.setRunnerConfig c) := by
  unfold setRunnerConfig
  split
  · exact h.congr (phase_withRunner_same rfl rfl) fun _ => rfl
  · exact h.congr (fun _ => rfl) fun _ => rfl

end Settles

theorem phase_completing (w : World σ μ) (s : Nat) :
    w.completing.phase s = if s = w.seat then some (none, w.runner.busy) else w.phase s :=
  phase_withRunner w w.runner.reset s

theorem Closing.completing (h : w.Closing q) (hlive : w.runner.session.isSome) : w.Settles q w.completing := by
  have hreset : (w.withRunner w.runner.reset).Closing q := by
    refine ⟨h.final, fun s id busy hs => ?_⟩
    rw [phase_withRunner] at hs
    split at hs
    · cases hs
    · exact h.running s id busy hs
  refine ⟨?_, fun s session hs => ?_⟩
  · refine (hreset.settles.quiet (e := .logged _) rfl).closing.announcing rfl (.inr (.inl ?_)) (.inr rfl)
    rw [told_quiet _ _ rfl]
    exact h.open_front hlive
  · rw [phase_completing, told_completing]
    split
    · next hseat =>
      rw [hseat, phase_seat] at hs
      obtain ⟨rfl, hbusy⟩ : w.runner.session = session ∧ w.runner.busy = true := by simpa using hs
      exact .inr ⟨hlive, by rw [hbusy], by rw [hseat]⟩
    · exact .inl ⟨hs, rfl⟩

end World

/-- Leads from a tidy world with closings to another one, as calls may do. -/
def Settling {α : Type} (p : Expr → Prop) (P : μ → Prop) (q : Expr → Prop) (x : Play σ μ α)
    (E : Fault → Prop := Fault.IsOrdinary) : Prop :=
  ∀ w₀ : World σ μ, Upholds (fun w => (w₀.Tends (fun _ => True) w ∧ w.Tidy p P) ∧ w₀.Settles q w) E x

namespace Settling
variable {α β : Type} {p : Expr → Prop} {P : μ → Prop} {q : Expr → Prop} {E : Fault → Prop} {x : Play σ μ α}
  {w w' : World σ μ}

/-- Tending and tidiness apart, only what is told is left to show. -/
theorem of_tidying (ht : Tidying p P x E)
    (h : ∀ w : World σ μ, w.InOrder (fun _ => True) → w.Tidy p P → w.Closing q →
      wp x (fun _ w' => w.Settles q w') (fun _ w' => w.Settles q w') w) : Settling p P q x E := by
  rintro w₀ w ⟨hw, hsettles⟩
  refine wp_mono (wp_and (ht w₀ hw) (h w hw.1.order hw.2 hsettles.closing)) (fun _ _ h => ?_) fun _ _ h => ?_
  · exact ⟨h.1, hsettles.trans h.2⟩
  · exact ⟨⟨h.1.1, hsettles.trans h.2⟩, h.1.2⟩

theorem wp (hx : Settling p P q x E) (hw : w.InOrder fun _ => True) (htidy : w.Tidy p P) (h : w.Closing q) :
    wp x (fun _ w' => (w.Tends (fun _ => True) w' ∧ w'.Tidy p P) ∧ w.Settles q w')
      (fun f w' => ((w.Tends (fun _ => True) w' ∧ w'.Tidy p P) ∧ w.Settles q w') ∧ E f) w :=
  hx w ⟨⟨hw.tends, htidy⟩, h.settles⟩

end Settling

/-- Host code that leaves tidy worlds with closings. -/
structure Host.Settles (p : Expr → Prop) (P : μ → Prop) (q : Expr → Prop) (host : Host σ μ) : Prop where
  tidies : host.Tidies p P
  read : ∀ h, Settling p P q (host.read h)
  write : ∀ h v, Settling p P q (host.write h v)
  call : ∀ h args, Settling p P q (host.call h args)
  callRaw : ∀ h args, Settling p P q (host.callRaw h args)
  handle : ∀ seat h n, Settling p P q (host.handle seat h n) fun _ => True

theorem Host.Settles.upkeep {p : Expr → Prop} {P : μ → Prop} {q : Expr → Prop} {host : Host σ μ}
    (hh : host.Settles p P q) (w₀ : World σ μ) :
    Upkeep host (fun n => n.Parsed ∧ n.Asks p)
      (fun w => (w₀.Tends (fun _ => True) w ∧ w.Tidy p P) ∧ w₀.Settles q w) Fault.IsOrdinary where
  own _ hf := hf
  noting h e he := ⟨(hh.tidies.upkeep w₀).noting h.1 e he, h.2.quiet he⟩
  custom {w} h kind data := ⟨(hh.tidies.upkeep w₀).custom h.1 kind data,
    h.2.congr (fun _ => rfl) fun s => w.told_custom s w.seat kind data⟩
  withVars h vs := ⟨(hh.tidies.upkeep w₀).withVars h.1 vs, h.2.congr (fun _ => rfl) fun _ => rfl⟩
  withFunctions h fs := ⟨(hh.tidies.upkeep w₀).withFunctions h.1 fs, h.2.congr (fun _ => rfl) fun _ => rfl⟩
  withBus h b := ⟨(hh.tidies.upkeep w₀).withBus h.1 b, h.2.congr (World.phase_withRunner_same rfl rfl) fun _ => rfl⟩
  configured h c := ⟨(hh.tidies.upkeep w₀).configured h.1 c, h.2.configured c⟩
  putNode h n hn := ⟨(hh.tidies.upkeep w₀).putNode h.1 n hn, h.2.congr (fun _ => rfl) fun _ => rfl⟩
  noNodes h := ⟨(hh.tidies.upkeep w₀).noNodes h.1, h.2.congr (fun _ => rfl) fun _ => rfl⟩
  read hd := hh.read hd w₀
  write hd v := hh.write hd v w₀
  call hd args := hh.call hd args w₀
  callRaw hd args := hh.callRaw hd args w₀
  handle seat hd n := hh.handle seat hd n w₀

/-- Inside a step that the runner in front began in `w₀`, in a tidy world with closings. -/
structure World.Underway (p : Expr → Prop) (P : μ → Prop) (q : Expr → Prop) (w₀ w : World σ μ) : Prop where
  amid : World.Amid p P w₀ w
  settles : w₀.Settles q w

/-- Where such a step has failed with an ordinary fault. -/
def World.UnderwayFault (p : Expr → Prop) (P : μ → Prop) (q : Expr → Prop) (w₀ : World σ μ) (f : Fault)
    (w : World σ μ) : Prop :=
  w₀.Underway p P q w ∧ f.IsOrdinary

section
variable {p : Expr → Prop} {P : μ → Prop} {q : Expr → Prop} {host : Host σ μ}

namespace World.Underway
variable {w₀ w w' : World σ μ}

theorem seat (h : w₀.Underway p P q w) : w.seat = w₀.seat := h.amid.during.tends.seat

theorem interrupted (h : w₀.Underway p P q w)
    (h' : (w.Tends (fun _ => True) w' ∧ w'.Tidy p P) ∧ w.Settles q w') : w₀.Underway p P q w' :=
  ⟨h.amid.interrupted h'.1.1 h'.1.2, h.settles.trans h'.2⟩

theorem withRunner (h : w₀.Underway p P q w) {r : Runner} (hr : r.Tidy p) (hb : r.busy = w.runner.busy)
    (hs : r.session = w.runner.session) : w₀.Underway p P q (w.withRunner r) :=
  ⟨h.amid.withRunner hr hb, h.settles.congr (World.phase_withRunner_same hs hb) fun _ => rfl⟩

theorem noting (h : w₀.Underway p P q w) {e : Entry μ} (he : e.isQuiet) : w₀.Underway p P q (w.noting e) :=
  ⟨h.amid.noting (Entry.ne_marked he), h.settles.quiet he⟩

theorem rested (h : w₀.Underway p P q w) : w.rested.Tidy p P ∧ w₀.Settles q w.rested := by
  refine ⟨h.amid.tidy.withRunner (h.amid.tidy.front.congr rfl), h.settles.closing.withRunner rfl, ?_⟩
  exact h.settles.hushed.front h.amid.during.idle h.seat (fun s hs => by rw [World.rested, phase_withRunner, if_neg hs])
    fun _ _ => rfl

/-- A step may announce what follows. -/
theorem announcing (h : w₀.Underway p P q w) {n : Notice} (hcustom : n.isCustom = false)
    (hn : n.Follows (Notice.IsLate q) (w.told w.seat)) (hgone : n.isCompleted = false) :
    w₀.Underway p P q (w.noting (.published w.seat n)) := by
  refine ⟨h.amid.noting (Entry.published_ne_marked _ _), h.settles.closing.announcing hcustom hn (.inl hgone), ?_⟩
  refine h.settles.hushed.front h.amid.during.idle h.seat (fun _ _ => rfl) fun s hs => ?_
  rw [told_published w s hcustom, if_neg hs]

/-- Whatever host code has done since the session was live, a late notice follows, and any one if the session is live. -/
theorem follows (h : w₀.Underway p P q w) (hlive : w.runner.session.isSome)
    (h' : (w.Tends (fun _ => True) w' ∧ w'.Tidy p P) ∧ w.Settles q w') {n : Notice}
    (hn : w'.runner.session.isSome ∨ n.IsLate q) : n.Follows (Notice.IsLate q) (w'.told w'.seat) := by
  have hopen := h.settles.closing.open_front hlive
  rcases h'.2.hushed w.seat w.runner.session (by rw [phase_seat, h.amid.during.busy]) with ⟨-, htold⟩ | ⟨-, hphase, htold⟩
  · rw [h'.1.1.seat, htold]
    exact .inr (.inl hopen)
  · rw [← h'.1.1.seat, phase_seat] at hphase
    have hgone : w'.runner.session = none := by simp at hphase; exact hphase.1
    refine .inr (.inr ⟨_, _, by rw [h'.1.1.seat, htold], .inl (hn.resolve_left ?_)⟩)
    rw [hgone]
    exact Bool.false_ne_true

end World.Underway

namespace Carries
variable {α : Type} {A : Runner → Prop} {x : Play σ μ α}

theorem settling (hx : Settling p P q x) :
    Carries (World.Underway p P q) (World.UnderwayFault p P q) A x fun _ _ => True := by
  intro w₀ w hw _
  refine wp_mono (hx.wp hw.amid.during.tends.order hw.amid.tidy hw.settles.closing) (fun _ _ h => ?_) fun _ _ h => ?_
  · exact ⟨hw.interrupted h, trivial⟩
  · exact ⟨hw.interrupted h.1, h.2⟩

/-- An announcement by a live session, of something that has to be rendered first; it comes late if rendering may have
ended the session. -/
theorem announcing (hh : host.Settles p P q) (hx : Settling p P q x) {n : α → Notice}
    (hcustom : ∀ a, (n a).isCustom = false) (hgoes : ∀ a, (n a).isCompleted = false)
    (hlive : Carries (World.Underway p P q) (World.UnderwayFault p P q) Runner.Live x fun a r => r.Live ∨ (n a).IsLate q) :
    Carries (World.Underway p P q) (World.UnderwayFault p P q) Runner.Live (do let a ← x; Play.publish host (n a))
      fun _ _ => True := by
  intro w₀ w hw hr
  have hrun := wp_and (hx.wp hw.amid.during.tends.order hw.amid.tidy hw.settles.closing) (hlive hw hr)
  rw [wp_bind]
  refine wp_mono hrun (fun a w' h => ?_) fun _ _ h => h.2
  have hnoted := h.2.1.announcing (hcustom a) (hw.follows hr h.1 h.2.2) (hgoes a)
  exact settling (A := fun _ => True) (fun w₀ => Play.upholds_deliver (hh.upkeep w₀) (n a)) hnoted trivial

end Carries
end
end Parley
