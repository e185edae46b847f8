import Parley.Proofs.Discretion
import Parley.Proofs.Midstep

/-! # Menus that have been offered

A menu is `Offered` if the last that its runner has told is the menu itself, with a text rendered for each choice, or
picks from it since; `Silent` are the menus that have been opened without being told, with what had been told then. In a
world that is `Offering` every open menu is offered, and so was every menu that a choice was picked from. Steps with
discreet host code keep this so: they open a menu only where none is open, and tell it at once. If a step fails in
between, the fault is that of rendering, and what is open then is added to the silent ones (`World.silenced`). -/

namespace Parley
variable {σ μ : Type}

/-- The texts are those of the choices, rendered in this order. -/
inductive Rendered (host : Host σ μ) : List Choice → List String → Prop
  | nil : Rendered host [] []
  | cons {c : Choice} {text : String} {rest : List Choice} {texts : List String} {w w' : World σ μ}
      (h : Play.render host c.text w = .ok text w') (hrest : Rendered host rest texts) :
      Rendered host (c :: rest) (text :: texts)

theorem Rendered.of_renderAll {host : Host σ μ} {choices : List Choice} {texts : List String} {w w' : World σ μ}
    (h : Play.renderAll host choices w = .ok texts w') : Rendered host choices texts := by
  induction choices generalizing texts w w' with
  | nil => cases h; exact .nil
  | cons c rest ih =>
    obtain ⟨text, v, htext, h⟩ := bind_ok h
    obtain ⟨texts', v', hrest, h⟩ := bind_ok h
    cases h
    exact .cons htext (ih hrest)

/-- Told, with a text for each choice, and picked from at most since. -/
inductive Offered (host : Host σ μ) (Silent : List Choice → List Notice → Prop) (menu : List Choice) : List Notice → Prop
  | told {texts : List String} {older : List Notice} (h : Rendered host menu texts) :
      Offered host Silent menu (.menuOpened menu texts :: older)
  | silent {told : List Notice} (h : Silent menu told) : Offered host Silent menu told
  | picked {c : Choice} {i : Nat} {older : List Notice} (hc : menu[i]? = some c) (h : Offered host Silent menu older) :
      Offered host Silent menu (.selected c i :: older)

/-- Every choice has been picked at its place in a menu that was offered then. -/
def Picked (host : Host σ μ) (Silent : List Choice → List Notice → Prop) : List Notice → Prop
  | [] => True
  | .selected c i :: older => (∃ menu, menu[i]? = some c ∧ Offered host Silent menu older) ∧ Picked host Silent older
  | _ :: older => Picked host Silent older

section
variable {host : Host σ μ} {S S' : List Choice → List Notice → Prop} {menu : List Choice} {told : List Notice}

theorem Offered.mono (h : Offered host S menu told) (hS : ∀ menu told, S menu told → S' menu told) :
    Offered host S' menu told := by
  induction h with
  | told h => exact .told h
  | silent h => exact .silent (hS _ _ h)
  | picked hc _ ih => exact .picked hc ih

namespace Picked

theorem mono (h : Picked host S told) (hS : ∀ menu told, S menu told → S' menu told) : Picked host S' told := by
  induction told with
  | nil => trivial
  | cons n older ih =>
    cases n with
    | selected =>
      obtain ⟨⟨menu, hc, hoffered⟩, h⟩ := h
      exact ⟨⟨menu, hc, hoffered.mono hS⟩, ih h⟩
    | started | entered | displayed | menuOpened | waiting | completed | custom => exact ih h

theorem cons {n : Notice} (h : Picked host S told)
    (hn : ∀ c i, n = .selected c i → ∃ menu, menu[i]? = some c ∧ Offered host S menu told) : Picked host S (n :: told) := by
  cases n with
  | selected c i => exact ⟨hn c i rfl, h⟩
  | started | entered | displayed | menuOpened | waiting | completed | custom => exact h

theorem offered {newer older : List Notice} {c : Choice} {i : Nat} (h : Picked host S (newer ++ .selected c i :: older)) :
    ∃ menu, menu[i]? = some c ∧ Offered host S menu older := by
  induction newer with
  | nil => exact h.1
  | cons n newer ih =>
    cases n with
    | selected => exact ih h.2
    | started | entered | displayed | menuOpened | waiting | completed | custom => exact ih h

end Picked
end

namespace World

/-- Only the runner in front may have moved or told anything. -/
structure SameWings (w w' : World σ μ) : Prop where
  seat : w'.seat = w.seat
  places : ∀ s, s ≠ w.seat → (w'.at? s).map Runner.place = (w.at? s).map Runner.place
  told : ∀ s, s ≠ w.seat → w'.told s = w.told s

namespace SameWings
variable {w w' w'' : World σ μ}

theorem trans (h : w.SameWings w') (h' : w'.SameWings w'') : w.SameWings w'' := by
  refine ⟨h'.seat.trans h.seat, fun s hs => ?_, fun s hs => ?_⟩
  · exact (h'.places s (by rwa [h.seat])).trans (h.places s hs)
  · exact (h'.told s (by rwa [h.seat])).trans (h.told s hs)

theorem unmoved (h : w.Unmoved w') : w.SameWings w' := ⟨h.seat, fun s _ => h.places s, fun s _ => h.told s⟩

theorem withRunner (w : World σ μ) (r : Runner) : w.SameWings (w.withRunner r) :=
  ⟨rfl, fun s hs => by rw [at?_withRunner, if_neg hs], fun _ _ => rfl⟩

theorem published (w : World σ μ) {n : Notice} (hn : n.isCustom = false) :
    w.SameWings (w.noting (.published w.seat n)) :=
  ⟨rfl, fun _ _ => rfl, fun s hs => by rw [told_published w s hn, if_neg hs]⟩

theorem opening (w : World σ μ) (n : Node) (name : String) (index : Nat) : w.SameWings (w.opening n name index) :=
  ⟨rfl, fun s hs => congrArg (Option.map Runner.place)
    ((at?_withRunner { w with sessions := w.sessions + 1 } _ s).trans (if_neg hs)),
    fun s hs => by rw [told_opening, if_neg hs]⟩

end SameWings

/-- Every open menu is offered, and every pick was made from a menu that was. -/
structure Offering (host : Host σ μ) (S : Nat → List Choice → List Notice → Prop) (w : World σ μ) : Prop where
  tidy : w.Tidy (fun _ => True) fun _ => True
  picks : ∀ s, Picked host (S s) (w.told s)
  menus : ∀ s r, w.at? s = some r → r.menu = [] ∨ Offered host (S s) r.menu (w.told s)

/-- The menu that is open in front counts as silent if its texts cannot be rendered for this fault. -/
def silenced (w : World σ μ) (host : Host σ μ) (f : Fault) (S : Nat → List Choice → List Notice → Prop) :
    Nat → List Choice → List Notice → Prop := fun s menu told =>
  S s menu told ∨ s = w.seat ∧ menu = w.runner.menu ∧ told = w.told s ∧
    ∃ v v' : World σ μ, Play.renderAll host menu v = .error f v'

theorem Tidy.unmoved {w w' : World σ μ} (h : w.Tidy (fun _ => True) fun _ => True) (h' : w.Unmoved w') :
    w'.Tidy (fun _ => True) fun _ => True := by
  refine ⟨fun _ _ _ _ _ => trivial, fun s r hr => ?_, fun _ _ => trivial⟩
  have hplace := h'.places s
  rw [hr, Option.map_some] at hplace
  obtain ⟨r₀, hr₀, hplace⟩ := Option.map_eq_some_iff.1 hplace.symm
  exact (h.runners s r₀ hr₀).congr hplace.symm

namespace Offering
variable {host : Host σ μ} {S S' : Nat → List Choice → List Notice → Prop} {w w' : World σ μ} {f : Fault}

theorem front (h : w.Offering host S) : w.runner.menu = [] ∨ Offered host (S w.seat) w.runner.menu (w.told w.seat) :=
  h.menus w.seat w.runner w.at?_seat

theorem mono (h : w.Offering host S) (hS : ∀ s menu told, S s menu told → S' s menu told) : w.Offering host S' :=
  ⟨h.tidy, fun s => (h.picks s).mono (hS s), fun s r hr => (h.menus s r hr).imp_right fun ho => ho.mono (hS s)⟩

theorem silenced (h : w.Offering host S) : w.Offering host (w.silenced host f S) := h.mono fun _ _ _ => .inl

/-- What is in front may have changed, as long as the menu there is offered again. -/
theorem of_front (h : w.Offering host S) (h' : w.SameWings w') (htidy : w'.Tidy (fun _ => True) fun _ => True)
    (hpicks : Picked host (S w.seat) (w'.told w.seat))
    (hmenu : w'.runner.menu = [] ∨ Offered host (S w.seat) w'.runner.menu (w'.told w.seat)) : w'.Offering host S := by
  refine ⟨htidy, fun s => ?_, fun s r hr => ?_⟩
  · by_cases hs : s = w.seat
    · rw [hs]; exact hpicks
    · rw [h'.told s hs]; exact h.picks s
  · by_cases hs : s = w.seat
    · have hfront : w'.runner = r := by rwa [hs, ← h'.seat, at?_seat, Option.some.injEq] at hr
      rw [← hfront, hs]
      exact hmenu
    · have hplace := h'.places s hs
      rw [hr, Option.map_some] at hplace
      obtain ⟨r₀, hr₀, hplace⟩ := Option.map_eq_some_iff.1 hplace.symm
      have hmenu : r.menu = r₀.menu := (congrArg Place.menu hplace).symm
      rw [hmenu, h'.told s hs]
      exact h.menus s r₀ hr₀

theorem unmoved (h : w.Offering host S) (h' : w.Unmoved w') : w'.Offering host S := by
  refine h.of_front (.unmoved h') (h.tidy.unmoved h') ?_ ?_ <;> rw [h'.told]
  · exact h.picks _
  · rw [h'.menu]; exact h.front

theorem noting (h : w.Offering host S) {e : Entry μ} (he : e.isQuiet) : (w.noting e).Offering host S :=
  h.unmoved (Unmoved.noting (.refl w) fun s => w.told_quiet s he)

theorem withRunner (h : w.Offering host S) {r : Runner} (hr : r.Tidy fun _ => True)
    (hmenu : r.menu = w.runner.menu ∨ r.menu = []) : (w.withRunner r).Offering host S := by
  refine h.of_front (.withRunner w r) (h.tidy.withRunner hr) (h.picks _) ?_
  rcases hmenu with hmenu | hmenu
  · show r.menu = [] ∨ Offered host (S w.seat) r.menu (w.told w.seat)
    rw [hmenu]
    exact h.front
  · exact .inl hmenu

/-- The runner in front may tell anything but a pick, as long as no menu is open there. -/
theorem telling (h : w.Offering host S) {n : Notice} (hcustom : n.isCustom = false) (hn : n.isSelected = false)
    (hmenu : w.runner.menu = []) : (w.noting (.published w.seat n)).Offering host S := by
  refine h.of_front (.published w hcustom) (h.tidy.noting (Entry.published_ne_marked _ _)) ?_ (.inl hmenu)
  rw [told_published w _ hcustom, if_pos rfl]
  exact (h.picks _).cons fun c i hc => by rw [hc] at hn; cases hn

/-- And a pick from the open menu. -/
theorem picking (h : w.Offering host S) {c : Choice} {i : Nat} (hc : w.runner.menu[i]? = some c) :
    (w.noting (.published w.seat (.selected c i))).Offering host S := by
  have hoffered : Offered host (S w.seat) w.runner.menu (w.told w.seat) := by
    refine h.front.resolve_left fun hmenu => ?_
    rw [hmenu] at hc
    cases hc
  refine h.of_front (.published w rfl) (h.tidy.noting (Entry.published_ne_marked _ _)) ?_ (.inr ?_) <;>
    rw [told_published w _ rfl, if_pos rfl]
  · refine (h.picks _).cons fun c' i' h' => ?_
    cases h'
    exact ⟨_, hc, hoffered⟩
  · exact .picked hc hoffered

variable {choices : List Choice}
  (hput : (w.withRunner { w.runner with menu := choices }).Tidy (fun _ => True) fun _ => True)
  (h' : (w.withRunner { w.runner with menu := choices }).Unmoved w')
include hput h'

/-- A menu that was put down, and then told with its texts. -/
theorem opened (h : w.Offering host S) {texts : List String} (hr : Rendered host choices texts) :
    (w'.noting (.published w'.seat (.menuOpened choices texts))).Offering host S := by
  have hseat : w.seat = w'.seat := h'.seat.symm
  have hmenu : w'.runner.menu = choices := h'.menu
  have htold : (w'.noting (.published w'.seat (.menuOpened choices texts))).told w.seat =
      .menuOpened choices texts :: w.told w.seat := by
    rw [told_published w' _ rfl, if_pos hseat, h'.told]
    rfl
  refine h.of_front (.trans (.withRunner w _) (.trans (.unmoved h') (.published w' rfl)))
    ((hput.unmoved h').noting (Entry.published_ne_marked _ _)) ?_ (.inr ?_) <;> rw [htold]
  · exact (h.picks _).cons fun _ _ hc => by cases hc
  · show Offered host (S w.seat) w'.runner.menu _
    rw [hmenu]
    exact .told hr

/-- A menu that was put down, but whose texts could not be rendered. -/
theorem failed (h : w.Offering host S) {v v' : World σ μ} (hf : Play.renderAll host choices v = .error f v') :
    w'.Offering host (w'.silenced host f S) := by
  have hmenu : w'.runner.menu = choices := h'.menu
  refine (h.mono fun _ _ _ => .inl).of_front (.trans (.withRunner w _) (.unmoved h')) (hput.unmoved h') ?_ ?_
  · rw [h'.told]
    exact (h.picks _).mono fun _ _ => .inl
  · exact .inr (.silent (.inr ⟨h'.seat.symm, rfl, rfl, v, v', hmenu ▸ hf⟩))

end Offering
end World

/-- A session runs, and no menu is open. -/
def Runner.Choiceless (r : Runner) : Prop := r.Live ∧ r.menu = []

section
variable {host : Host σ μ} {S : Nat → List Choice → List Notice → Prop}

/-- Inside a step the world is offering, up to the menu that the step was to open when it failed. -/
abbrev OfferingStep (host : Host σ μ) (S : Nat → List Choice → List Notice → Prop) {α : Type} (A : Runner → Prop)
    (x : Play σ μ α) (B : α → Runner → Prop) : Prop :=
  Carries (fun _ w => w.Offering host S) (fun _ f w => w.Offering host (w.silenced host f S)) A x B

namespace OfferingStep
variable {α : Type} {A : Runner → Prop} {x : Play σ μ α}

theorem run {B : α → Runner → Prop} {w : World σ μ} (hx : OfferingStep host S A x B) (hw : w.Offering host S)
    (hr : A w.runner) : wp x (fun a w' => w'.Offering host S ∧ B a w'.runner)
      (fun f w' => w'.Offering host (w'.silenced host f S)) w :=
  @hx w w hw hr

/-- What moves no runner. -/
theorem unmoving (hx : Unmoving x) (hA : ∀ {r r' : Runner}, A r → r'.place = r.place → A r') :
    OfferingStep host S A x fun _ => A :=
  fun _ w hw hr => wp_mono (hx.wp w) (fun _ _ h => ⟨hw.unmoved h, hA hr h.place⟩) fun _ _ h => (hw.unmoved h).silenced

theorem choiceless (hx : Unmoving x) : OfferingStep host S Runner.Choiceless x fun _ => Runner.Choiceless :=
  unmoving hx fun {r r'} hr hplace => by
    have hsession : r'.session = r.session := congrArg Place.session hplace
    have hmenu : r'.menu = r.menu := congrArg Place.menu hplace
    rwa [Runner.Choiceless, Runner.Live, hsession, hmenu]

variable (hh : host.Discreet)
include hh

theorem delivering (n : Notice) : Unmoving (Play.deliver host n) := hh.unmoving fun hk => Play.upholds_deliver hk n

theorem publish {n : Notice} (hcustom : n.isCustom = false) (hn : n.isSelected = false) :
    OfferingStep host S Runner.Choiceless (Play.publish host n) fun _ => Runner.Choiceless :=
  fun _ _ hw hr => (choiceless (delivering hh n)).run (hw.telling hcustom hn hr.2) hr

/-- What is left to do once a notice is in the journal. -/
theorem delivered (n : Notice) :
    OfferingStep host S (fun _ => True) (do let _ ← Play.deliver host n : Play σ μ Unit) fun _ _ => True :=
  (unmoving (delivering hh n) fun _ _ => trivial).bind fun _ => .pure fun _ h => h

/-- A menu is told right after it has been put down; only its texts can come in between. -/
theorem openMenu (choices : List Choice) :
    OfferingStep host S Runner.Choiceless (Play.openMenu host choices) fun _ _ => True := by
  intro _ w hw hr
  have hput : (w.withRunner { w.runner with menu := choices }).Tidy (fun _ => True) fun _ => True :=
    hw.tidy.withRunner (.of_live hr.1 (hw.tidy.front.rooted hr.1) fun _ _ _ _ => trivial)
  have hrender := (hh.unmoving fun hk => Play.upholds_renderAll hk.housekeeping.toBearing choices).wp (w.withRunner { w.runner with menu := choices })
  show wp (do let texts ← Play.renderAll host choices; let _ ← Play.publish host (.menuOpened choices texts)) _ _
    (w.withRunner { w.runner with menu := choices })
  rw [wp_bind]
  unfold wp at hrender ⊢
  cases htexts : Play.renderAll host choices (w.withRunner { w.runner with menu := choices }) with
  | error f v =>
    rw [htexts] at hrender
    exact hw.failed hput hrender htexts
  | ok texts v =>
    rw [htexts] at hrender
    exact (delivered hh (.menuOpened choices texts)).run (hw.opened hput hrender (.of_renderAll htexts)) trivial

theorem complete : OfferingStep host S (fun _ => True) (Play.complete host) fun _ _ => True := by
  intro _ w hw _
  have hreset : w.completing.Offering host S :=
    ((hw.withRunner (.reset _ w.runner) (.inr rfl)).noting (e := .logged _) rfl).telling rfl rfl rfl
  exact (delivered hh (.completed w.runner.session)).run hreset trivial

end OfferingStep

theorem Host.Discreet.footing (hh : host.Discreet) :
    Footing host (fun _ => True) (fun _ w => w.Offering host S) (fun _ f w => w.Offering host (w.silenced host f S))
      Runner.Choiceless where
  live h := h.1
  ready hlive hmenu := ⟨hlive, hmenu⟩
  congr h hs hm := by rwa [Runner.Choiceless, Runner.Live, hs, hm]
  own _ hw := hw.silenced
  tidy hw := hw.tidy.front
  nodes _ _ _ _ := fun _ _ => trivial
  noting hw _ he := hw.noting he
  withRunner hw _ hr _ _ hmenu := hw.withRunner hr hmenu
  upheld hx := OfferingStep.unmoving (hh.unmoving hx) fun _ _ => trivial
  test what e _ := OfferingStep.choiceless (hh.unmoving fun hk => Play.upholds_test hk what e)
  waitDuration e line _ := OfferingStep.choiceless (hh.unmoving fun hk => Play.upholds_waitDuration hk e line)
  entered _ := (OfferingStep.publish hh rfl rfl).mono (fun _ h => h) fun _ _ _ => trivial
  displayed l := by
    refine (OfferingStep.choiceless (hh.unmoving fun hk => Play.upholds_render hk l.text)).bind fun text => ?_
    exact (OfferingStep.publish hh rfl rfl).bind fun _ => .pure fun _ h _ => h
  opened choices _ := OfferingStep.openMenu hh choices
  waiting _ := (OfferingStep.publish hh rfl rfl).mono (fun _ h => h) fun _ _ _ => trivial
  complete := (OfferingStep.complete hh).mono (fun _ _ => trivial) fun _ _ h => h

end
end Parley
