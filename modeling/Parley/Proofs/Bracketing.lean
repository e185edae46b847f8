import Parley.Proofs.AnnouncedMenus
import Parley.Proofs.Brackets

/-! # Sessions are told as brackets

With discreet host code a call either goes on with the session of the runner in front, or starts another one
(`World.Proceeds`). Only a call to start does the latter, and in place of an open session only with force. Its start is
told first and its node next, with nothing but handlers in between, so a fault cannot part them: what a handler fails
with is logged. What could is a delivery without end. So this is said of calls that come to one (`Unspent`), in any
order, and whether they are allowed, refused or fail (`Unspent.sessions_bracketed`). -/

namespace Parley
variable {σ μ : Type} {host : Host σ μ}

namespace Play

/-- The faults of handlers go no further; a delivery fails only if it does not end. -/
theorem deliver_faults (host : Host σ μ) (n : Notice) : Upholds (fun _ => True) (· = .exhausted) (deliver host n) := by
  have hany : Delivering host (fun _ => True) (· = .exhausted) := by
    refine ⟨rfl, fun _ _ _ => trivial, fun _ _ _ => trivial, fun _ _ => trivial, fun seat h n w _ => ?_⟩
    unfold wp
    cases host.handle seat h n w <;> trivial
  exact upholds_deliver hany n

end Play

/-- What a call makes of the session in front: it goes on, or another one has been started and goes on. -/
inductive World.Proceeds (w v : World σ μ) : Prop
  | continued (h : w.Continuing v)
  | restarted (id : SessionId) (name : String) (htidy : v.Tidy (fun _ => True) fun _ => True) (hwings : w.SameWings v)
      (h : Continued (.entered name :: .started id name :: w.told w.seat) (some id) (v.told w.seat) v.runner.session)

namespace World.Proceeds
variable {w v : World σ μ}

theorem tidy (h : w.Proceeds v) : v.Tidy (fun _ => True) fun _ => True := by
  cases h with
  | continued h => exact h.tidy
  | restarted _ _ htidy => exact htidy

theorem wings (h : w.Proceeds v) : w.SameWings v := by
  cases h with
  | continued h => exact h.wings
  | restarted _ _ _ hwings => exact hwings

theorem bracketed (h : w.Proceeds v) (hw : Bracketed (w.told w.seat) w.runner.session) :
    Bracketed (v.told w.seat) v.runner.session := by
  cases h with
  | continued h => exact hw.continued h.account
  | restarted id name _ _ h => exact (hw.begun id name).continued h

theorem of_quiet {e : Entry μ} (he : e.isQuiet) (h : (w.noting e).Proceeds v) : w.Proceeds v := by
  cases h with
  | continued h => exact .continued (h.of_quiet he)
  | restarted id name htidy hwings h =>
    have hnoted : w.Unmoved (w.noting e) := .noting (.refl w) fun s => w.told_quiet s he
    exact .restarted id name htidy ((SameWings.unmoved hnoted).trans hwings) (hnoted.told _ ▸ h)

end World.Proceeds

/-- Going on with a session. -/
theorem World.landing_continuing :
    Landing (fun _ => True) (fun w : World σ μ => w.Tidy (fun _ => True) fun _ => True) (fun u w => u.Continuing w)
      (fun u _ w => u.Continuing w) (fun u w => u.Continuing w) (fun u _ w => u.Continuing w) where
  tidy h := h.front
  nodes _ _ _ _ := fun _ _ => trivial
  noting h _ he := h.noting (Entry.ne_marked he)
  begun {w} _ h _ := (Continuing.refl h).unmoved (.withRunner (.refl w) rfl)
  rested {_ w} h := h.unmoved (.withRunner (.refl w) rfl)
  failed {_ w _} h := h.unmoved (.withRunner (.refl w) rfl)
  refused _ h _ he := (Continuing.refl h).noting he
  noted he h := h.of_quiet he
  notedFault he h := h.of_quiet he

/-- Starting one. -/
theorem World.landing_proceeding :
    Landing (fun _ => True) (fun w : World σ μ => w.Tidy (fun _ => True) fun _ => True) (fun u w => u.Continuing w)
      (fun u _ w => u.Continuing w) (fun u w => u.Proceeds w) (fun u f w => f ≠ .exhausted → u.Proceeds w) where
  tidy h := h.front
  nodes _ _ _ _ := fun _ _ => trivial
  noting h _ he := h.noting (Entry.ne_marked he)
  begun {w} _ h _ := (Continuing.refl h).unmoved (.withRunner (.refl w) rfl)
  rested {_ w} h := .continued (h.unmoved (.withRunner (.refl w) rfl))
  failed {_ w _} h _ := .continued (h.unmoved (.withRunner (.refl w) rfl))
  refused _ h _ he _ := .continued ((Continuing.refl h).noting he)
  noted he h := h.of_quiet he
  notedFault he h hf := (h hf).of_quiet he

namespace Play
variable (hh : host.Discreet) {w : World σ μ}
include hh

/-- Between the start and the name of its node there is a delivery, which does not move the runner. -/
theorem wp_startAt_proceeding {n : Node} {name : String} {index : Nat} (hw : w.Tidy (fun _ => True) fun _ => True) :
    wp (startAt host n name index) (fun _ v => w.Proceeds v) (fun f v => f ≠ .exhausted → w.Proceeds v) w := by
  rw [wp, startAt_eq]
  refine wp_ensuring.2 ((wp_bind _ _).2 ?_)
  have hunmoved := (hh.unmoving fun hk => upholds_deliver hk.delivering (.started (w.sessions + 1) name)).wp
    (w.opening n name index)
  refine wp_mono (wp_and hunmoved (deliver_faults host _ trivial)) (fun _ v hv => ?_) fun f v hv hf => absurd hv.2.2 hf
  have hopened : w.SameWings v := (World.SameWings.opening w n name index).trans (.unmoved hv.1)
  have htold : v.told w.seat = .started (w.sessions + 1) name :: w.told w.seat := by
    rw [hv.1.told, World.told_opening, if_pos rfl]
  have hsession : v.runner.session = some (w.sessions + 1) := hv.1.session
  have htidy : (v.noting (.published v.seat (.entered name))).Tidy (fun _ => True) fun _ => True :=
    ((hw.opening fun _ _ => trivial).unmoved hv.1).noting (Entry.published_ne_marked _ _)
  have hgoing : ContinuingStep Runner.Live (do
      let _ ← deliver host (.entered name)
      advance host) fun _ _ => True :=
    (ContinuingStep.live (hh.unmoving fun hk => upholds_deliver hk _)).bind fun _ => hh.continuing.advance
  have hrested {z : World σ μ} (h : (v.noting (.published v.seat (.entered name))).Continuing z) :
      w.Proceeds z.rested := by
    have hz : (v.noting (.published v.seat (.entered name))).Continuing z.rested :=
      h.unmoved (.withRunner (.refl z) rfl)
    refine .restarted (w.sessions + 1) name hz.tidy ((hopened.trans (.published v rfl)).trans hz.wings) ?_
    have haccount : Continued ((v.noting (.published v.seat (.entered name))).told v.seat) v.runner.session
      (z.rested.told v.seat) z.rested.runner.session := hz.account
    rwa [World.told_published v _ rfl, if_pos rfl, hsession, hopened.seat, htold] at haccount
  have hlive : v.runner.Live := by rw [Runner.Live, hsession]; rfl
  exact wp_mono (hgoing (.refl htidy) hlive) (fun _ _ h => hrested h.1) fun _ _ h _ => hrested h

theorem wp_finish_continuing (force : Bool) (hw : w.Tidy (fun _ => True) fun _ => True) :
    wp (finish host force) (fun _ v => w.Continuing v) (fun _ v => w.Continuing v) w := by
  simp only [finish, wp_bind, wp_runner, wp_ite, wp_refuse]
  have hlogged (r : LogRecord) : w.Continuing (w.noting (.logged r)) := (World.Continuing.refl hw).noting rfl
  split
  · exact hlogged _
  · split
    · exact hlogged _
    · next hs =>
      have hlive : w.runner.Live := by simpa [Runner.Live, Option.isSome_iff_ne_none] using hs
      exact wp_mono (ContinuingStep.complete hh (World.Continuing.refl hw) hlive) (fun _ _ h => h.1) fun _ _ h => h

/-- Only a start that is allowed replaces the session. -/
theorem wp_perform_continuing (op : Operation) (hw : w.InOrder fun _ => True) (h : w.Tidy (fun _ => True) fun _ => True)
    (hop : ∀ name index force, op = .start name index force → w.runner.session.isSome ∧ force = false) :
    wp (perform host op) (fun _ v => w.Continuing v) (fun _ v => w.Continuing v) w := by
  have hf := hh.continuing
  have hdone {x : Play σ μ Unit} (hx : wp x (fun _ v => w.Continuing v) (fun _ v => w.Continuing v) w) :
      wp (do x; return Answer.done) (fun _ v => w.Continuing v) (fun _ v => w.Continuing v) w := by
    rw [wp_bind]
    exact wp_mono hx (fun _ _ h => h) fun _ _ h => h
  have hunmoving {α : Type} {x : Play σ μ α} (hx : Unmoving x) :
      wp x (fun _ v => w.Continuing v) (fun _ v => w.Continuing v) w :=
    wp_mono (hx.wp w) (fun _ _ => (World.Continuing.refl h).unmoved) fun _ _ => (World.Continuing.refl h).unmoved
  by_cases habout : op.aboutSession = false
  · exact hunmoving (unmoving_perform hh habout)
  cases op with
  | start name index force =>
    obtain ⟨hlive, rfl⟩ := hop name index force rfl
    refine hdone (World.landing_continuing.requireIdleStep h fun _ => ?_)
    rw [wp_bind]
    simp only [wp_runner, wp_bind, wp_ite, wp_refuse]
    rw [if_pos ⟨hlive, rfl⟩]
    exact World.landing_continuing.refuse (α := Unit) _ h
  | resume => exact hdone (World.landing_continuing.resume hf hw h)
  | select index =>
    refine hdone (World.landing_continuing.select hf (fun {choice i} _ hlive _ => ?_) index h)
    have hbegun : w.Continuing w.begun := (World.Continuing.refl h).unmoved (.withRunner (.refl w) rfl)
    exact wp_mono (ContinuingStep.publish hh rfl ⟨rfl, rfl⟩ hbegun hlive) (fun _ _ h => h.1) fun _ _ h => h
  | jump name => exact hdone (World.landing_continuing.jump hf name hw h)
  | finish force => exact hdone (wp_finish_continuing hh force h)
  | nextContent => exact hunmoving fun w₀ => (unmoving_nextContent hh w₀).bind fun _ => .pure _
  | _ => exact absurd rfl habout

/-- A start goes well, or is refused, or does not come to an end. -/
theorem wp_perform_proceeding (name : Option String) (index : Int) (force : Bool) (hw : w.InOrder fun _ => True)
    (h : w.Tidy (fun _ => True) fun _ => True) :
    wp (perform host (.start name index force)) (fun _ v => w.Proceeds v) (fun f v => f ≠ .exhausted → w.Proceeds v)
      w := by
  have hstart := World.landing_proceeding.start (fun _ hw _ _ => wp_startAt_proceeding hh hw) name index force hw h
  show wp (do start host name index force; return Answer.done) _ _ w
  rw [wp_bind]
  exact wp_mono hstart (fun _ _ h => h) fun _ _ h => h

end Play

/-- Calls lead here, as in `Reachable`, and each has come to an end. -/
inductive Unspent (host : Host σ μ) : World σ μ → Prop
  | opened {w : World σ μ} (h : w.Fresh) : Unspent host w
  | called {w : World σ μ} (op : Operation) (hends : fault? (Play.perform host op w) ≠ some .exhausted)
      (h : Unspent host w) : Unspent host (after (Play.perform host op) w)
  | turned {w : World σ μ} (seat : Nat) (h : Unspent host w) : Unspent host (w.turnTo seat)
  | kept {w : World σ μ} (s : σ) (h : Unspent host w) : Unspent host { w with host := s }

theorem Unspent.reachable {w : World σ μ} (h : Unspent host w) : Reachable host w := by
  induction h with
  | opened h => exact .opened h
  | called op _ _ ih => exact ih.called op
  | turned seat _ ih => exact ih.turned seat
  | kept s _ ih => exact ih.kept s

theorem World.Proceeds.of_perform (hh : host.Discreet) {w : World σ μ} (op : Operation)
    (hends : fault? (Play.perform host op w) ≠ some .exhausted) (hw : w.InOrder fun _ => True)
    (h : w.Tidy (fun _ => True) fun _ => True) :
    w.Continuing (after (Play.perform host op) w) ∨ w.Proceeds (after (Play.perform host op) w) ∧
      ∃ name index force, op = .start name index force ∧ (w.runner.session.isSome → force = true) := by
  have hcontinuing hop := wp_after (Play.wp_perform_continuing hh op hw h hop)
  cases op with
  | start name index force =>
    by_cases hrefused : w.runner.session.isSome ∧ force = false
    · exact .inl (hcontinuing fun _ _ _ hop => by cases hop; exact hrefused)
    refine .inr ⟨?_, name, index, force, rfl, fun hs => by simpa [hs] using hrefused⟩
    have hstart := Play.wp_perform_proceeding hh name index force hw h
    unfold wp at hstart
    unfold after
    cases hr : Play.perform host (.start name index force) w with
    | ok a v => rwa [hr] at hstart
    | error f v =>
      rw [hr] at hstart hends
      exact hstart fun hf => hends (congrArg some hf)
  | _ => exact .inl (hcontinuing fun _ _ _ hop => by cases hop)

/-- Every runner has told its sessions as brackets. -/
structure World.Accounted (w : World σ μ) : Prop where
  tidy : w.Tidy (fun _ => True) fun _ => True
  accounts : ∀ s r, w.at? s = some r → Bracketed (w.told s) r.session

theorem World.Accounted.proceeds {w v : World σ μ} (h : w.Accounted) (h' : w.Proceeds v) : v.Accounted := by
  refine ⟨h'.tidy, fun s r hr => ?_⟩
  by_cases hs : s = w.seat
  · subst hs
    rw [← h'.wings.seat, World.at?_seat] at hr
    cases hr
    exact h'.bracketed (h.accounts _ _ w.at?_seat)
  · have hplace := h'.wings.places s hs
    rw [hr, Option.map_some] at hplace
    obtain ⟨r₀, hr₀, hplace⟩ := Option.map_eq_some_iff.1 hplace.symm
    have hsession : r.session = r₀.session := (congrArg Place.session hplace).symm
    rw [hsession, h'.wings.told s hs]
    exact h.accounts s r₀ hr₀

theorem Unspent.accounted (hh : host.Discreet) (ht : host.Tends fun _ => True) {w : World σ μ} (h : Unspent host w) :
    w.Accounted := by
  induction h with
  | opened h =>
    refine ⟨h.tidy, fun s r hr => ?_⟩
    rw [h.runners s r hr, World.told, h.journal]
    exact .silent
  | @called w op hends h ih =>
    rcases World.Proceeds.of_perform hh op hends (h.reachable.inOrder ht) ih.tidy with h' | h'
    · exact ih.proceeds (.continued h')
    · exact ih.proceeds h'.1
  | @turned w seat _ ih =>
    refine ⟨ih.tidy.turnTo seat, fun s r hr => ?_⟩
    rw [World.told_turnTo]
    exact ih.accounts s r (by rwa [World.at?_turnTo] at hr)
  | kept s _ ih => exact ⟨ih.tidy.kept s, ih.accounts⟩

/-- What a call adds to what a runner has told, and what becomes of a session that was open there: it goes on, or is
completed at the very end, or a forced start has replaced it and is the first thing that is told. -/
theorem Unspent.open_session (hh : host.Discreet) (ht : host.Tends fun _ => True) {w : World σ μ} (h : Unspent host w)
    {op : Operation} (hends : fault? (Play.perform host op w) ≠ some .exhausted) {seat : Nat} {r : Runner}
    (hr : w.at? seat = some r) {id : SessionId} (hid : r.session = some id) :
    ∃ r' newer, (after (Play.perform host op) w).at? seat = some r' ∧
      (after (Play.perform host op) w).told seat = newer ++ w.told seat ∧
      (r'.session = some id ∧ (∀ n ∈ newer, n.IsWithin) ∨
        r'.session = none ∧ (∃ rest, newer = .completed (some id) :: rest ∧ ∀ n ∈ rest, n.IsWithin) ∨
        seat = w.seat ∧ ∃ name index id' node newer',
          op = .start name index true ∧ newer = newer' ++ [.entered node, .started id' node]) := by
  have htidy := (h.accounted hh ht).tidy
  generalize hv : after (Play.perform host op) w = v
  have hcall := World.Proceeds.of_perform hh op hends (h.reachable.inOrder ht) htidy
  rw [hv] at hcall
  have hwings : w.SameWings v := hcall.elim (fun h => h.wings) fun h => h.1.wings
  by_cases hseat : seat = w.seat
  · subst hseat
    rw [World.at?_seat] at hr
    cases hr
    have hfront : v.at? w.seat = some v.runner := by rw [← hwings.seat, World.at?_seat]
    -- it has gone on, unless the call was a start, and that was forced
    have hon (h : w.Continuing v) := (hid ▸ h.account).newer
    rcases hcall with h' | ⟨h' | ⟨id', node, -, -, h'⟩, name, index, force, rfl, hforce⟩
    · obtain ⟨newer, htold, hnewer⟩ := hon h'
      exact ⟨_, newer, hfront, htold, hnewer.imp_right .inl⟩
    · obtain ⟨newer, htold, hnewer⟩ := hon h'
      exact ⟨_, newer, hfront, htold, hnewer.imp_right .inl⟩
    · obtain ⟨newer, htold, -⟩ := h'.newer
      obtain rfl : force = true := hforce (by rw [hid]; rfl)
      refine ⟨_, newer ++ [.entered node, .started id' node], hfront, ?_, .inr (.inr ⟨rfl, ?_⟩)⟩
      · rw [htold, List.append_assoc]
        rfl
      · exact ⟨name, index, id', node, newer, rfl, rfl⟩
  · have hplace := hwings.places seat hseat
    rw [hr, Option.map_some] at hplace
    obtain ⟨r', hr', hplace⟩ := Option.map_eq_some_iff.1 hplace
    have hsession : r'.session = r.session := congrArg Place.session hplace
    exact ⟨r', [], hr', hwings.told seat hseat, .inl ⟨hsession.trans hid, by simp⟩⟩

/-- What a runner tells is a row of sessions. Behind each start comes the name of the node, at once. Everything else is
told between a start and the end of its session, and the session that is completed is the one that was started last.
A session is open if and only if it has been started last and not been completed since. A call that finds one open
leaves it open, or completes it as the last thing that it tells, or is a forced start, which tells the start of the next
one first. -/
theorem Unspent.sessions_bracketed {b : Behaviour σ μ} (hb : b.Discreet) {patience depth : Nat} {w : World σ μ}
    (h : Unspent (Host.ofBehaviour b patience depth) w) {seat : Nat} {r : Runner} (hr : w.at? seat = some r) :
    (∀ newer older id name, w.told seat = newer ++ .started id name :: older →
      ∃ newer', newer = newer' ++ [.entered name]) ∧
    (∀ newer older n, w.told seat = newer ++ n :: older → n.isStarted = false →
      ∃ between id name before, older = between ++ .started id name :: before ∧ (∀ m ∈ between, m.IsWithin) ∧
        ∀ s, n = .completed s → s = some id) ∧
    (∀ id, r.session = some id ↔ ∃ between name before,
      w.told seat = between ++ .started id name :: before ∧ ∀ m ∈ between, m.IsWithin) ∧
    ∀ op id, fault? (Play.perform (Host.ofBehaviour b patience depth) op w) ≠ some .exhausted → r.session = some id →
      ∃ r' newer, (after (Play.perform (Host.ofBehaviour b patience depth) op) w).at? seat = some r' ∧
        (after (Play.perform (Host.ofBehaviour b patience depth) op) w).told seat = newer ++ w.told seat ∧
        (r'.session = some id ∧ (∀ n ∈ newer, n.IsWithin) ∨
          r'.session = none ∧ (∃ rest, newer = .completed (some id) :: rest ∧ ∀ n ∈ rest, n.IsWithin) ∨
          seat = w.seat ∧ ∃ name index id' node newer',
            op = .start name index true ∧ newer = newer' ++ [.entered node, .started id' node]) := by
  have hh := hb.host patience depth
  have ht := b.vouches_true.tends patience depth
  have hbracketed := (h.accounted hh ht).accounts seat r hr
  refine ⟨fun _ _ _ _ htold => hbracketed.entered htold, fun _ _ _ htold hn => hbracketed.inside htold hn, fun id => ?_,
    fun op id hends hid => h.open_session hh ht hends hr hid⟩
  constructor
  · exact hbracketed.latest
  · rintro ⟨between, name, before, htold, hbetween⟩
    exact hbracketed.open_of_latest htold hbetween

/-- A host whose handlers publish on the bus that they are called from, and then fail. -/
def Behaviour.echoing : Behaviour σ μ where
  read _ := .fail .exhausted
  write _ _ := .fail .exhausted
  call _ _ := .fail .exhausted
  callRaw _ _ := .fail .exhausted
  handle seat _ n := if n.isStarted then .ask seat (.publish n.kind []) fun _ => .fail .exhausted else .fail .exhausted
  owns _ _ := false

theorem Behaviour.echoing_discreet : (Behaviour.echoing : Behaviour σ μ).Discreet := by
  refine ⟨fun _ => trivial, fun _ _ => trivial, fun _ _ => trivial, fun _ _ => trivial, fun seat h n => ?_⟩
  unfold Behaviour.echoing
  dsimp only
  split
  · exact ⟨rfl, fun _ => trivial⟩
  · trivial

/-- Two sessions, the second of which has replaced the first, and what ends the second. -/
theorem Unspent.sessions_bracketed_replaced :
    ∃ (host : Host Unit Unit) (w : World Unit Unit), w.runner.session = some 2 ∧
      (w.told 0).map Notice.kind = [.contentDisplayed, .nodeEntered, .dialogueStarted, .contentDisplayed, .nodeEntered,
        .dialogueStarted] ∧
      (∃ between name before, w.told 0 = between ++ .started 2 name :: before ∧ ∀ m ∈ between, m.IsWithin) ∧
      ∃ r' newer, (after (Play.perform host .resume) w).at? 0 = some r' ∧
        (after (Play.perform host .resume) w).told 0 = newer ++ w.told 0 ∧
        r'.session = none ∧ ∃ rest, newer = .completed (some 2) :: rest ∧ ∀ n ∈ rest, n.IsWithin := by
  let host : Host Unit Unit := Host.ofBehaviour Behaviour.echoing 3 2
  let w : World Unit Unit := World.calls { host := () } host [.register ":: start\nA: hello\n",
    .subscribe .dialogueStarted ⟨0, 0, false, false⟩, .start none 0 false, .start none 0 false, .start none 0 true]
  have hw : Unspent host w :=
    .called _ (by decide +kernel) <| .called _ (by decide +kernel) <| .called _ (by decide +kernel) <|
      .called _ (by decide +kernel) <| .called _ (by decide +kernel) <| .opened (.alone {} ())
  have hfront : w.seat = 0 ∧ w.runner.session = some 2 ∧ fault? (Play.perform host .resume w) ≠ some .exhausted ∧
      ((after (Play.perform host .resume) w).at? 0).map Runner.session = some none := by decide +kernel
  have hat : w.at? 0 = some w.runner := by rw [← hfront.1, World.at?_seat]
  obtain ⟨-, -, hopen, hcall⟩ := hw.sessions_bracketed Behaviour.echoing_discreet hat
  obtain ⟨r', newer, hr', hnewer, hresumed⟩ := hcall .resume 2 hfront.2.2.1 hfront.2.1
  rcases hresumed with ⟨hid, -⟩ | hdone | ⟨-, _, _, _, _, _, hop, -⟩
  · have hover := hfront.2.2.2
    rw [hr', Option.map_some, hid] at hover
    cases hover
  · exact ⟨host, w, hfront.2.1, by decide +kernel, (hopen 2).1 hfront.2.1, r', newer, hr', hnewer, hdone⟩
  · cases hop

end Parley
