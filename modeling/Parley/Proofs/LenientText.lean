import Parley.Proofs.EvenCalls

/-! # Lenient text only matters where strict text fails

Host code that cannot tell strict from lenient texts does the same in two runs as long as its own calls come to the
same; a call of its own that does not is put on record (`Code.candid`). So by induction on how deeply host code is
nested it is as even as `Host.Evenly` asks, and from there all calls are. `Renders` and `Stops` say what lenient text
comes to. -/

namespace Parley

namespace Code
variable {σ μ α : Type}

/-- How strict texts are makes no difference to what the code does. -/
def Even : Code σ μ α → Prop
  | pure _ | fail _ => True
  | look next => (∀ w w' : World σ μ, w.Relaxed w' → next w' = next w) ∧ ∀ w, (next w).Even
  | keep _ next | mark _ next => next.Even
  | ask _ _ next => ∀ a, (next a).Even

/-- The same code, which puts the faults of its calls on record, and nothing else. -/
def candid : Code σ Fault α → Code σ Fault α
  | pure a => pure a
  | fail f => fail f
  | look next => look fun w => (next w).candid
  | keep s next => keep s next.candid
  | mark _ next => next.candid
  | ask seat op next => ask seat op fun
    | .ok a => (next (.ok a)).candid
    | .error f => mark f (next (.error f)).candid

theorem Even.evenly {perform : Operation → Play σ Fault Answer} (hp : ∀ op, Evenly Fault.Unresolved (perform op))
    {c : Code σ Fault α} (hc : c.Even) : Evenly (fun _ => False) (c.candid.run perform) := by
  induction c with
  | pure a => exact .pure a
  | fail f => exact .throw f
  | look next ih =>
    exact .get (fun w w' h => congrArg (fun c => c.candid.run perform) (hc.1 w w' h)) fun w => ih w (hc.2 w)
  | keep s next ih =>
    refine .bind (.modify (fun _ h => h) fun w w' h => ?_) fun _ => ih hc
    obtain ⟨hshared, hfront, hothers⟩ := h
    exact ⟨hshared, hfront, hothers⟩
  | mark m next ih => exact ih hc
  | ask seat op next ih =>
    have hask := (hp op).onSeat seat
    have hanswer (a : Except Fault Answer) := ih a (hc a)
    have hfault (f : Fault) := (Evenly.note (.marked f)).bind fun _ => hanswer (.error f)
    unfold candid
    refine ⟨fun w hw => wp_run_ask.2 ?_, fun w w' h => ?_⟩
    · exact wp_mono (hask.alarmed hw) (fun a _ h => (hanswer (.ok a)).alarmed h) fun f _ h => (hfault f).alarmed h.1
    · have htally := hask.tally h
      unfold run
      dsimp only
      generalize Play.onSeat seat (perform op) w = r at htally
      generalize Play.onSeat seat (perform op) w' = r' at htally
      cases htally with
      | @alarmed a v _ h => exact .of_alarmed (hanswer (.ok a)).alarmed h _
      | @stopped f v _ h =>
        rcases h with h | hf
        · exact .of_alarmed (hfault f).alarmed h _
        · -- The call of the code that stops in the first run only is what raises the alarm.
          have hraised : World.Alarmed (v.noting (.marked f)) := ⟨f, List.mem_cons_self, hf⟩
          exact .of_alarmed (x := (next (.error f)).candid.run perform) (hanswer (.error f)).alarmed hraised _
      | same h =>
        cases h with
        | ok a h => exact (hanswer (.ok a)).tally h
        | error f h => exact (hfault f).tally h

end Code

namespace Behaviour
variable {σ μ : Type}

structure Even (b : Behaviour σ μ) : Prop where
  read : ∀ h, (b.read h).Even
  write : ∀ h v, (b.write h v).Even
  call : ∀ h args, (b.call h args).Even
  callRaw : ∀ h args, (b.callRaw h args).Even
  handle : ∀ seat h n, (b.handle seat h n).Even

def candid (b : Behaviour σ Fault) : Behaviour σ Fault where
  read h := (b.read h).candid
  write h v := (b.write h v).candid
  call h args := (b.call h args).candid
  callRaw h args := (b.callRaw h args).candid
  handle seat h n := (b.handle seat h n).candid
  owns := b.owns

theorem Even.host {b : Behaviour σ Fault} (hb : b.Even) (patience depth : Nat) :
    (Host.ofBehaviour b.candid patience depth).Evenly := by
  induction depth with
  | zero =>
    exact ⟨fun _ => .throw _, fun _ _ => .throw _, fun _ _ => .throw _, fun _ _ => .throw _, fun _ _ _ => .throw _⟩
  | succ depth ih =>
    have hp (op : Operation) := Evenly.perform ih op
    exact ⟨fun h => (hb.read h).evenly hp, fun h v => (hb.write h v).evenly hp,
      fun h args => (hb.call h args).evenly hp, fun h args => (hb.callRaw h args).evenly hp,
      fun seat h n => (hb.handle seat h n).evenly hp⟩

end Behaviour

/-! ### Calls one after the other -/

/-- What calls at given seats answer, faults among it, and the world that they leave. -/
def World.replies {σ μ : Type} (w : World σ μ) (host : Host σ μ) :
    List (Nat × Operation) → List (Except Fault Answer) × World σ μ
  | [] => ([], w)
  | (seat, op) :: rest =>
    match Play.onSeat seat (Play.perform host op) w with
    | .ok a v => (.ok a :: (v.replies host rest).1, (v.replies host rest).2)
    | .error f v => (.error f :: (v.replies host rest).1, (v.replies host rest).2)

section
variable {σ : Type} {host : Host σ Fault} (hh : host.Evenly)
include hh

theorem World.Alarmed.replies {w : World σ Fault} (hw : w.Alarmed) (calls : List (Nat × Operation)) :
    (w.replies host calls).2.Alarmed := by
  induction calls generalizing w with
  | nil => exact hw
  | cons call rest ih =>
    obtain ⟨seat, op⟩ := call
    have hcall := ((Evenly.perform hh op).onSeat seat).alarmed hw
    unfold World.replies
    unfold wp at hcall
    cases hr : Play.onSeat seat (Play.perform host op) w with
    | ok a v => rw [hr] at hcall; exact ih hcall
    | error f v => rw [hr] at hcall; exact ih hcall.1

theorem World.Relaxed.replies {w w' : World σ Fault} (h : w.Relaxed w') (calls : List (Nat × Operation))
    (hresolved : ∀ f, .error f ∈ (w.replies host calls).1 → ¬f.Unresolved)
    (hquiet : ¬(w.replies host calls).2.Alarmed) :
    (w'.replies host calls).1 = (w.replies host calls).1 ∧
      (w.replies host calls).2.Relaxed (w'.replies host calls).2 := by
  induction calls generalizing w w' with
  | nil => exact ⟨rfl, h⟩
  | cons call rest ih =>
    obtain ⟨seat, op⟩ := call
    have htally := ((Evenly.perform hh op).onSeat seat).tally h
    unfold World.replies at hresolved hquiet ⊢
    generalize Play.onSeat seat (Play.perform host op) w = r at htally hresolved hquiet ⊢
    generalize Play.onSeat seat (Play.perform host op) w' = r' at htally ⊢
    cases htally with
    | alarmed ha => exact absurd (ha.replies hh rest) hquiet
    | stopped ha =>
      rcases ha with ha | hf
      · exact absurd (ha.replies hh rest) hquiet
      · exact absurd hf (hresolved _ List.mem_cons_self)
    | same hs =>
      cases hs with
      | ok a h =>
        obtain ⟨hanswers, hworld⟩ := ih h (fun f hf => hresolved f (List.mem_cons_of_mem _ hf)) hquiet
        exact ⟨congrArg (Except.ok a :: ·) hanswers, hworld⟩
      | error f h =>
        obtain ⟨hanswers, hworld⟩ := ih h (fun f hf => hresolved f (List.mem_cons_of_mem _ hf)) hquiet
        exact ⟨congrArg (Except.error f :: ·) hanswers, hworld⟩

end

/-! ### What lenient text comes to -/

section
variable {σ μ : Type} {host : Host σ μ}

/-- What lenient text makes of a segment, in the world before it and the one after it. -/
inductive Softened (host : Host σ μ) : Segment → World σ μ → String → World σ μ → Prop
  | literal {text pos w} : Softened host (.literal text pos) w text w
  | value {e pos w v u} (h : Play.evaluate host e w = .ok v u) : Softened host (.hole e pos) w v.text u
  | asWritten {e pos w f u source} (h : Play.evaluate host e w = .error f u) (hf : f.Unresolved)
      (hsource : e.source? = .ok source) :
      Softened host (.hole e pos) w (inBraces source) (u.noting (.logged (Play.leftAsWritten (inBraces source) f)))

/-- The fault with which a segment ends lenient text. -/
inductive Stops (host : Host σ μ) : Segment → World σ μ → Fault → World σ μ → Prop
  | fault {e pos w f u} (h : Play.evaluate host e w = .error f u) (hf : ¬f.Unresolved) :
      Stops host (.hole e pos) w f u
  /-- Written out, if only it could be. -/
  | unwritable {e pos w g f u} (h : Play.evaluate host e w = .error g u) (hg : g.Unresolved)
      (hsource : e.source? = .error f) : Stops host (.hole e pos) w f u
  | stray {e w} : Stops host (.stray e) w (.lacks e.kind "expression") w

/-- One segment after the other. -/
inductive Renders (host : Host σ μ) : List Segment → World σ μ → List String → World σ μ → Prop
  | nil {w} : Renders host [] w [] w
  | cons {s rest w text v texts u} (h : Softened host s w text v) (hrest : Renders host rest v texts u) :
      Renders host (s :: rest) w (text :: texts) u

theorem Stops.resolved {s : Segment} {w u : World σ μ} {f : Fault} (h : Stops host s w f u) : ¬f.Unresolved := by
  cases h with
  | fault _ hf => exact hf
  | unwritable _ _ hsource =>
    unfold Expr.source? at hsource
    split at hsource <;> cases hsource <;> simp [Fault.Unresolved, Fault.isUnresolvedName]
  | stray => simp [Fault.Unresolved, Fault.isUnresolvedName]

/-- A segment adds its text to that of the segments behind it, or stops with a fault. -/
theorem lenientText_cons (host : Host σ μ) (s : Segment) (w : World σ μ) :
    (∃ text v, Softened host s w text v ∧ ∀ rest, Play.lenientText host (s :: rest) w =
      (do return text ++ (← Play.lenientText host rest) : Play σ μ String) v) ∨
      ∃ f v, Stops host s w f v ∧ ∀ rest, Play.lenientText host (s :: rest) w = .error f v := by
  cases s with
  | literal text pos => exact .inl ⟨text, w, .literal, fun _ => rfl⟩
  | stray e => exact .inr ⟨_, w, .stray, fun _ => rfl⟩
  | hole e pos =>
    have htext := Play.textOrSource_eq e (Play.evaluate host e) w
    cases hr : Play.evaluate host e w with
    | ok v u =>
      rw [hr] at htext
      exact .inl ⟨v.text, u, .value hr, fun _ => run_bind_ok htext⟩
    | error f u =>
      rw [hr] at htext
      dsimp only at htext
      by_cases hf : f.Unresolved
      · rw [if_pos hf] at htext
        cases hsource : e.source? with
        | ok source =>
          rw [hsource] at htext
          exact .inl ⟨inBraces source, _, .asWritten hr hf hsource, fun _ => run_bind_ok htext⟩
        | error g =>
          rw [hsource] at htext
          exact .inr ⟨g, u, .unwritable hr hf hsource, fun _ => run_bind_error htext⟩
      · rw [if_neg hf] at htext
        exact .inr ⟨f, u, .fault hr hf, fun _ => run_bind_error htext⟩

theorem lenientText_cases (host : Host σ μ) (segments : List Segment) (w : World σ μ) :
    (∃ texts u, Renders host segments w texts u ∧ Play.lenientText host segments w = .ok (String.join texts) u) ∨
      ∃ before s rest texts v f u, segments = before ++ s :: rest ∧ Renders host before w texts v ∧
        Stops host s v f u ∧ Play.lenientText host segments w = .error f u := by
  induction segments generalizing w with
  | nil => exact .inl ⟨[], w, .nil, rfl⟩
  | cons s rest ih =>
    rcases lenientText_cons host s w with ⟨text, v, hs, hrun⟩ | ⟨f, v, hs, hrun⟩
    · rcases ih v with ⟨texts, u, hrest, hok⟩ | ⟨before, s', rest', texts, v', f, u, rfl, hbefore, hstops, herror⟩
      · refine .inl ⟨text :: texts, u, .cons hs hrest, ?_⟩
        rw [hrun, run_bind_ok hok, String.join_cons]
        rfl
      · refine .inr ⟨s :: before, s', rest', text :: texts, v', f, u, rfl, .cons hs hbefore, hstops, ?_⟩
        rw [hrun, run_bind_error herror]
    · exact .inr ⟨[], s, rest, [], w, f, v, rfl, .nil, hs, hrun rest⟩

end

/-- If in a run from `w` no call meets a name that nothing defines, neither one of the `calls` nor one that host code
makes, then with any texts lenient all calls answer the same, and leave the same world but for how strict its texts
are. Lenient text itself never fails for such a name: it is the texts of its segments, of which just the holes that meet
one stand as they are written, up to the first other fault. -/
theorem lenient_text_agrees {σ μ : Type} (patience depth : Nat) :
    (∀ {b : Behaviour σ Fault}, b.Even → ∀ {w w' z : World σ Fault}, w.Relaxed w' →
      ∀ {calls : List (Nat × Operation)} {answers : List (Except Fault Answer)},
        w.replies (Host.ofBehaviour b.candid patience depth) calls = (answers, z) →
        (∀ f, .error f ∈ answers → ¬f.Unresolved) → (∀ f, .marked f ∈ z.journal → ¬f.Unresolved) →
        ∃ z', w'.replies (Host.ofBehaviour b.candid patience depth) calls = (answers, z') ∧ z.Relaxed z') ∧
    ∀ (host : Host σ μ) (segments : List Segment) (w : World σ μ),
      (∃ texts u, Renders host segments w texts u ∧
        Play.buildText host false segments w = .ok (String.join texts) u) ∨
      ∃ before s rest texts v f u, segments = before ++ s :: rest ∧ Renders host before w texts v ∧
        Stops host s v f u ∧ Play.buildText host false segments w = .error f u ∧ ¬f.Unresolved := by
  refine ⟨fun {b} hb {w w' z} h {calls answers} hrun hresolved hquiet => ?_, fun host segments w => ?_⟩
  · have hsame := h.replies (hb.host patience depth) calls
    rw [hrun] at hsame
    obtain ⟨hanswers, hz⟩ := hsame hresolved fun ⟨f, hm, hf⟩ => hquiet f hm hf
    exact ⟨(w'.replies (Host.ofBehaviour b.candid patience depth) calls).2, Prod.ext hanswers rfl, hz⟩
  · rcases lenientText_cases host segments w with ⟨texts, u, hall, hok⟩ |
      ⟨before, s, rest, texts, v, f, u, hsplit, hbefore, hstops, herror⟩
    · exact .inl ⟨texts, u, hall, hok⟩
    · exact .inr ⟨before, s, rest, texts, v, f, u, hsplit, hbefore, hstops, herror, hstops.resolved⟩

/-- Earning sets what later texts and guards read. -/
def Behaviour.earning : Behaviour Unit Fault :=
  { Behaviour.silent with
    call := fun _ _ => .ask 0 (.setVariable "gold" (.integer 5)) fun _ => .pure (.string "!") }

theorem Behaviour.even_earning : Behaviour.earning.Even :=
  ⟨fun _ => trivial, fun _ _ => trivial, fun _ _ _ => trivial, fun _ _ => trivial, fun _ _ _ => trivial⟩

/-- A line that calls a function between two looks at a variable, and a menu that depends on it. -/
def earningScript : String :=
  ":: start\nset $gold = 1\nA: \x7b$gold\x7d\x7bearn()\x7d\x7b$gold\x7d\n" ++
  "-> pay \x7b\"all \x7b$gold\x7d\"\x7d [if $gold > 2]\n    A: done\n"

def earningCalls : List (Nat × Operation) :=
  [(0, .register earningScript), (0, .addFunction "earn" (.unchecked 0) "" ""), (0, .start none 0 false),
    (0, .choiceTexts)]

/-- The texts that the last call came to. -/
def lastTexts (answers : List (Except Fault Answer)) : List String :=
  match answers.getLast? with
  | some (.ok (.texts ts)) => ts
  | _ => []

/-- What host code put on record. -/
def Entry.mark? {μ : Type} : Entry μ → Option μ
  | .marked m => some m
  | _ => none

theorem lenient_text_agrees_earning :
    ∃ (w z z' : World Unit Fault) (answers : List (Except Fault Answer)), w.config.strictText = true ∧
      w.replies (Host.ofBehaviour Behaviour.earning.candid 0 2) earningCalls = (answers, z) ∧
      w.lenient.replies (Host.ofBehaviour Behaviour.earning.candid 0 2) earningCalls = (answers, z') ∧ z.Relaxed z' ∧
      lastTexts answers = ["pay all 5"] := by
  let host := Host.ofBehaviour Behaviour.earning.candid 0 2
  let w : World Unit Fault := { config := { strictText := true }, host := () }
  have hanswers : (w.replies host earningCalls).1.all Except.isOk = true := by decide +kernel
  have hmarks : ((w.replies host earningCalls).2.journal.filterMap Entry.mark?).isEmpty = true := by decide +kernel
  have hshown : lastTexts (w.replies host earningCalls).1 = ["pay all 5"] := by decide +kernel
  have hresolved (f : Fault) (hf : .error f ∈ (w.replies host earningCalls).1) : ¬f.Unresolved :=
    absurd (List.all_eq_true.1 hanswers _ hf) nofun
  have hquiet (f : Fault) (hf : .marked f ∈ (w.replies host earningCalls).2.journal) : ¬f.Unresolved :=
    absurd (List.filterMap_eq_nil_iff.1 (List.isEmpty_iff.1 hmarks) _ hf) nofun
  obtain ⟨z', hrun, hz⟩ := (lenient_text_agrees (σ := Unit) (μ := Fault) 0 2).1 Behaviour.even_earning w.relaxed_lenient
    (Prod.eta (w.replies host earningCalls)).symm hresolved hquiet
  exact ⟨w, (w.replies host earningCalls).2, z', (w.replies host earningCalls).1, rfl, (Prod.eta _).symm, hrun, hz,
    hshown⟩

end Parley
