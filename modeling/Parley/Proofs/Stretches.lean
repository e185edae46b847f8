import Mathlib.Logic.Relation
import Parley.Proofs.Moves
import Parley.Proofs.Whereabouts

/-! # Stretches

At any moment, also in the middle of a step, the next thing that happens either moves no runner or shifts the one in
front (`Act`): it makes a `Move`, a branch is chosen for the condition that it stands in, or it takes over a walk
ahead, with the branches chosen on the way. Calls within calls run host code at different depths, so `hosts` has the
host of each depth. From `Shift.kept`, `Shift.born` and `Shift.left` follows what a `Stretch` of such acts does to the
branches on record; a `Visit` of a condition is a stretch on which the runner is in it all the time. -/

namespace Parley
variable {σ μ : Type}

namespace Play
variable {host : Host σ μ}

/-- With all runners where they are, evaluating the guards of a condition with this key has led to the branch. -/
def Chosen (host : Host σ μ) (w : World σ μ) (k : ConditionKey) (b : Branching) : Prop :=
  ∃ c u v, c.key = k ∧ w.SamePlaces u ∧ selectBranch host c u = .ok b v

theorem Chosen.of_samePlaces {w v : World σ μ} {k : ConditionKey} {b : Branching} (hv : w.SamePlaces v)
    (h : Chosen host v k b) : Chosen host w k b := by
  obtain ⟨c, u, u', hk, hu, h⟩ := h
  exact ⟨c, u, u', hk, hv.trans hu, h⟩

/-- What a memo that has grown out of another one knows besides has been chosen on the way. -/
structure Grown (host : Host σ μ) (w : World σ μ) (m m' : Memo) : Prop where
  kept : ∀ k b, m.lookup k = some b → m'.lookup k = some b
  born : ∀ k b, m.lookup k = none → m'.lookup k = some b → Chosen host w k b

namespace Grown
variable {w v : World σ μ} {m m' m'' : Memo}

theorem refl (host : Host σ μ) (w : World σ μ) (m : Memo) : Grown host w m m :=
  ⟨fun _ _ h => h, fun k b hnone h => by rw [hnone] at h; cases h⟩

theorem trans (h : Grown host w m m') (hv : w.SamePlaces v) (h' : Grown host v m' m'') : Grown host w m m'' := by
  refine ⟨fun k b hb => h'.kept k b (h.kept k b hb), fun k b hnone hb => ?_⟩
  cases hk : m'.lookup k with
  | none => exact .of_samePlaces hv (h'.born k b hk hb)
  | some b' =>
    have heq := h'.kept k b' hk
    rw [hb, Option.some.injEq] at heq
    exact heq ▸ h.born k b' hnone hk

theorem record {c : Condition} {b : Branching} (hnone : m.lookup c.key = none)
    (h : selectBranch host c w = .ok b v) : Grown host w m (m.record c.key b) := by
  refine ⟨fun k b' hk => ?_, fun k b' hk hb' => ?_⟩
  · rw [Memo.lookup_record, if_neg (by rintro rfl; rw [hnone] at hk; cases hk)]
    exact hk
  · rw [Memo.lookup_record] at hb'
    split at hb'
    · next heq =>
      cases hb'
      exact ⟨c, w, v, heq.symm, .refl w, h⟩
    · rw [hk] at hb'; cases hb'

end Grown

theorem frameItemsIn_grown {memo memo' : Memo} {f : Frame} {items : Option (List Content)} {w v : World σ μ}
    (h : frameItemsIn host memo f w = .ok (items, memo') v) : Grown host w memo memo' := by
  cases hc : f.container with
  | node | choice => simp only [frameItemsIn, hc] at h; cases h; exact .refl ..
  | condition c =>
    cases hb : memo.lookup c.key with
    | some b => simp only [frameItemsIn, hc, hb] at h; cases h; exact .refl ..
    | none =>
      simp only [frameItemsIn, hc, hb] at h
      obtain ⟨b, u, hselect, h⟩ := bind_ok h
      cases h
      exact .record hb hselect

/-- A walk ahead keeps the branches that it sets out with. -/
theorem scanFrom_grown (hm : host.Modest) {fuel steps : Nat} {stack : List Frame} {memo : Memo} {a : Lookahead}
    {w v : World σ μ} (h : scanFrom host fuel steps stack memo w = .ok a v) : Grown host w memo a.memo := by
  induction fuel generalizing steps stack memo w with
  | zero => cases h
  | succ fuel ih =>
    cases stack with
    | nil => cases h; exact .refl ..
    | cons f below =>
      obtain ⟨limit, u, hlimit, h⟩ := bind_ok h
      cases hlimit
      dsimp only at h
      split at h
      · exact absurd h failLimit_ne_ok
      · obtain ⟨⟨items, memo'⟩, u, hitems, h⟩ := bind_ok h
        have hgrown := frameItemsIn_grown hitems
        have hu := (staying_frameItemsIn hm memo f).ok hitems
        dsimp only at h
        cases hitem : items.bind fun items => items[f.index]? with
        | none =>
          rw [hitem] at h
          dsimp only at h
          split at h
          · cases h; exact hgrown
          · exact hgrown.trans hu (ih h)
        | some item =>
          rw [hitem] at h
          cases item with
          | condition c => exact hgrown.trans hu (ih h)
          | choice c =>
            obtain ⟨collected, u', hcollected, h⟩ := bind_ok h
            have hu' := hu.trans ((staying_collectChoices hm _).ok hcollected)
            split at h
            · exact hgrown.trans hu' (ih h)
            · cases h; exact hgrown
          | command | line => cases h; exact hgrown

end Play

namespace World

/-- Where the runner of a seat is, if there is one. -/
def place? (w : World σ μ) (s : Nat) : Option Place := (w.at? s).map Runner.place

/-- The frames of the runner of a seat. -/
def frames (w : World σ μ) (s : Nat) : List Frame := (w.place? s).elim [] Place.stack

/-- The branch that the runner of a seat has on record. -/
def branch? (w : World σ μ) (s : Nat) (k : ConditionKey) : Option Branching :=
  (w.place? s).bind fun p => p.memo.lookup k

theorem place?_seat (w : World σ μ) : w.place? w.seat = some w.runner.place := by rw [place?, at?_seat]; rfl

theorem branch?_seat (w : World σ μ) (k : ConditionKey) : w.branch? w.seat k = w.runner.memo.lookup k := by
  rw [branch?, place?_seat]
  rfl

theorem place?_withRunner (w : World σ μ) (r : Runner) (s : Nat) :
    (w.withRunner r).place? s = if s = w.seat then some r.place else w.place? s := by
  unfold place?
  rw [at?_withRunner]
  split <;> rfl

/-- All nodes are parsed, and every runner is inside one or without a session, also in the middle of its step. -/
structure Sound (w : World σ μ) : Prop where
  parsed : ∀ name n, w.nodes.get? name = some n → n.Parsed
  settled : ∀ s p, w.place? s = some p → p.Settled

namespace Sound
variable {w : World σ μ} (h : w.Sound)
include h

theorem front : w.runner.place.Settled := h.settled w.seat _ w.place?_seat

theorem inOrder : w.InOrder fun _ => True :=
  ⟨h.parsed, fun s r hr hrest => (h.settled s r.place (by rw [place?, hr]; rfl)).stands hrest.1, fun _ _ => trivial⟩

theorem recorded {s : Nat} {k : ConditionKey} (hk : (w.branch? s k).isSome) : k ∈ stackKeys (w.frames s) := by
  unfold branch? frames at *
  cases hp : w.place? s with
  | none => rw [hp] at hk; cases hk
  | some p => rw [hp] at hk; exact (h.settled s p hp).recorded hk

theorem unrecorded {s : Nat} {k : ConditionKey} (hk : k ∉ stackKeys (w.frames s)) : w.branch? s k = none :=
  Option.isNone_iff_eq_none.1 (by simpa using fun hsome => hk (h.recorded hsome))

end Sound
end World

/-- What a walk ahead comes to, where menus are opened at once. -/
def World.Foresees (hosts : Nat → Host σ μ) (w : World σ μ) (a : Lookahead) : Prop :=
  w.runnerConfig.autoChoices ∧ ∃ depth v, Play.scan (hosts depth) w = .ok a v

/-- What can become of the place of the runner in front. -/
inductive Shift (hosts : Nat → Host σ μ) (w : World σ μ) : Place → Prop
  | moved {q : Place} (h : Move w.runner.place q) : Shift hosts w q
  /-- Its guards have been evaluated for the condition in front. -/
  | decided {depth i : Nat} {c : Condition} {below : List Frame} {b : Branching} {v : World σ μ}
      (hstack : w.runner.stack = ⟨.condition c, i⟩ :: below) (hmenu : w.runner.menu = [])
      (hnone : w.runner.memo.lookup c.key = none) (h : Play.selectBranch (hosts depth) c w = .ok b v) :
      Shift hosts w { w.runner.place with memo := w.runner.memo.record c.key b }
  /-- A menu that comes next is opened at once. -/
  | adopted {a : Lookahead} (hlive : w.runner.session.isSome) (hmenu : w.runner.menu = []) (h : w.Foresees hosts a) :
      Shift hosts w (w.runner.adopt a).place

namespace Shift
variable {hosts : Nat → Host σ μ} {w : World σ μ} {q : Place} {k : ConditionKey} {b : Branching}

theorem settled (h : Shift hosts w q) (hw : w.runner.place.Settled) : q.Settled := by
  cases h with
  | moved h => exact h.settled hw
  | decided hstack hmenu hnone _ =>
    obtain ⟨n, hn⟩ := hw.walks hstack hmenu
    refine .inr ⟨(hw.of_stack hstack).1, Place.stands_of_menu (n := n) ?_ hmenu⟩
    show Placed n w.runner.stack _
    rw [hstack]
    exact hn.placed'.record rfl hnone _
  | adopted hlive hmenu h =>
    obtain ⟨-, depth, v, h⟩ := h
    obtain ⟨n, hn, -⟩ := hw.stands hlive
    have hplaced := ((Play.scanFrom_leads hn.nodup hn.stacked h).adopt hn.nodup w.runner).1
    exact .inr ⟨hlive, Place.stands_of_menu hplaced hmenu⟩

theorem kept (hm : ∀ depth, (hosts depth).Modest) (h : Shift hosts w q) (hw : w.runner.place.Settled)
    (hb : w.runner.memo.lookup k = some b) (hk : k ∈ stackKeys q.stack) : q.memo.lookup k = some b := by
  cases h with
  | moved h => exact h.kept hw hb hk
  | decided _ _ hnone h => exact (Play.Grown.record hnone h).kept k b hb
  | @adopted a _ _ h =>
    obtain ⟨-, depth, v, h⟩ := h
    have hk : k ∈ stackKeys a.stack := by rwa [← w.runner.stackKeys_adopt]
    show (w.runner.adopt a).memo.lookup k = some b
    rw [Runner.lookup_adopt, if_pos hk]
    exact (Play.scanFrom_grown (hm depth) h).kept k b hb

/-- A branch comes onto the record when the guards of its condition are evaluated: for the condition in front, or, where
menus are opened at once, on a walk ahead. -/
theorem born (hm : ∀ depth, (hosts depth).Modest) (h : Shift hosts w q) (hnone : w.runner.memo.lookup k = none)
    (hb : q.memo.lookup k = some b) :
    (∃ depth, Play.Chosen (hosts depth) w k b) ∧
      ((∃ f below, w.runner.stack = f :: below ∧ f.key? = some k) ∨
        ∃ a, w.Foresees hosts a ∧ a.memo.lookup k = some b) := by
  cases h with
  | moved h => rw [h.unborn hnone] at hb; cases hb
  | @decided depth _ c _ _ _ hstack _ hnone' h =>
    have hchosen := (Play.Grown.record hnone' h).born k b hnone hb
    refine ⟨⟨depth, hchosen⟩, .inl ⟨_, _, hstack, ?_⟩⟩
    change (w.runner.memo.record c.key _).lookup k = some b at hb
    rw [Memo.lookup_record] at hb
    split at hb
    · next heq => exact congrArg some heq.symm
    · rw [hnone] at hb; cases hb
  | @adopted a _ _ h =>
    change (w.runner.adopt a).memo.lookup k = some b at hb
    rw [Runner.lookup_adopt] at hb
    split at hb
    · obtain ⟨depth, v, hscan⟩ := h.2
      exact ⟨⟨depth, (Play.scanFrom_grown (hm depth) hscan).born k b hnone hb⟩, .inr ⟨a, h, hb⟩⟩
    · cases hb

theorem left (h : Shift hosts w q) (hk : k ∈ stackKeys w.runner.stack) (hq : k ∉ stackKeys q.stack) :
    (∃ f, w.runner.stack = f :: q.stack ∧ f.key? = some k) ∨ q.stack = [] ∨ (∃ n i, q.stack = [⟨.node n, i⟩]) ∨
      ∃ a, w.Foresees hosts a ∧ q.stack = (w.runner.adopt a).stack := by
  cases h with
  | moved h => exact (h.left hk hq).imp_right fun h => h.imp_right .inl
  | decided => exact absurd hk hq
  | adopted _ _ hwalk => exact .inr (.inr (.inr ⟨_, hwalk, rfl⟩))

end Shift

/-- What can happen next. Whatever else it changes in the world, it leaves parsed nodes only. -/
structure Act (hosts : Nat → Host σ μ) (w v : World σ μ) : Prop where
  parsed : ∀ name n, v.nodes.get? name = some n → n.Parsed
  places : (∀ s, v.place? s = w.place? s) ∨
    ∃ q, Shift hosts w q ∧ ∀ s, v.place? s = if s = w.seat then some q else w.place? s

namespace Act
variable {hosts : Nat → Host σ μ} {w v : World σ μ} {s : Nat} {k : ConditionKey} {b : Branching}

/-- The act, seen from a seat. -/
theorem place (h : Act hosts w v) (s : Nat) :
    v.place? s = w.place? s ∨ s = w.seat ∧ ∃ q, Shift hosts w q ∧ v.place? s = some q := by
  rcases h.places with h | ⟨q, hq, h⟩
  · exact .inl (h s)
  · by_cases hs : s = w.seat
    · exact .inr ⟨hs, q, hq, by rw [h, if_pos hs]⟩
    · exact .inl (by rw [h, if_neg hs])

theorem sound (h : Act hosts w v) (hw : w.Sound) : v.Sound := by
  refine ⟨h.parsed, fun s p hp => ?_⟩
  rcases h.place s with hsame | ⟨rfl, q, hq, hplace⟩
  · exact hw.settled s p (hsame ▸ hp)
  · rw [hplace] at hp
    cases hp
    exact hq.settled hw.front

theorem kept (hm : ∀ depth, (hosts depth).Modest) (h : Act hosts w v) (hw : w.Sound) (hb : w.branch? s k = some b)
    (hk : k ∈ stackKeys (v.frames s)) : v.branch? s k = some b := by
  unfold World.branch? World.frames at *
  rcases h.place s with hsame | ⟨rfl, q, hq, hplace⟩
  · rw [hsame]; exact hb
  · rw [World.place?_seat] at hb
    rw [hplace] at hk ⊢
    exact hq.kept hm hw.front hb hk

theorem lost (hm : ∀ depth, (hosts depth).Modest) (h : Act hosts w v) (hw : w.Sound) (hb : (w.branch? s k).isSome) :
    v.branch? s k = none ↔ k ∉ stackKeys (v.frames s) := by
  refine ⟨fun hnone hk => ?_, (h.sound hw).unrecorded⟩
  obtain ⟨b, hb⟩ := Option.isSome_iff_exists.1 hb
  rw [h.kept hm hw hb hk] at hnone
  cases hnone

theorem born (hm : ∀ depth, (hosts depth).Modest) (h : Act hosts w v) (hnone : w.branch? s k = none)
    (hb : v.branch? s k = some b) :
    s = w.seat ∧ (∃ depth, Play.Chosen (hosts depth) w k b) ∧
      ((∃ f below, w.runner.stack = f :: below ∧ f.key? = some k) ∨
        ∃ a, w.Foresees hosts a ∧ a.memo.lookup k = some b) := by
  unfold World.branch? at *
  rcases h.place s with hsame | ⟨rfl, q, hq, hplace⟩
  · rw [hsame, hnone] at hb; cases hb
  · rw [World.place?_seat] at hnone
    rw [hplace] at hb
    exact ⟨rfl, hq.born hm hnone hb⟩

theorem left (h : Act hosts w v) (hk : k ∈ stackKeys (w.frames s)) (hv : k ∉ stackKeys (v.frames s)) :
    s = w.seat ∧ ((∃ f, w.frames s = f :: v.frames s ∧ f.key? = some k) ∨ v.frames s = [] ∨
      (∃ n i, v.frames s = [⟨.node n, i⟩]) ∨ ∃ a, w.Foresees hosts a ∧ v.frames s = (w.runner.adopt a).stack) := by
  unfold World.frames at *
  rcases h.place s with hsame | ⟨rfl, q, hq, hplace⟩
  · rw [hsame] at hv; exact absurd hk hv
  · rw [World.place?_seat] at hk ⊢
    rw [hplace] at hv ⊢
    exact ⟨rfl, hq.left hk hv⟩

end Act

/-- What happens from one moment to a later one. -/
abbrev Stretch (hosts : Nat → Host σ μ) : World σ μ → World σ μ → Prop := Relation.ReflTransGen (Act hosts)

/-- A stretch on which the runner of a seat is in a condition with this key all the time. -/
abbrev Visit (hosts : Nat → Host σ μ) (s : Nat) (k : ConditionKey) : World σ μ → World σ μ → Prop :=
  Relation.ReflTransGen fun w v => Act hosts w v ∧ k ∈ stackKeys (v.frames s)

section
variable {hosts : Nat → Host σ μ} {w v : World σ μ} {s : Nat} {k : ConditionKey} {b : Branching}

theorem Stretch.sound (h : Stretch hosts w v) (hw : w.Sound) : v.Sound := by
  induction h with
  | refl => exact hw
  | tail _ hact ih => exact hact.sound ih

theorem Visit.stretch (h : Visit hosts s k w v) : Stretch hosts w v := by
  induction h with
  | refl => exact .refl
  | tail _ hact ih => exact ih.tail hact.1

/-- The branch that has been chosen for a condition is that of the whole visit. -/
theorem Visit.kept (hm : ∀ depth, (hosts depth).Modest) (h : Visit hosts s k w v) (hw : w.Sound)
    (hb : w.branch? s k = some b) : v.branch? s k = some b := by
  induction h with
  | refl => exact hb
  | tail hvisit hact ih => exact hact.1.kept hm (Stretch.sound (Visit.stretch hvisit) hw) ih hact.2

end
end Parley
