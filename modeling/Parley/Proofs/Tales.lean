import Parley.Proofs.Parallel
import Parley.Proofs.StepOrder
import Parley.Proofs.Telling

/-! # What a stack has still to tell

The telling of a condition is that of the items which stepping chooses for it, and the telling of a run of choices that
of its live choices, as stepping collects them. So every stack has a tale, which is made of those of its frames
(`taleOf`). -/

namespace Parley
variable {σ μ : Type} (host : Host σ μ) (node : String) (goto : Node → Tale σ μ)

/-- `content` has the items of the branches by their positions, from `i` on. -/
theorem tellElifs_eq {i : Nat} {elifs : List Branch} (content : Nat → List Content)
    (hcontent : ∀ (j : Nat) (b : Branch), elifs[j]? = some b → content (i + j) = b.content)
    (otherwise after : Tale σ μ) (c : Course) : tellElifs host node goto elifs otherwise after c = (do
      match ← Play.selectElif host i elifs with
      | some j => tellAll host node goto false (content j) after c
      | none => otherwise c) := by
  induction elifs generalizing i with
  | nil => rfl
  | cons branch rest ih =>
    have hbranch : content i = branch.content := hcontent 0 branch rfl
    have hrest (j : Nat) (b : Branch) (hb : rest[j]? = some b) : content (i + 1 + j) = b.content := by
      rw [Nat.add_right_comm, Nat.add_assoc]; exact hcontent (j + 1) b hb
    obtain ⟨test, items, pos⟩ := branch
    unfold Play.selectElif
    rw [bind_assoc]
    refine bind_congr fun isTrue => ?_
    cases isTrue with
    | true =>
      rw [if_pos rfl, if_pos rfl, pure_bind]
      exact congrArg (tellAll host node goto false · after c) hbranch.symm
    | false => rw [if_neg (by simp), if_neg (by simp), ih hrest]

/-- A condition is told by the items of its branch. -/
theorem tell_condition (cond : Condition) (after : Tale σ μ) :
    (Content.condition cond).tell host node goto after = Tale.step node (fun c => do
      let b ← Play.selectBranch host cond
      tellAll host node goto false ((cond.contentIn b).getD []) after c) := by
  obtain ⟨test, thenBranch, elifs, elseBranch, key, pos⟩ := cond
  rw [Content.tell.eq_def]
  have hbranch (j : Nat) (b : Branch) (hb : elifs[j]? = some b) :
      ((elifs[0 + j]?.map Branch.content).getD []) = b.content := by rw [Nat.zero_add, hb]; rfl
  refine congrArg (Tale.step node) (funext fun c => ?_)
  unfold Tale.test Play.selectBranch
  rw [bind_assoc]
  refine bind_congr fun isTrue => ?_
  cases isTrue with
  | true => rfl
  | false =>
    rw [if_neg (by simp), if_neg (by simp),
      tellElifs_eq host node goto (fun j => (elifs[j]?.map Branch.content).getD []) hbranch, bind_assoc]
    refine bind_congr fun i => ?_
    cases i with
    | some j => rfl
    | none => cases elseBranch <;> rfl

theorem tellRun_eq (items : List Content) (after : Tale σ μ) :
    tellRun host node goto items after = (choiceRun items).map fun c => (c, (Content.choice c).tell host node goto after) := by
  induction items with
  | nil => rfl
  | cons item rest ih =>
    cases item with
    | choice c => exact congrArg (_ :: ·) ih
    | line | command | condition => rfl

/-- Inside a run of choices the rest of it is passed over. -/
theorem tellAll_inRun (items : List Content) (k : Tale σ μ) :
    tellAll host node goto true items k = tellAll host node goto false (items.drop (choiceRun items).length) k := by
  induction items with
  | nil => rfl
  | cons item rest ih =>
    cases item with
    | choice c => exact ih
    | line | command | condition => rfl

theorem liveAmong_eq (items : List Content) (k : Choice → Tale σ μ) :
    Tale.liveAmong host ((choiceRun items).map fun c => (c, k c)) = (do
      let (live, _) ← Play.collectChoices host items
      return live.map fun c => (c, k c)) := by
  induction items with
  | nil => rfl
  | cons item rest ih =>
    cases item with
    | choice c =>
      have hrest (isLive : Bool) : (do
            let live ← Tale.liveAmong host ((choiceRun rest).map fun c => (c, k c))
            return if isLive then (c, k c) :: live else live) = (do
            let (live, _) ← (do
              let (live, count) ← Play.collectChoices host rest
              return (if isLive then c :: live else live, count + 1))
            return live.map fun c => (c, k c)) := by
        rw [ih]
        simp only [bind_assoc, pure_bind]
        refine bind_congr fun collected => ?_
        cases isLive <;> rfl
      unfold Play.collectChoices
      cases hc : c.guard with
      | none =>
        show Tale.liveAmong host ((c, k c) :: (choiceRun rest).map fun c => (c, k c)) = _
        unfold Tale.liveAmong
        rw [hc]
        exact hrest true
      | some e =>
        show Tale.liveAmong host ((c, k c) :: (choiceRun rest).map fun c => (c, k c)) = _
        unfold Tale.liveAmong
        rw [hc, bind_assoc]
        exact bind_congr hrest
    | line | command | condition => rfl

theorem tell_choice (c : Choice) (after : Tale σ μ) : (Content.choice c).tell host node goto after =
    if c.content.isEmpty then after else Tale.step node (tellAll host node goto false c.content after) := by
  cases c
  rw [Content.tell.eq_def]

/-- A menu of the live choices that items begin with, as stepping collects them. -/
def Tale.offerRun (items : List Content) (after : Tale σ μ) : Tale σ μ := fun c => do
  let (live, _) ← Play.collectChoices host items
  if live.isEmpty then after c
  else
    let texts ← Play.renderAll host live
    let _ ← Play.publish host (.menuOpened live texts)
    Tale.pick host (live.map fun choice => (choice, (Content.choice choice).tell host node goto after)) c

/-- A run of choices is told by its live ones, and goes on behind the run. -/
theorem tellAll_run (first : Choice) (rest : List Content) (k : Tale σ μ) :
    tellAll host node goto false (.choice first :: rest) k = Tale.offerRun host node goto (.choice first :: rest)
      (Tale.step node (tellAll host node goto false
        ((Content.choice first :: rest).drop (choiceRun (.choice first :: rest)).length) k)) := by
  funext c
  show Tale.offer host ((first, _) :: tellRun host node goto rest _) _ c = _
  rw [tellRun_eq, tellAll_inRun]
  show Tale.offer host ((choiceRun (.choice first :: rest)).map fun choice => (choice, _)) _ c = _
  unfold Tale.offer Tale.offerRun
  rw [liveAmong_eq, bind_assoc]
  refine bind_congr fun collected => ?_
  simp only [pure_bind, List.isEmpty_map, List.map_map, Function.comp_def, List.map_id']
  rfl

theorem Tale.pick_map (live : List Choice) (k : Choice → Tale σ μ) (calls : Nat) (i : Int)
    (picks : List Int) (fuel steps : Nat) :
    Tale.pick host (live.map fun choice => (choice, k choice)) ⟨calls + 1, i :: picks, fuel, steps⟩ =
      (match if i < 0 then none else live[i.toNat]? with
      | none => Play.refuse (.choiceRange i live.length)
      | some choice => do
        let _ ← Play.publish host (.selected choice i.toNat)
        Tale.fresh host (k choice) ⟨calls, picks, fuel, steps⟩) := by
  unfold Tale.pick
  dsimp only
  rw [List.getElem?_map, List.length_map]
  by_cases hi : i < 0
  · rw [if_pos hi, if_pos hi]
  · rw [if_neg hi, if_neg hi]
    cases live[i.toNat]? <;> rfl

/-- What a frame has still to tell; a condition for which no branch has been chosen yet chooses it first. -/
def Frame.tale (m : Memo) (f : Frame) (k : Tale σ μ) : Tale σ μ :=
  match f.container with
  | .node n => tellAll host node goto false (n.content.drop f.index) k
  | .choice c => tellAll host node goto false (c.content.drop f.index) k
  | .condition cond =>
    match m.lookup cond.key with
    | some b => tellAll host node goto false (((cond.contentIn b).getD []).drop f.index) k
    | none => fun c => do
      let b ← Play.selectBranch host cond
      tellAll host node goto false (((cond.contentIn b).getD []).drop f.index) k c

/-- What a stack has still to tell, and then `last`. -/
def taleOf (last : Tale σ μ) (m : Memo) : List Frame → Tale σ μ
  | [] => last
  | f :: below => f.tale host node goto m (if below.isEmpty then last else Tale.step node (taleOf last m below))

section
variable {m m' : Memo} {f : Frame} {below : List Frame} {last k : Tale σ μ}

theorem Frame.tale_of_items {items : List Content} (h : f.items m = some items) :
    f.tale host node goto m k = tellAll host node goto false (items.drop f.index) k := by
  obtain ⟨container, i⟩ := f
  cases container with
  | node | choice => cases h; rfl
  | condition cond =>
    obtain ⟨b, hb, hitems⟩ := Option.bind_eq_some_iff.1 h
    unfold tale
    dsimp only
    rw [hb]
    show tellAll host node goto false (((cond.contentIn b).getD []).drop i) k = _
    rw [hitems]
    rfl

theorem Frame.tale_congr (h : ∀ key, f.key? = some key → m'.lookup key = m.lookup key) :
    f.tale host node goto m' k = f.tale host node goto m k := by
  obtain ⟨container, i⟩ := f
  cases container with
  | node | choice => rfl
  | condition cond =>
    unfold tale
    dsimp only
    rw [h cond.key rfl]

theorem taleOf_congr {stack : List Frame} (h : ∀ key ∈ stackKeys stack, m'.lookup key = m.lookup key) :
    taleOf host node goto last m' stack = taleOf host node goto last m stack := by
  induction stack with
  | nil => rfl
  | cons f below ih =>
    rw [stackKeys_cons] at h
    unfold taleOf
    rw [ih fun key hk => h key (List.mem_append_right _ hk), Frame.tale_congr host node goto fun key hk => h key (by simp [hk])]

/-- A condition that is entered has to choose its branch. -/
theorem tell_entered {cond : Condition} (h : m.lookup cond.key = none) :
    (Content.condition cond).tell host node goto k =
      Tale.step node ((⟨.condition cond, 0⟩ : Frame).tale host node goto m k) := by
  rw [tell_condition]
  unfold Frame.tale
  dsimp only
  rw [h]
  rfl

end
end Parley
