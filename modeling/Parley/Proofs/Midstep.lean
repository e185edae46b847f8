import Parley.Proofs.Calls
import Parley.Proofs.SessionOrder
import Parley.Proofs.Tidiness

/-! # In the middle of a step

`M w₀ w` says what holds in `w`, inside a step that began in `w₀`, whatever host code does meanwhile, and `X w₀ f w`
what holds where the step fails with `f`. `Carries M X A x B`: from where `M` holds, with `A` of the runner in front,
`x` comes to where `M` holds again with `B` of the runner, or fails as `X` says. A `Footing` lists what `M` has to bear
of the engine's own writing, of evaluation, of opening a menu, and of what the engine announces. The engine does most
of this from runners that are `Ready`, which live runners without a menu are: queries keep them so, and wherever host
code may have ended the session, the engine looks at it again before it goes on. Stepping then stays on that
footing. -/

namespace Parley
variable {σ μ : Type}

def Runner.Live (r : Runner) : Prop := r.session.isSome

def Carries {α : Type} (M : World σ μ → World σ μ → Prop) (X : World σ μ → Fault → World σ μ → Prop)
    (A : Runner → Prop) (x : Play σ μ α) (B : α → Runner → Prop) : Prop :=
  ∀ ⦃w₀ w⦄, M w₀ w → A w.runner → wp x (fun a w' => M w₀ w' ∧ B a w'.runner) (X w₀) w

theorem wp_and {α : Type} {x : Play σ μ α} {Q Q' : α → World σ μ → Prop} {E E' : Fault → World σ μ → Prop}
    {w : World σ μ} (h : wp x Q E w) (h' : wp x Q' E' w) :
    wp x (fun a w => Q a w ∧ Q' a w) (fun f w => E f w ∧ E' f w) w := by
  unfold wp at *
  cases hx : x w <;> rw [hx] at h h' <;> exact ⟨h, h'⟩

namespace Carries
variable {α β : Type} {M : World σ μ → World σ μ → Prop} {X : World σ μ → Fault → World σ μ → Prop}
  {A A' : Runner → Prop}
  {B B' : α → Runner → Prop} {C : β → Runner → Prop} {x : Play σ μ α} {f : α → Play σ μ β}

theorem mono (h : Carries M X A x B) (hA : ∀ r, A' r → A r) (hB : ∀ a r, B a r → B' a r) : Carries M X A' x B' :=
  fun _ _ hw hr => wp_mono (h hw (hA _ hr)) (fun a _ h => ⟨h.1, hB a _ h.2⟩) fun _ _ h => h

theorem bind (hx : Carries M X A x B) (hf : ∀ a, Carries M X (B a) (f a) C) : Carries M X A (x >>= f) C := by
  intro w₀ w hw hr
  rw [wp_bind]
  exact wp_mono (hx hw hr) (fun a _ h => hf a h.1 h.2) fun _ _ h => h

theorem pure {a : α} (h : ∀ r, A r → B a r) : Carries M X A (pure a : Play σ μ α) B := fun _ _ hw hr => ⟨hw, h _ hr⟩

theorem throw {e : Fault} (he : ∀ {w₀ w}, M w₀ w → X w₀ e w) : Carries M X A (throw e : Play σ μ α) B :=
  fun _ _ hw _ => he hw

theorem ite {c : Prop} [Decidable c] {y : Play σ μ α} (hx : c → Carries M X A x B) (hy : ¬c → Carries M X A y B) :
    Carries M X A (if c then x else y) B := by
  split
  · exact hx ‹_›
  · exact hy ‹_›

theorem get {g : World σ μ → Play σ μ β} (h : ∀ w, Carries M X A (g w) C) : Carries M X A (get >>= g) C :=
  fun _ w hw hr => h w hw hr

/-- What `A` says apart from the runner may be used throughout. -/
theorem given {φ : Prop} (hA : ∀ r, A r → φ) (h : φ → Carries M X A x B) : Carries M X A x B :=
  fun _ _ hw hr => h (hA _ hr) hw hr

/-- Code that keeps a session live keeps it so in the middle of a step. -/
theorem keeping (hx : Carries M X (fun _ => True) x fun _ _ => True) (hbusy : ∀ {w₀ w}, M w₀ w → w.runner.busy = true)
    (hlive : ∀ ⦃w : World σ μ⦄, w.runner.busy = true → w.runner.session.isSome →
      wp x (fun _ w' => w'.runner.session.isSome) (fun _ _ => True) w) :
    Carries M X Runner.Live x fun _ => Runner.Live := by
  intro w₀ w hw hr
  refine wp_mono (wp_and (hx hw trivial) (hlive (hbusy hw) hr)) (fun _ _ h => ?_) fun _ _ h => h.1
  exact ⟨h.1.1, h.2⟩

/-- Opening a menu, as long as it may be put down and then announced. -/
theorem openMenu {host : Host σ μ} {choices : List Choice}
    (hmenu : ∀ {w₀ w}, M w₀ w → A w.runner → M w₀ (w.withRunner { w.runner with menu := choices }) ∧
      A' { w.runner with menu := choices })
    (hopened : Carries M X A' (do
      let texts ← Play.renderAll host choices
      Play.publish host (.menuOpened choices texts)) fun _ _ => True) :
    Carries M X A (Play.openMenu host choices) fun _ _ => True := by
  have hput : Carries M X A (Play.modifyRunner fun r => { r with menu := choices } : Play σ μ Unit) fun _ => A' :=
    fun _ _ hw hr => hmenu hw hr
  have hall := hput.bind fun _ => hopened.bind fun _ => .pure (B := fun _ _ => True) (a := ()) fun _ h => h
  simp only [bind_assoc] at hall
  exact hall

end Carries

/-- If there are items, their queries have `p`. -/
def Asking (p : Expr → Prop) (items : Option (List Content)) : Prop :=
  ∀ content, items = some content → ∀ e ∈ contentQueries content, p e

namespace Asking
variable {p : Expr → Prop} {items : Option (List Content)}

theorem contentIn {c : Condition} (h : ∀ e ∈ (Content.condition c).queries, p e) (b : Branching) :
    Asking p (c.contentIn b) :=
  fun _ hitems e he => h e (c.queries_contentIn hitems e he)

theorem item (h : Asking p items) {i : Nat} {item : Content}
    (hi : (items.bind fun items => items[i]?) = some item) : ∀ e ∈ item.queries, p e := by
  obtain ⟨content, hcontent, hi⟩ := Option.bind_eq_some_iff.1 hi
  exact fun e he => h content hcontent e (mem_contentQueries.2 ⟨item, List.mem_of_getElem? hi, he⟩)

theorem drop (h : Asking p items) (i : Nat) : ∀ e ∈ contentQueries ((items.getD []).drop i), p e := by
  cases items with
  | none => simp [contentQueries]
  | some content =>
    intro e he
    obtain ⟨c, hc, he⟩ := mem_contentQueries.1 he
    exact h content rfl e (mem_contentQueries.2 ⟨c, List.mem_of_mem_drop hc, he⟩)

end Asking

/-- What `M` has to bear. -/
structure Footing (host : Host σ μ) (p : Expr → Prop) (M : World σ μ → World σ μ → Prop)
    (X : World σ μ → Fault → World σ μ → Prop) (Ready : Runner → Prop) : Prop where
  live : ∀ {r}, Ready r → r.Live
  ready : ∀ {r : Runner}, r.Live → r.menu = [] → Ready r
  congr : ∀ {r r' : Runner}, Ready r → r'.session = r.session → r'.menu = r.menu → Ready r'
  own : ∀ {w₀ w} {f : Fault}, f.isInternal = false → M w₀ w → X w₀ f w
  tidy : ∀ {w₀ w}, M w₀ w → w.runner.Tidy p
  nodes : ∀ {w₀ w}, M w₀ w → ∀ name n, w.nodes.get? name = some n → n.Asks p
  noting : ∀ {w₀ w}, M w₀ w → ∀ e : Entry μ, e.isQuiet → M w₀ (w.noting e)
  /-- The engine's writing to the runner, apart from the beginning and the end of sessions and from opening menus. -/
  withRunner : ∀ {w₀ w}, M w₀ w → ∀ r : Runner, r.Tidy p → r.busy = w.runner.busy → r.session = w.runner.session →
    r.menu = w.runner.menu ∨ r.menu = [] → M w₀ (w.withRunner r)
  /-- Whatever upholds all that there is an upkeep for. -/
  upheld : ∀ {α : Type} {x : Play σ μ α}, (∀ {N I E}, Upkeep host N I E → Upholds I E x) →
    Carries M X (fun _ => True) x fun _ _ => True
  test : ∀ what e, p e → Carries M X Ready (Play.test host what e) fun _ => Ready
  waitDuration : ∀ e line, p e → Carries M X Ready (Play.waitDuration host e line) fun _ => Ready
  entered : ∀ name, Carries M X Ready (Play.publish host (.entered name)) fun _ _ => True
  displayed : ∀ l, Carries M X Ready (Play.display host l) fun _ r => r.Live → Ready r
  opened : ∀ choices, (∀ c ∈ choices, ∀ e ∈ contentQueries c.content, p e) →
    Carries M X Ready (Play.openMenu host choices) fun _ _ => True
  waiting : ∀ duration, Carries M X Ready (Play.publish host (.waiting duration)) fun _ _ => True
  complete : Carries M X Ready (Play.complete host) fun _ _ => True

namespace Footing
variable {host : Host σ μ} {p : Expr → Prop} {M : World σ μ → World σ μ → Prop}
  {X : World σ μ → Fault → World σ μ → Prop} {Ready : Runner → Prop} (hf : Footing host p M X Ready) {A : Runner → Prop}
include hf

theorem runner {α : Type} {g : Runner → Play σ μ α} {C : α → Runner → Prop}
    (h : ∀ r, r.Tidy p → A r → Carries M X (fun r' => A r' ∧ r' = r) (g r) C) :
    Carries M X A (Play.runner >>= g) C :=
  fun _ w hw hr => h w.runner (hf.tidy hw) hr hw ⟨hr, rfl⟩

theorem modifyRunner {g : Runner → Runner} {B : Runner → Prop} (hb : ∀ r, (g r).busy = r.busy)
    (hs : ∀ r, (g r).session = r.session) (hm : ∀ r, (g r).menu = r.menu ∨ (g r).menu = [])
    (h : ∀ r : Runner, r.Tidy p → A r → (g r).Tidy p ∧ B (g r)) :
    Carries M X A (Play.modifyRunner g : Play σ μ Unit) fun _ => B := by
  intro w₀ w hw hr
  obtain ⟨htidy, hB⟩ := h w.runner (hf.tidy hw) hr
  exact ⟨hf.withRunner hw _ htidy (hb _) (hs _) (hm _), hB⟩

/-- Writing that leaves the session and the menu as they are. -/
theorem moveRunner {g : Runner → Runner} (hb : ∀ r, (g r).busy = r.busy) (hs : ∀ r, (g r).session = r.session)
    (hm : ∀ r, (g r).menu = r.menu) (h : ∀ r : Runner, r.Tidy p → Ready r → (g r).Tidy p) :
    Carries M X Ready (Play.modifyRunner g : Play σ μ Unit) fun _ => Ready :=
  hf.modifyRunner hb hs (fun r => .inl (hm r)) fun r htidy hr => ⟨h r htidy hr, hf.congr hr (hs r) (hm r)⟩

theorem log (level : LogLevel) (channel : LogChannel) (message : String) :
    Carries M X A (Play.log level channel message : Play σ μ Unit) fun _ => A :=
  fun _ _ hw hr => ⟨hf.noting hw _ rfl, hr⟩

theorem upheld' {α : Type} {x : Play σ μ α} (hx : ∀ {N I E}, Upkeep host N I E → Upholds I E x) :
    Carries M X A x fun _ _ => True :=
  (hf.upheld hx).mono (fun _ _ => trivial) fun _ _ h => h

/-- A runner is somewhere, or without a session. -/
theorem failLimit {α : Type} {B : α → Runner → Prop} (limit : Nat) :
    Carries M X A (Play.failLimit limit : Play σ μ α) B := by
  intro w₀ w hw _
  obtain ⟨name, hname⟩ := (hf.tidy hw).currentNode
  rw [wp, Play.failLimit_eq hname]
  exact hf.own rfl (hf.noting hw _ rfl)

theorem skip (count : Nat) : Carries M X Ready (Play.modifyRunner fun r => r.skip count : Play σ μ Unit) fun _ => Ready :=
  hf.moveRunner (fun r => r.busy_skip count) (fun r => r.session_skip count) (fun r => r.menu_skip count)
    fun _ htidy _ => htidy.skip count

/-! ### Queries -/

theorem selectElif (i : Nat) {elifs : List Branch} (h : ∀ e ∈ branchQueries elifs, p e) :
    Carries M X Ready (Play.selectElif host i elifs) fun _ => Ready := by
  induction elifs generalizing i with
  | nil => exact .pure fun _ h => h
  | cons branch rest ih =>
    have hb : p branch.test := h _ (mem_branchQueries.2 ⟨branch, List.mem_cons_self, .inl rfl⟩)
    have hrest : ∀ e ∈ branchQueries rest, p e := fun e he => by
      obtain ⟨b, hb, he⟩ := mem_branchQueries.1 he
      exact h e (mem_branchQueries.2 ⟨b, List.mem_cons_of_mem _ hb, he⟩)
    refine (hf.test _ _ hb).bind fun holds => .ite (fun _ => .pure fun _ h => h) fun _ => ih _ hrest

theorem selectBranch {c : Condition} (h : ∀ e ∈ (Content.condition c).queries, p e) :
    Carries M X Ready (Play.selectBranch host c) fun _ => Ready := by
  have htest : p c.test := h _ (mem_queries_condition.2 (.inl rfl))
  have helifs : ∀ e ∈ branchQueries c.elifs, p e := fun e he => h e (mem_queries_condition.2 (.inr (.inr (.inl he))))
  refine (hf.test _ _ htest).bind fun holds => .ite (fun _ => .pure fun _ h => h) fun _ => ?_
  refine (hf.selectElif 0 helifs).bind fun i => ?_
  split <;> exact .pure fun _ h => h

theorem frameItems {f : Frame} (h : ∀ e ∈ f.container.queries, p e) :
    Carries M X Ready (Play.frameItems host f) fun items r => Ready r ∧ Asking p items := by
  unfold Play.frameItems
  split
  · next n hc => rw [hc] at h; exact .pure fun r hr => ⟨hr, fun _ hitems => by cases hitems; exact h⟩
  · next c hc => rw [hc] at h; exact .pure fun r hr => ⟨hr, fun _ hitems => by cases hitems; exact h⟩
  · next c hc =>
    rw [hc] at h
    refine hf.runner fun r _ _ => ?_
    split
    · exact .pure fun r hr => ⟨hr.1, Asking.contentIn h _⟩
    · refine ((hf.selectBranch h).mono (fun _ h => h.1) fun _ _ h => h).bind fun b => ?_
      -- the session is live, so the memo may be written to
      have hrecord : Carries M X Ready
          (Play.modifyRunner fun r => { r with memo := r.memo.record c.key b } : Play σ μ Unit) fun _ => Ready :=
        hf.moveRunner (fun _ => rfl) (fun _ => rfl) (fun _ => rfl) fun r htidy hr =>
          have hlive := hf.live hr
          .of_live hlive (htidy.rooted hlive) htidy.menu
      exact hrecord.bind fun _ => .pure fun r hr => ⟨hr, Asking.contentIn h _⟩

theorem frameItemsIn (memo : Memo) {f : Frame} (h : ∀ e ∈ f.container.queries, p e) :
    Carries M X Ready (Play.frameItemsIn host memo f) fun found r => Ready r ∧ Asking p found.1 := by
  unfold Play.frameItemsIn
  split
  · next n hc => rw [hc] at h; exact .pure fun r hr => ⟨hr, fun _ hitems => by cases hitems; exact h⟩
  · next c hc => rw [hc] at h; exact .pure fun r hr => ⟨hr, fun _ hitems => by cases hitems; exact h⟩
  · next c hc =>
    rw [hc] at h
    split
    · exact .pure fun r hr => ⟨hr, Asking.contentIn h _⟩
    · exact (hf.selectBranch h).bind fun b => .pure fun r hr => ⟨hr, Asking.contentIn h _⟩

theorem collectChoices {items : List Content} (h : ∀ e ∈ contentQueries items, p e) :
    Carries M X Ready (Play.collectChoices host items) fun found r =>
      Ready r ∧ ∀ c ∈ found.1, ∀ e ∈ contentQueries c.content, p e := by
  induction items with
  | nil => exact .pure fun r hr => ⟨hr, by simp⟩
  | cons item rest ih =>
    obtain ⟨hitem, hrest⟩ : (∀ e ∈ item.queries, p e) ∧ ∀ e ∈ contentQueries rest, p e := by
      simpa [contentQueries, or_imp, forall_and] using h
    cases item with
    | choice c =>
      have hmore (isLive : Bool) : Carries M X Ready (do
          let later ← Play.collectChoices host rest
          return (if isLive then c :: later.1 else later.1, later.2 + 1)) fun found r =>
          Ready r ∧ ∀ c ∈ found.1, ∀ e ∈ contentQueries c.content, p e := by
        refine (ih hrest).bind fun later => .pure fun r hr => ⟨hr.1, ?_⟩
        split
        · exact List.forall_mem_cons.2 ⟨fun e he => hitem e (mem_queries_choice.2 (.inr he)), hr.2⟩
        · exact hr.2
      unfold Play.collectChoices
      split
      · exact (Carries.pure (a := true) fun r hr => hr).bind hmore
      · next e he => exact (hf.test _ _ (hitem e (mem_queries_choice.2 (.inl he)))).bind hmore
    | line | condition | command => exact .pure fun r hr => ⟨hr, by simp⟩

/-! ### Looking ahead -/

theorem scanFrom (fuel steps : Nat) {stack : List Frame} (memo : Memo) (h : Rooted p stack) :
    Carries M X Ready (Play.scanFrom host fuel steps stack memo) fun a r =>
      Ready r ∧ Rooted p a.stack ∧ ∀ c ∈ a.choices, ∀ e ∈ contentQueries c.content, p e := by
  induction fuel generalizing steps stack memo with
  | zero => exact .throw (hf.own rfl)
  | succ fuel ih =>
    cases stack with
    | nil => exact absurd rfl h.ne_nil
    | cons f below =>
      refine .get fun w => .ite (fun _ => hf.failLimit _) fun _ => ?_
      have hqueries := (List.forall_mem_cons.1 h.queries).1
      refine (hf.frameItemsIn memo hqueries).bind fun found => ?_
      dsimp only
      refine .given (fun r hr => hr.2) fun hitems => .mono (A := Ready) ?_ (fun r hr => hr.1) fun _ _ h => h
      split
      · refine .ite (fun _ => .pure fun r hr => ⟨hr, h, by simp⟩) fun hbelow => ?_
        cases below with
        | nil => exact absurd rfl hbelow
        | cons g below => exact ih _ _ h.pop
      · next c hitem => exact ih _ _ ((h.skip 1).push (hitems.item hitem))
      · refine (hf.collectChoices (hitems.drop _)).bind fun collected => .ite (fun _ => ?_) fun _ => ?_
        · exact (ih _ _ (h.skip collected.2)).mono (fun r hr => hr.1) fun _ _ h => h
        · exact .pure fun r hr => ⟨hr.1, h, hr.2⟩
      · exact .pure fun r hr => ⟨hr, h, by simp⟩
      · exact .pure fun r hr => ⟨hr, h, by simp⟩

/-! ### Acting -/

theorem advanceToChoices : Carries M X Ready (Play.advanceToChoices host) fun _ _ => True := by
  have hscan : Carries M X Ready (Play.scan host) fun a r =>
      Ready r ∧ Rooted p a.stack ∧ ∀ c ∈ a.choices, ∀ e ∈ contentQueries c.content, p e := by
    refine .get fun w => hf.runner fun r htidy hr => ?_
    exact (hf.scanFrom _ 0 r.memo (htidy.rooted (hf.live hr))).mono (fun _ h => h.1) fun _ _ h => h
  refine hscan.bind fun a => .ite (fun _ => ?_) fun _ => .pure fun _ _ => trivial
  refine .given (fun r hr => hr.2) fun ha => ?_
  obtain ⟨hstack, hchoices⟩ := ha
  have hadopt : Carries M X Ready (Play.modifyRunner fun r => r.adopt a : Play σ μ Unit) fun _ => Ready := by
    refine hf.moveRunner (fun _ => rfl) (fun _ => rfl) (fun _ => rfl) fun r htidy hr => ?_
    have hlive := hf.live hr
    refine .of_live hlive ?_ htidy.menu
    cases hs : a.stack with
    | nil => exact absurd hs hstack.ne_nil
    | cons f below =>
      simp only [Runner.adopt, hs]
      exact (hs ▸ hstack).skip _
  exact (hadopt.mono (fun r hr => hr.1) fun _ _ h => h).bind fun _ => hf.opened _ hchoices

/-- A menu that may still be open is closed. -/
theorem enterNode {n : Node} (hn : n.Asks p) : Carries M X Runner.Live (Play.enterNode host n) fun _ _ => True := by
  have henter : Carries M X Runner.Live
      (Play.modifyRunner fun r => { r with stack := [⟨.node n, 0⟩], memo := [], menu := [] } : Play σ μ Unit)
      fun _ => Ready :=
    hf.modifyRunner (fun _ => rfl) (fun _ => rfl) (fun _ => .inr rfl) fun r _ hlive =>
      ⟨.of_live hlive (.enter hn 0) (by simp), hf.ready hlive rfl⟩
  refine henter.bind fun _ => (hf.log _ _ _).bind fun _ => ?_
  exact (hf.entered _).bind fun _ => .pure fun _ h => h

theorem getNode (name : String) : Carries M X A (Play.getNode name : Play σ μ Node) fun n r => A r ∧ n.Asks p := by
  intro w₀ w hw hr
  have hget := hf.upheld (fun hk => Play.upholds_getNode hk name) hw trivial
  unfold wp at hget ⊢
  cases hn : Play.getNode name w with
  | error f v => rwa [hn] at hget
  | ok n v =>
    obtain ⟨hn, rfl⟩ := getNode_ok hn
    exact ⟨hw, hr, hf.nodes hw name n hn⟩

/-- A command that leads nowhere is passed by. -/
theorem stay {x : Play σ μ (Option String)} (hx : Carries M X Ready x fun target _ => target = none) :
    Carries M X Ready (do
      match ← x with
      | some target => Play.enterNode host (← Play.getNode target)
      | none => Play.modifyRunner fun r => r.skip 1
      return false) fun _ _ => True := by
  refine hx.bind fun target => .given (fun _ h => h) ?_
  rintro rfl
  have hskip : Carries M X (fun _ => none = (none : Option String)) (Play.modifyRunner fun r => r.skip 1 : Play σ μ Unit)
      fun _ _ => True :=
    hf.modifyRunner (fun r => r.busy_skip 1) (fun r => r.session_skip 1) (fun r => .inl (r.menu_skip 1))
      fun _ htidy _ => ⟨htidy.skip 1, trivial⟩
  exact hskip.bind fun _ => .pure fun _ h => h

/-- Only a jump leads anywhere, and it runs no host code before. -/
theorem obey (c : Command) (line : Int) : Carries M X Ready (Play.obey host c line) fun _ _ => True := by
  cases c with
  | jump target =>
    refine (hf.getNode target).bind fun n => .given (fun r hr => hr.2) fun hn => ?_
    exact ((hf.enterNode hn).mono (fun r hr => hf.live hr.1) fun _ _ h => h).bind fun _ => .pure fun _ h => h
  | assign name op e =>
    exact hf.stay ((hf.upheld' fun hk => Play.upholds_assign hk name op e line).bind fun _ => .pure fun _ _ => rfl)
  | call function args =>
    refine hf.stay ((hf.upheld' fun hk => Play.upholds_evaluateAll hk args).bind fun vs => ?_)
    exact (hf.upheld fun hk => Play.upholds_callFunction hk function vs).bind fun _ => .pure fun _ _ => rfl
  | wait e =>
    exact hf.stay ((hf.upheld' fun hk => Play.upholds_waitDuration hk e line).bind fun _ => .pure fun _ _ => rfl)

theorem act {item : Content} {following : List Content} (hitem : ∀ e ∈ item.queries, p e)
    (hfollowing : ∀ e ∈ contentQueries following, p e) :
    Carries M X Ready (Play.act host item following) fun _ _ => True := by
  cases item with
  | condition c =>
    have hpush : Carries M X Ready (Play.modifyRunner fun r => (r.skip 1).push (.condition c) : Play σ μ Unit)
        fun _ => Ready := by
      refine hf.moveRunner (fun r => r.busy_skip 1) (fun r => r.session_skip 1) (fun r => r.menu_skip 1) fun r htidy hr => ?_
      have hs : (r.skip 1).session.isSome := by rw [r.session_skip 1]; exact hf.live hr
      have hskip := htidy.skip 1
      exact .of_live hs ((hskip.rooted hs).push hitem) hskip.menu
    exact hpush.bind fun _ => .pure fun _ _ => trivial
  | choice c =>
    refine (hf.collectChoices hfollowing).bind fun collected => ?_
    refine .given (fun r hr => hr.2) fun hlive => ?_
    refine ((hf.skip _).mono (fun r hr => hr.1) fun _ _ h => h).bind fun _ => .ite (fun _ => ?_) fun _ => ?_
    · exact (hf.log _ _ _).bind fun _ => .pure fun _ _ => trivial
    · exact (hf.opened _ hlive).bind fun _ => .pure fun _ h => h
  | line l =>
    refine (hf.skip 1).bind fun _ => (hf.displayed l).bind fun _ => .get fun w => hf.runner fun r _ hready => ?_
    refine .ite (fun hgo => ?_) fun _ => .pure fun _ _ => trivial
    -- the session may have ended with the line, and has been looked at again
    refine (hf.advanceToChoices.mono (fun r' hr' => ?_) fun _ _ h => h).bind fun _ => .pure fun _ h => h
    rw [hr'.2]
    exact hready hgo.2
  | command c pos =>
    cases c with
    | wait e =>
      refine (hf.waitDuration e pos.line (hitem e (by simp [Content.queries]))).bind fun duration => ?_
      have hwait : Carries M X Ready
          (Play.modifyRunner fun r => { r.skip 1 with wait := some duration } : Play σ μ Unit) fun _ => Ready := by
        refine hf.moveRunner (fun r => r.busy_skip 1) (fun r => r.session_skip 1) (fun r => r.menu_skip 1)
          fun r htidy hr => ?_
        have hs : (r.skip 1).session.isSome := by rw [r.session_skip 1]; exact hf.live hr
        exact .of_live hs ((htidy.skip 1).rooted hs) (htidy.skip 1).menu
      exact hwait.bind fun _ => (hf.waiting _).bind fun _ => .pure fun _ h => h
    | assign | call | jump => exact hf.obey _ _

theorem leaveFrame : Carries M X Ready (Play.leaveFrame host) fun _ _ => True := by
  refine hf.runner fun r _ _ => .ite (fun _ => ?_) fun hlength => ?_
  · exact (hf.complete.mono (fun r hr => hr.1) fun _ _ h => h).bind fun _ => .pure fun _ h => h
  · have hpop : Carries M X (fun r' => Ready r' ∧ r' = r) (Play.popFrame : Play σ μ Unit) fun _ _ => True := by
      refine hf.runner fun r₁ htidy hr₁ => ?_
      obtain ⟨hr, rfl⟩ := hr₁
      have hrooted := htidy.rooted (hf.live hr)
      cases hs : r₁.stack with
      | nil => exact absurd hs hrooted.ne_nil
      | cons f below =>
        cases below with
        | nil => rw [hs] at hlength; exact absurd rfl hlength
        | cons g below =>
          refine hf.modifyRunner (fun _ => rfl) (fun _ => rfl) (fun _ => .inl rfl) fun r₂ htidy hr₂ => ⟨?_, trivial⟩
          obtain ⟨-, rfl⟩ := hr₂
          have hlive := hf.live hr
          exact .of_live hlive (hs ▸ hrooted).pop htidy.menu
    exact hpop.bind fun _ => .pure fun _ h => h

theorem stepOnce : Carries M X Ready (Play.stepOnce host) fun _ _ => True := by
  refine hf.runner fun r htidy hr => ?_
  have hrooted := htidy.rooted (hf.live hr)
  cases hs : r.stack with
  | nil => exact absurd hs hrooted.ne_nil
  | cons f below =>
    rw [hs] at hrooted
    have hqueries := (List.forall_mem_cons.1 hrooted.queries).1
    refine ((hf.frameItems hqueries).mono (fun r hr => hr.1) fun _ _ h => h).bind fun items => ?_
    refine .given (fun r hr => hr.2) fun hitems => .mono (A := Ready) ?_ (fun r hr => hr.1) fun _ _ h => h
    unfold Play.actIn
    split
    · exact hf.leaveFrame
    · next item hitem => exact hf.act (hitems.item hitem) (hitems.drop _)

theorem advanceFrom (fuel steps : Nat) : Carries M X A (Play.advanceFrom host fuel steps) fun _ _ => True := by
  induction fuel generalizing steps A with
  | zero => exact .throw (hf.own rfl)
  | succ fuel ih =>
    refine hf.runner fun r _ _ => .ite (fun _ => .pure fun _ _ => trivial) fun hgo => ?_
    have hready : Ready r := by
      rw [not_or] at hgo
      exact hf.ready (by simpa [Runner.Live, Option.isSome_iff_ne_none] using hgo.1) (by simpa using hgo.2)
    refine .get fun w => .ite (fun _ => hf.failLimit _) fun _ => ?_
    refine (hf.stepOnce.mono (fun r' hr' => ?_) fun _ _ h => h).bind fun stop => ?_
    · rw [hr'.2]; exact hready
    · exact .ite (fun _ => .pure fun _ h => h) fun _ => ih _

/-- Stepping as far as it goes, from wherever the runner is. -/
theorem advance : Carries M X A (Play.advance host) fun _ _ => True := by
  have hwait : Carries M X A (Play.modifyRunner fun r => { r with wait := none } : Play σ μ Unit) fun _ _ => True :=
    hf.modifyRunner (fun _ => rfl) (fun _ => rfl) (fun _ => .inl rfl) fun _ htidy _ => ⟨htidy.withoutWait, trivial⟩
  exact hwait.bind fun _ => .get fun w => hf.advanceFrom _ _

/-- What a pick does once it has been announced. -/
theorem follow {choice : Choice} (hchoice : ∀ e ∈ contentQueries choice.content, p e) :
    Carries M X A (do
      if (← Play.runner).session.isNone then return ()
      Play.modifyRunner fun r => { r with menu := [] }
      if !choice.content.isEmpty then Play.modifyRunner fun r => r.push (.choice choice)
      Play.advance host : Play σ μ Unit) fun _ _ => True := by
  refine hf.runner fun r _ _ => .ite (fun _ => .pure fun _ _ => trivial) fun hs => ?_
  -- the handlers have left the session alone
  have hlive : r.Live := by simpa [Runner.Live, Option.isSome_iff_ne_none] using hs
  have hclose : Carries M X (fun r' => A r' ∧ r' = r) (Play.modifyRunner fun r => { r with menu := [] } : Play σ μ Unit)
      fun _ => Runner.Live := by
    refine hf.modifyRunner (fun _ => rfl) (fun _ => rfl) (fun _ => .inr rfl) fun r' htidy hr' => ?_
    have hlive' : r'.Live := hr'.2 ▸ hlive
    exact ⟨.of_live hlive' (htidy.rooted hlive') (by simp), hlive'⟩
  have hpush : Carries M X Runner.Live (Play.modifyRunner fun r => r.push (.choice choice) : Play σ μ Unit)
      fun _ _ => True :=
    hf.modifyRunner (fun _ => rfl) (fun _ => rfl) (fun _ => .inl rfl) fun r htidy hlive =>
      ⟨.of_live hlive ((htidy.rooted hlive).push hchoice) htidy.menu, trivial⟩
  refine hclose.bind fun _ => .ite (fun _ => ?_) fun _ => hf.advance
  exact hpush.bind fun _ => hf.advance

end Footing

/-! ### Calls -/

/-- A new session at an item of a node, just announced to be begun. -/
def World.opening (w : World σ μ) (n : Node) (name : String) (index : Nat) : World σ μ :=
  let id := w.sessions + 1
  let r := { w.runner.reset with busy := true, session := some id, stack := [⟨.node n, index⟩] }
  let opened := { w with sessions := id }.withRunner r
  (opened.noting (.logged ⟨.debug, .runner, s!"Session {sessionName (some id)} started at '{name}'"⟩)).noting
    (.published w.seat (.started id name))

theorem Play.startAt_eq (host : Host σ μ) (w : World σ μ) (n : Node) (name : String) (index : Nat) :
    startAt host n name index w = (do
      let _ ← deliver host (.started (w.sessions + 1) name)
      let _ ← publish host (.entered name)
      advance host : Play σ μ Unit).ensuring World.rested (w.opening n name index) := rfl

theorem World.InOrder.opening {w : World σ μ} (hw : w.InOrder fun _ => True) (hidle : w.runner.busy = false) (n : Node)
    (name : String) (index : Nat) : w.During (fun _ => True) (fun _ => True) (w.opening n name index) := by
  have hnumber : w.Tends (fun _ => True) { w with sessions := w.sessions + 1 } :=
    hw.tends.aside rfl (fun _ => rfl) rfl fun _ h => h
  have hopened := hnumber.withRunner hidle (r := { w.runner.reset with
    busy := true, session := some (w.sessions + 1), stack := [⟨.node n, index⟩] }) fun hrest => by simp [Runner.IsResting] at hrest
  exact ⟨(hopened.noting (Entry.ne_marked (e := .logged _) rfl)).noting (Entry.published_ne_marked _ _), hidle, rfl, .inr trivial⟩

/-- Before a call `J` holds, inside its step `M`, and `X` where that fails, and after the call `R`, or `Z` if it fails. -/
structure Landing (p : Expr → Prop) (J : World σ μ → Prop) (M : World σ μ → World σ μ → Prop)
    (X : World σ μ → Fault → World σ μ → Prop) (R : World σ μ → World σ μ → Prop)
    (Z : World σ μ → Fault → World σ μ → Prop) : Prop where
  tidy : ∀ {w}, J w → w.runner.Tidy p
  nodes : ∀ {w}, J w → ∀ name n, w.nodes.get? name = some n → n.Asks p
  noting : ∀ {w}, J w → ∀ e : Entry μ, e.isQuiet → J (w.noting e)
  begun : ∀ {w : World σ μ}, w.InOrder (fun _ => True) → J w → w.runner.busy = false → M w w.begun
  rested : ∀ {w₀ w}, M w₀ w → R w₀ w.rested
  failed : ∀ {w₀ w f}, X w₀ f w → Z w₀ f w.rested
  refused : ∀ {w} {f : Fault}, f.isInternal = false → J w → ∀ e : Entry μ, e.isQuiet → Z w f (w.noting e)
  noted : ∀ {w w'} {e : Entry μ}, e.isQuiet → R (w.noting e) w' → R w w'
  notedFault : ∀ {w w' f} {e : Entry μ}, e.isQuiet → Z (w.noting e) f w' → Z w f w'

namespace Landing
variable {p : Expr → Prop} {J : World σ μ → Prop} {M R : World σ μ → World σ μ → Prop}
  {X Z : World σ μ → Fault → World σ μ → Prop} (hl : Landing p J M X R Z) {w : World σ μ}
include hl

theorem refuse {α : Type} (f : SessionFault) (h : J w) :
    wp (Play.refuse f : Play σ μ α) (fun _ => R w) (Z w) w :=
  hl.refused rfl h _ rfl

theorem ensuring {x : Play σ μ Unit} {u : World σ μ} (hx : wp x (fun _ => M u) (X u) w) :
    wp (x.ensuring World.rested) (fun _ => R u) (Z u) w :=
  wp_ensuring.2 (wp_mono hx (fun _ _ h => hl.rested h) fun _ _ h => hl.failed h)

theorem busyStep {A : Runner → Prop} {x : Play σ μ Unit} (hx : Carries M X A x fun _ _ => True)
    (hw : w.InOrder fun _ => True) (h : J w) (hidle : w.runner.busy = false) (hA : A { w.runner with busy := true }) :
    wp (Play.busyStep x) (fun _ => R w) (Z w) w := by
  rw [wp, Play.busyStep_eq]
  exact hl.ensuring (wp_mono (hx (hl.begun hw h hidle) hA) (fun _ _ h => h.1) fun _ _ h => h)

/-- A call that needs a runner at rest. -/
theorem requireIdleStep {action : String} {x : Play σ μ Unit} (h : J w)
    (hx : w.runner.busy = false → wp x (fun _ => R w) (Z w) w) :
    wp (Play.requireIdleStep action >>= fun _ => x) (fun _ => R w) (Z w) w := by
  simp only [Play.requireIdleStep, wp_bind, wp_runner, wp_ite, Play.wp_refuse, wp_pure]
  split
  · exact hl.refuse (α := Unit) _ h
  · next hidle => exact hx (by simpa using hidle)

theorem getNode {name : String} {x : Node → Play σ μ Unit} (h : J w)
    (hx : ∀ n, w.nodes.get? name = some n → n.Asks p → wp (x n) (fun _ => R w) (Z w) w) :
    wp (Play.getNode name >>= x) (fun _ => R w) (Z w) w := by
  rw [wp_bind, Play.getNode, wp_bind, wp_get]
  split
  · next n hn => exact hx n hn (hl.nodes h name n hn)
  · exact hl.refused rfl h _ rfl

variable {host : Host σ μ} {Ready : Runner → Prop} (hf : Footing host p M X Ready)
include hf

theorem resume (hw : w.InOrder fun _ => True) (h : J w) :
    wp (Play.resume host) (fun _ => R w) (Z w) w := by
  refine hl.requireIdleStep h fun hidle => ?_
  simp only [Play.requireRunning, wp_bind, wp_runner, wp_ite, Play.wp_refuse, wp_pure]
  split
  · exact hl.refuse (α := Unit) _ h
  · split
    · exact hl.refuse (α := Unit) _ h
    · exact hl.busyStep (A := fun _ => True) hf.advance hw h hidle trivial

theorem jump (name : String) (hw : w.InOrder fun _ => True) (h : J w) :
    wp (Play.jump host name) (fun _ => R w) (Z w) w := by
  refine hl.requireIdleStep h fun hidle => ?_
  rw [wp_bind]
  simp only [Play.requireRunning, wp_bind, wp_runner, wp_ite, Play.wp_refuse, wp_pure]
  split
  · exact hl.refuse (α := Unit) _ h
  · next hs =>
    have hlive : w.runner.session.isSome := by simpa [Option.isSome_iff_ne_none] using hs
    rw [← wp_bind]
    exact hl.getNode h fun n _ hn => hl.busyStep ((hf.enterNode hn).bind fun _ => hf.advance) hw h hidle hlive

/-- A pick, as long as it may be announced. -/
theorem select (hselected : ∀ {choice i}, w.runner.busy = false → w.runner.session.isSome → w.runner.menu[i]? = some choice →
      wp (Play.publish host (.selected choice i)) (fun _ => M w) (X w) w.begun)
    (index : Int) (h : J w) : wp (Play.select host index) (fun _ => R w) (Z w) w := by
  refine hl.requireIdleStep h fun hidle => ?_
  simp only [wp_bind, wp_runner, wp_ite, Play.wp_refuse]
  split
  · exact hl.refuse (α := Unit) _ h
  · split
    · exact hl.refuse (α := Unit) _ h
    · next choice hchoice =>
      have hat : w.runner.menu[index.toNat]? = some choice := by
        split at hchoice
        · cases hchoice
        · exact hchoice
      have hmem : choice ∈ w.runner.menu := List.mem_of_getElem? hat
      have hlive : w.runner.session.isSome := by
        rw [Option.isSome_iff_ne_none]
        intro hs
        rw [(hl.tidy h).menu_nil hs] at hmem
        cases hmem
      rw [wp, Play.busyStep_eq]
      refine hl.ensuring ?_
      rw [wp_bind]
      refine wp_mono (hselected hidle hlive hat) (fun _ v hv => ?_) fun _ _ hv => hv
      have hfollow := hf.follow (A := fun _ => True) ((hl.tidy h).menu choice hmem)
      exact wp_mono (hfollow hv trivial) (fun _ _ h => h.1) fun _ _ h => h

omit hf in
/-- A session begins, as long as beginning one at a node whose queries have `p` goes well. -/
theorem start (hstart : ∀ {w : World σ μ} {n : Node} {name : String} {index : Nat}, w.InOrder (fun _ => True) → J w →
      w.runner.busy = false → n.Asks p →
      wp (Play.startAt host n name index) (fun _ => R w) (Z w) w)
    (name : Option String) (index : Int) (force : Bool) (hw : w.InOrder fun _ => True) (h : J w) :
    wp (Play.start host name index force) (fun _ => R w) (Z w) w := by
  refine hl.requireIdleStep h fun hidle => ?_
  rw [wp_bind]
  simp only [wp_runner, wp_bind, wp_runnerConfig, wp_ite, Play.wp_refuse]
  split
  · exact hl.refuse (α := Unit) _ h
  · rw [← wp_bind]
    refine hl.getNode h fun n _ hn => ?_
    simp only [wp_ite, wp_bind, Play.wp_refuse]
    split
    · exact hl.refuse (α := Unit) _ h
    · split
      · show wp (Play.startAt host n _ _) _ _ (w.noting _)
        refine wp_mono (hstart (Play.tends_logged hw _).order (hl.noting h _ rfl) hidle hn) (fun _ _ h => ?_) fun _ _ h => ?_
        · exact hl.noted rfl h
        · exact hl.notedFault rfl h
      · exact hstart hw h hidle hn

end Landing
end Parley
