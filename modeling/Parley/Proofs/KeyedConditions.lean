import Parley.Proofs.AllCalls
import Parley.Proofs.Elision
import Parley.Proofs.WellPlaced
import Mathlib.Data.List.Nodup

/-! # A key for every condition

The conditions of a parsed node are keyed with its name and with numbers that ascend in reading order
(`Node.Parsed.keys_eq_map`). Nodes come into the table of a world under their own names and from parsed sources only, so
the keys of all conditions in the table are distinct, whatever has been registered and in whatever order. -/

namespace Parley
variable {σ μ α : Type}

/-! ### Keys in a node -/

/-- The key of a condition. -/
def Content.key? : Content → Option ConditionKey
  | .condition c => some c.key
  | .line _ | .choice _ | .command .. => none

theorem Content.key?_condition (c : Condition) : (Content.condition c).key? = some c.key := rfl

mutual

/-- The keys in a tree are those of the conditions among its parts, in the same order. -/
theorem Content.keys_eq_filterMap (c : Content) : c.keys = c.parts.filterMap Content.key? := by
  match c with
  | .line l => rfl
  | .command c pos => rfl
  | .choice ⟨text, guard, content, pos⟩ =>
    rw [keys_choice, parts_choice, List.filterMap_cons_none rfl]
    exact contentKeys_eq_filterMap content
  | .condition ⟨test, thenBranch, elifs, elseBranch, key, pos⟩ =>
    have helse : elseBranch.elim [] contentKeys = (elseBranch.elim [] contentParts).filterMap Content.key? := by
      match elseBranch with
      | none => rfl
      | some content => exact contentKeys_eq_filterMap content
    rw [keys_condition, parts_condition, List.filterMap_cons_some (Content.key?_condition _), List.filterMap_append,
      List.filterMap_append, ← contentKeys_eq_filterMap thenBranch, ← branchKeys_eq_filterMap elifs, ← helse]
    rfl

theorem contentKeys_eq_filterMap (items : List Content) :
    contentKeys items = (contentParts items).filterMap Content.key? := by
  match items with
  | [] => rfl
  | c :: rest =>
    rw [contentKeys_cons, c.keys_eq_filterMap, contentKeys_eq_filterMap rest, contentParts, List.filterMap_append]

theorem branchKeys_eq_filterMap (elifs : List Branch) :
    branchKeys elifs = (branchParts elifs).filterMap Content.key? := by
  match elifs with
  | [] => rfl
  | ⟨test, content, pos⟩ :: rest =>
    rw [branchKeys, contentKeys_eq_filterMap content, branchKeys_eq_filterMap rest, branchParts, List.filterMap_append]

end

/-- The conditions of a parsed node are keyed with the name of the node. -/
theorem Node.Parsed.node_of_mem_keys {n : Node} (h : n.Parsed) {key : ConditionKey} (hkey : key ∈ contentKeys n.content) :
    key.node = n.name := by
  obtain ⟨source, s, hs, hn⟩ := h
  obtain ⟨tokens, htokens⟩ := parseTokens_of_source hs
  rw [contentKeys_eq_filterMap] at hkey
  obtain ⟨part, hpart, hkey⟩ := List.mem_filterMap.1 hkey
  have hkept : part.Kept n.name := (kept_of_tokens htokens n hn).2 part hpart
  cases part with
  | condition c =>
    cases hkey
    exact hkept.keyed c rfl
  | line | choice | command => cases hkey

theorem Node.Parsed.keys_eq_map {n : Node} (h : n.Parsed) : ∃ ordinals : List Nat,
    contentKeys n.content = ordinals.map (ConditionKey.mk n.name) ∧ ordinals.Pairwise (· < ·) ∧ ∀ o ∈ ordinals, 1 ≤ o := by
  refine ⟨(contentKeys n.content).map ConditionKey.ordinal, ?_, ?_, ?_⟩
  · rw [List.map_map]
    refine (List.map_id _).symm.trans (List.map_congr_left fun key hkey => ?_)
    rw [Function.comp, ← h.node_of_mem_keys hkey]
    rfl
  · exact List.pairwise_map.2 h.ascends.sorted
  · intro o ho
    obtain ⟨key, hkey, rfl⟩ := List.mem_map.1 ho
    exact h.ascends.positive key hkey

/-! ### What holds of the table of nodes -/

/-- Nodes stand under their own names. -/
def Table.Named (t : Table Node) : Prop := ∀ name n, t.get? name = some n → n.name = name

namespace Table.Named

theorem empty : Table.Named {} := nofun

theorem put {t : Table Node} (h : t.Named) (n : Node) : (t.put n.name n).Named := by
  intro name m hm
  rw [Table.get?_put] at hm
  split at hm
  · next heq =>
    cases hm
    exact heq.symm
  · exact h name m hm

end Table.Named

theorem Table.get?_of_mem {β : Type} {t : Table β} {entry : String × β} (h : entry ∈ t.entries) :
    t.get? entry.1 = some entry.2 := by
  obtain ⟨before, later, hsplit⟩ := List.append_of_mem h
  have hdistinct := t.distinct
  rw [hsplit, List.map_append, List.nodup_append] at hdistinct
  refine List.lookup_eq_some_iff.2 ⟨before, later, hsplit, fun earlier hearlier => ?_⟩
  exact bne_iff_ne.2 (hdistinct.2.2 earlier.1 (List.mem_map_of_mem hearlier) entry.1 (by simp)).symm

/-- The names of the nodes stay right whatever the host's code does. -/
structure Host.Names (host : Host σ μ) : Prop where
  read : ∀ h, Upholds (fun w : World σ μ => w.nodes.Named) (fun _ => True) (host.read h)
  write : ∀ h v, Upholds (fun w : World σ μ => w.nodes.Named) (fun _ => True) (host.write h v)
  call : ∀ h args, Upholds (fun w : World σ μ => w.nodes.Named) (fun _ => True) (host.call h args)
  callRaw : ∀ h args, Upholds (fun w : World σ μ => w.nodes.Named) (fun _ => True) (host.callRaw h args)
  handle : ∀ seat h n, Upholds (fun w : World σ μ => w.nodes.Named) (fun _ => True) (host.handle seat h n)

namespace Host.Names
variable {host : Host σ μ} (hh : host.Names)
include hh

theorem upkeep : Upkeep host (fun _ => True) (fun w => w.nodes.Named) fun _ => True where
  own _ _ := trivial
  noting hw _ _ := hw
  custom hw _ _ := hw
  withVars hw _ := hw
  withFunctions hw _ := hw
  withBus hw _ := hw
  configured {w} hw c := by
    unfold World.setRunnerConfig
    split <;> exact hw
  putNode hw n _ := hw.put n
  noNodes _ := .empty
  read := hh.read
  write := hh.write
  call := hh.call
  callRaw := hh.callRaw
  handle := hh.handle

theorem perform (op : Operation) : Upholds (fun w => w.nodes.Named) (fun _ => True) (Play.perform host op) := by
  have hindifferent : Indifferent host fun w => w.nodes.Named :=
    { hh.upkeep.housekeeping with
      withRunner := fun hw _ _ => hw
      numbered := fun hw _ => hw
      publish := fun n => Play.upholds_publish hh.upkeep.delivering fun hw => hw }
  refine hindifferent.perform fun hbus => Play.upholds_perform hh.upkeep op.brings_true fun hsession => ?_
  cases op with
  | subscribe | unsubscribe | clearBus | consume | publish => cases hsession
  | _ => cases hbus

end Host.Names

theorem Code.upholds_named {perform : Operation → Play σ μ Answer}
    (hp : ∀ op, Upholds (fun w => w.nodes.Named) (fun _ => True) (perform op)) (c : Code σ μ α) :
    Upholds (fun w => w.nodes.Named) (fun _ => True) (c.run perform) := by
  induction c with
  | pure a => exact .pure a
  | fail f => exact .throw trivial
  | look next ih => exact .get fun w => ih w
  | keep s next ih => exact .bind (.modify fun _ hw => hw) fun _ => ih
  | mark m next ih => exact .bind (.modify fun _ hw => hw) fun _ => ih
  | ask seat op next ih =>
    intro w hw
    have hturned : (w.turnTo seat).nodes.Named := by rwa [World.nodes_turnTo]
    have hback {v : World σ μ} (hv : v.nodes.Named) : (v.turnTo w.seat).nodes.Named := by rwa [World.nodes_turnTo]
    refine Code.wp_run_ask.2 (wp_onSeat.2 (wp_mono (hp op hturned) (fun a v hv => ?_) fun f v hv => ?_))
    · exact ih _ (hback hv)
    · exact ih _ (hback hv.1)

theorem Host.RunsCode.names {host : Host σ μ} (hh : host.RunsCode) : host.Names := by
  obtain ⟨b, patience, depth, rfl⟩ := hh
  induction depth with
  | zero =>
    exact ⟨fun _ => .throw trivial, fun _ _ => .throw trivial, fun _ _ => .throw trivial, fun _ _ => .throw trivial,
      fun _ _ _ => .throw trivial⟩
  | succ depth ih =>
    have hcode {α : Type} (c : Code σ μ α) := c.upholds_named ih.perform
    exact ⟨fun h => hcode (b.read h), fun h v => hcode (b.write h v), fun h args => hcode (b.call h args),
      fun h args => hcode (b.callRaw h args), fun seat h n => hcode (b.handle seat h n)⟩

namespace Reachable
variable {host : Host σ μ} {w : World σ μ}

theorem named (hh : host.RunsCode) (h : Reachable host w) : w.nodes.Named := by
  induction h with
  | opened h =>
    rw [h.nodes]
    exact .empty
  | called op _ ih => exact wp_after (wp_mono (hh.names.perform op ih) (fun _ _ h => h) fun _ _ h => h.1)
  | turned seat _ ih => rwa [World.nodes_turnTo]
  | kept s _ ih => exact ih

/-- The keys in the table: distinct within a node by their numbers, and across nodes by the names. -/
theorem nodup_keys (hh : host.RunsCode) (h : Reachable host w) :
    (w.nodes.entries.flatMap fun entry => contentKeys entry.2.content).Nodup := by
  have hparsed {entry : String × Node} (he : entry ∈ w.nodes.entries) : entry.2.Parsed :=
    (h.inOrder hh.tends).parsed _ _ (Table.get?_of_mem he)
  have hname {entry : String × Node} (he : entry ∈ w.nodes.entries) : entry.2.name = entry.1 :=
    h.named hh _ _ (Table.get?_of_mem he)
  refine List.nodup_flatMap.2 ⟨fun entry he => (hparsed he).nodup, ?_⟩
  refine (List.pairwise_map.1 w.nodes.distinct).imp_of_mem fun {entry other} he ho hne => ?_
  intro key hkey hkey'
  apply hne
  calc entry.1 = entry.2.name := (hname he).symm
    _ = key.node := ((hparsed he).node_of_mem_keys hkey).symm
    _ = other.2.name := (hparsed ho).node_of_mem_keys hkey'
    _ = other.1 := hname ho

end Reachable

/-- The conditions of every node of a script are keyed, in reading order, with the name of the node and with ascending
numbers from 1 on; and whatever scripts are registered in a context, no two conditions below its nodes share a key. -/
theorem condition_keys_distinct {host : Host σ μ} (hh : host.RunsCode) :
    (∀ source s, (parseScript source).result = .ok s → ∀ n ∈ s.nodes, ∃ ordinals : List Nat,
      contentKeys n.content = ordinals.map (ConditionKey.mk n.name) ∧ ordinals.Pairwise (· < ·) ∧
        ∀ o ∈ ordinals, 1 ≤ o) ∧
    ∀ w, Reachable host w → (w.nodes.entries.flatMap fun entry => contentKeys entry.2.content).Nodup :=
  ⟨fun source s hs _ hn => Node.Parsed.keys_eq_map ⟨source, s, hs, hn⟩, fun _ hw => hw.nodup_keys hh⟩

/-- The second condition of the first node holds nothing but a tag: it takes a number and is left out. -/
def gappedScript : String :=
  ":: a\nif true\n    if true\n        #t\n    endif\n    hi\nendif\nif true\n    there\nendif\n" ++
    ":: b\nif true\n    you\nendif\n"

theorem condition_keys_distinct_gapped :
    (∃ s, (parseScript gappedScript).result = .ok s ∧ s.nodes.map (fun n => contentKeys n.content) =
        [[⟨"a", 1⟩, ⟨"a", 3⟩], [⟨"b", 1⟩]] ∧
      ∀ n ∈ s.nodes, ∃ ordinals : List Nat, contentKeys n.content = ordinals.map (ConditionKey.mk n.name) ∧
        ordinals.Pairwise (· < ·) ∧ ∀ o ∈ ordinals, 1 ≤ o) ∧
    ∃ (host : Host Unit Unit) (w : World Unit Unit), Reachable host w ∧
      w.nodes.entries.map (fun entry => contentKeys entry.2.content) =
        [[⟨"a", 1⟩, ⟨"a", 3⟩], [⟨"b", 1⟩], [⟨"start", 1⟩, ⟨"start", 2⟩]] ∧
      (w.nodes.entries.flatMap fun entry => contentKeys entry.2.content).Nodup := by
  let host : Host Unit Unit := Host.ofBehaviour Behaviour.silent 0 1
  have hh : host.RunsCode := ⟨Behaviour.silent, 0, 1, rfl⟩
  let w := after (Play.perform host (.register nestedScript)) (after (Play.perform host (.register gappedScript))
    { host := () })
  have hw : Reachable host w := ((Reachable.opened (.alone {} ())).called _).called _
  have hkeys : (parseScript gappedScript).result.toOption.map (fun s => s.nodes.map fun n => contentKeys n.content) =
      some [[⟨"a", 1⟩, ⟨"a", 3⟩], [⟨"b", 1⟩]] := by
    decide +kernel
  obtain ⟨hscripts, hreached⟩ := condition_keys_distinct hh
  refine ⟨?_, host, w, hw, by decide +kernel, hreached w hw⟩
  cases hparse : (parseScript gappedScript).result with
  | error e =>
    rw [hparse] at hkeys
    cases hkeys
  | ok s =>
    rw [hparse] at hkeys
    exact ⟨s, rfl, Option.some.inj hkeys, hscripts gappedScript s hparse⟩

end Parley
