import Parley.Proofs.SessionOrder
import Parley.Proofs.Chores

/-! # Every call keeps order

To tend is to uphold, for every world, what that one tends to. Calls that are not about a session leave all runners
where they are and bring parsed nodes only, so `perform` tends, whatever the operation. -/

namespace Parley
variable {σ μ : Type} {P : μ → Prop} {host : Host σ μ}

theorem tending_iff {α : Type} {x : Play σ μ α} :
    Tending P x ↔ ∀ w₀ : World σ μ, Upholds (w₀.Tends P) (fun _ => True) x := by
  refine ⟨fun hx w₀ w hw => ?_, fun hx => .of_wp fun w hw => ?_⟩
  · exact wp_mono (hx.wp hw.order) (fun _ _ h => hw.trans h) fun _ _ h => ⟨hw.trans h, trivial⟩
  · exact wp_mono (hx w hw.tends) (fun _ _ h => h) fun _ _ h => h.1

namespace World
variable {w w₀ : World σ μ}

theorem Tends.noting (h : w₀.Tends P w) {e : Entry μ} (he : ∀ m, e ≠ .marked m) : w₀.Tends P (w.noting e) :=
  h.aside rfl (fun _ => rfl) rfl fun m hm => (List.mem_cons.1 hm).resolve_left (he m).symm

theorem Tends.kept (h : w₀.Tends P w) (s : σ) : w₀.Tends P { w with host := s } :=
  h.aside rfl (fun _ => rfl) rfl fun _ hm => hm

theorem Tends.marking (h : w₀.Tends (fun _ => True) w) (m : μ) : w₀.Tends (fun _ => True) (w.noting (.marked m)) :=
  ⟨⟨h.order.parsed, h.order.stands, fun _ _ => trivial⟩, h.seat, h.seats, h.busy⟩

theorem Tends.configured (h : w₀.Tends P w) (c : Config) : w₀.Tends P (w.setRunnerConfig c) := by
  unfold setRunnerConfig
  split
  · exact h.trans (h.order.tends_withRunner (fun hr => h.order.stands w.seat w.runner w.at?_seat hr)
      fun hb => ⟨hb, .inr rfl⟩)
  · exact h.aside rfl (fun _ => rfl) rfl fun _ hm => hm

theorem Tends.putNode (h : w₀.Tends P w) {n : Node} (hn : n.Parsed) :
    w₀.Tends P { w with nodes := w.nodes.put n.name n } := by
  refine ⟨⟨fun name m hm => ?_, h.order.stands, h.order.marks⟩, h.seat, h.seats, h.busy⟩
  rw [Table.get?_put] at hm
  split at hm
  · cases hm; exact hn
  · exact h.order.parsed name m hm

end World

theorem Host.Tends.upkeep (hh : host.Tends P) (w₀ : World σ μ) :
    Upkeep host Node.Parsed (w₀.Tends P) fun _ => True where
  own _ _ := trivial
  noting h e he := h.noting (Entry.ne_marked he)
  custom h _ _ := h.noting (Entry.published_ne_marked _ _)
  withVars h _ := h.aside rfl (fun _ => rfl) rfl fun _ hm => hm
  withFunctions h _ := h.aside rfl (fun _ => rfl) rfl fun _ hm => hm
  withBus h b := (((hh.congruent w₀).withBus ⟨rfl, h⟩ b).2)
  configured h c := h.configured c
  putNode h _ hn := h.putNode hn
  noNodes h := ⟨⟨fun _ _ hn => (by cases hn), h.order.stands, h.order.marks⟩, h.seat, h.seats, h.busy⟩
  read hd := tending_iff.1 (hh.read hd) w₀
  write hd v := tending_iff.1 (hh.write hd v) w₀
  call hd args := tending_iff.1 (hh.call hd args) w₀
  callRaw hd args := tending_iff.1 (hh.callRaw hd args) w₀
  handle seat hd n := tending_iff.1 (hh.handle seat hd n) w₀

theorem yields_parsed (source : String) : Yields Node.Parsed source := fun s hs _ hn => ⟨source, s, hs, hn⟩

theorem Operation.brings_parsed (op : Operation) : op.Brings Node.Parsed := by
  cases op with
  | register source | load source => exact yields_parsed source
  | loadFile => exact fun source _ => yields_parsed source
  | loadFolder => exact fun _ source _ => yields_parsed source
  | _ => trivial

theorem Play.tending_perform (hh : host.Tends P) (op : Operation) : Tending P (perform host op) := by
  have hdone {x : Play σ μ Unit} (hx : Tending P x) : Tending P (do x; return Answer.done) :=
    hx.bind fun _ => .pure _
  refine tending_iff.2 fun w₀ => upholds_perform (hh.upkeep w₀) op.brings_parsed fun hsession => tending_iff.1 ?_ w₀
  cases op with
  | start name index force => exact hdone (tending_start hh name index force)
  | resume => exact hdone (tending_resume hh)
  | select index => exact hdone (tending_select hh index)
  | jump name => exact hdone (tending_jump hh name)
  | finish force => exact hdone (tending_finish hh force)
  | nextContent => exact (tending_nextContent hh).bind fun _ => .pure _
  | _ => cases hsession

end Parley
