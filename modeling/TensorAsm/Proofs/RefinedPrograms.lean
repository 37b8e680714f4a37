import TensorAsm.Proofs.Plans
import TensorAsm.Proofs.RefinedNodes
/-!
The lowering of a whole circuit beside its outline. With a complete witness, a program is its
outline with the values that the journal leads to.
-/

namespace TensorAsm

open Lowering
open Stateful (meets_forM meets_pure)
open Program (Values)

namespace Circuit.Graph

theorem mem_of_order {g : Graph} {ops : List Operation} (h : g.order = .ok ops) {o : Operation}
    (ho : o ∈ ops) : o ∈ g.operations := by
  unfold order at h
  have hsub := Traversal.run_subset g.operations g.users g.operations.length g.start
  generalize Traversal.run g.operations g.users g.operations.length g.start = out at h hsub
  obtain ⟨done, last⟩ := out
  dsimp only at h
  split at h
  · obtain rfl : done = ops := by simpa using h
    exact hsub ho
  · exact absurd h (by simp)

end Circuit.Graph

namespace Emitter

variable [Platform] {s : Setting} {e : State} {d : Draft} {v : Values}

theorem lowerNodes_refines (hw : s.witness.Complete s.modulus s.graph)
    {ops : List Circuit.Operation}
    (ho : ∀ o ∈ ops, o ∈ s.graph.operations) (ht : Tracks s e d v) :
    Refines s e d v (ops.forM (lowerNode s)) (ops.forM (Lowering.lowerNode s.toSetting))
      (fun _ _ e' d' v' => Tracks s e' d' v') false := by
  induction ops generalizing e d v with
  | nil => exact .pure ht
  | cons o ops ih =>
    rw [List.forM_eq_forM, List.forM_eq_forM, List.forM_cons, List.forM_cons]
    refine (lowerNode_refines ht hw (ho o (by simp))).bind_continues
      (fun _ _ => meets_forM fun o _ => continues_lowerNode _ o) fun _ _ e₁ d₁ v₁ ht₁ => ?_
    exact ih (fun o h => ho o (by simp [h])) ht₁

theorem outputs_refines (hw : s.witness.Complete s.modulus s.graph) {ids : List String}
    (hr : ∀ id ∈ ids, id ∈ s.graph.required) (ht : Tracks s e d v) :
    Refines s e d v (ids.forM fun id => do let _ ← tensor (← s.tensor id))
      (ids.forM fun id => do let _ ← Emit.tensor (← s.toSetting.tensor id))
      (fun _ _ e' d' v' => Tracks s e' d' v') true := by
  induction ids generalizing e d v with
  | nil => exact .pure ht
  | cons id ids ih =>
    rw [List.forM_eq_forM, List.forM_eq_forM, List.forM_cons, List.forM_cons]
    refine Refines.bind (Q := fun _ _ e' d' v' => Tracks s e' d' v') ?_ fun _ _ e₁ d₁ v₁ ht₁ =>
      ih (fun id h => hr id (by simp [h])) ht₁
    refine (Neutral.tensor s.toSetting id).refines_bind fun t hyt => ?_
    refine (tensor_refines ht hw (hr id (by simp)) (yields_tensor.1 hyt).1).bind ?_
    rintro _ _ e₁ d₁ v₁ ⟨-, -, ht₁, -⟩
    exact .pure ht₁

variable {g : Circuit.Graph} {w : Witness} {layout : Layout} {lookupBits : Json} {m : Int}

theorem tracks_control {zb : Allocation} (hk : zb.kind = .control) (hs : zb.size = 1)
    {e : State} {d : Draft} (hwrites : Writes g (emptyDraft g layout) [.allocated zb] d)
    (ha : e.allocator = d.allocator) (ht : e.tables = d.tables) (hb : e.blocks = [])
    (hc : e.current = #[]) (hd : e.derived = ∅) :
    Tracks ⟨⟨g, lookupBits, zb.address.absolute⟩, w, m⟩ e d ⟨∅, ∅⟩ := by
  have hall : d.allocator.allocations = [zb] := by
    simpa [emptyDraft, Allocator.start] using hwrites.allocations
  refine ⟨ha, ht, ?_, ?_, hd, hwrites.sound sound_empty, ⟨zb, by simp [hall], hk, ?_⟩, ?_, ?_⟩
  · simpa [emptyDraft, hb] using hwrites.blocks.symm
  · simpa [emptyDraft, hc] using hwrites.current.symm
  · exact Allocation.mem_cells.2 (by simp [hs])
  · simp [Values.cell]
  · intro b hb hkind
    obtain rfl : b = zb := by simpa [hall] using hb
    simp [hk] at hkind

theorem control_tracks (w : Witness) (lookupBits : Json) (m : Int) {zero : Address} {e : State}
    (h : (request (·.control zeroName)).Yields (State.empty g layout) zero e) :
    ∃ d, Tracks ⟨⟨g, lookupBits, zero.absolute⟩, w, m⟩ e d ⟨∅, ∅⟩ := by
  obtain ⟨evs, -, -, hx⟩ : Mirrors (request (·.control zeroName))
      (Emit.request (·.control zeroName)) (State.empty g layout) (emptyDraft g layout) :=
    mirrors_request _ rfl rfl
  rcases hr : Id.run ((Emit.request (·.control zeroName)).run (emptyDraft g layout)) with ⟨r, d⟩
  rw [hr] at hx
  obtain ⟨rfl, rfl⟩ := Prod.mk.inj (hx.symm.trans h)
  obtain ⟨zb, hk, rfl, hsz, hwrites⟩ := control_writes (g := g) rfl hr
  exact ⟨d, tracks_control hk hsz hwrites rfl rfl rfl rfl rfl⟩

theorem lowerGraph_refines (hw : w.Complete m g) (layout : Layout) (lookupBits : Json) :
    ∃ s : Setting, s.witness = w ∧ s.modulus = m ∧
      Refines s (State.empty g layout) (emptyDraft g layout) ⟨∅, ∅⟩ (lowerGraph g w lookupBits m)
        (Lowering.lowerGraph g lookupBits) (fun z z' e d v => z = z' ∧ Tracks s e d v) false := by
  obtain ⟨evs, hp, hj, hx⟩ : Mirrors (request (·.control zeroName))
      (Emit.request (·.control zeroName)) (State.empty g layout) (emptyDraft g layout) :=
    mirrors_request _ rfl rfl
  unfold lowerGraph Lowering.lowerGraph
  rcases hr : Id.run ((Emit.request (·.control zeroName)).run (emptyDraft g layout)) with
    ⟨f | address, d⟩
  · rw [hr] at hj hx
    obtain ⟨u, hu⟩ := Values.follow_places m w ⟨∅, ∅⟩ hp
    exact ⟨⟨⟨g, lookupBits, 0⟩, w, m⟩, rfl, rfl, Refines.fails_bind hr hj hu hx rfl⟩
  · rw [hr] at hj hx
    obtain ⟨zb, hk, rfl, hsz, hwrites⟩ := control_writes (g := g) rfl hr
    obtain rfl := List.append_cancel_left (hwrites.journal.symm.trans hj)
    refine ⟨⟨⟨g, lookupBits, zb.address.absolute⟩, w, m⟩, rfl, rfl,
      Refines.goes_bind hr hj (u := ⟨∅, ∅⟩) (by simp [Values.follow, Values.advance, hk]) hx rfl ?_⟩
    cases ho : g.order with
    | error c => exact (Neutral.refuse c).refines fun _ h => absurd h (by simp)
    | ok order =>
      refine (lowerNodes_refines hw (fun o h => Circuit.Graph.mem_of_order ho h)
        (tracks_control hk hsz hwrites rfl rfl rfl rfl rfl)).bind_continues
          (fun _ j => (meets_forM fun _ _ => ((Neutral.tensor _ _).continues j).bind fun _ _ =>
            (continues_request _).bind fun _ _ => meets_pure trivial).bind fun _ _ =>
              meets_pure trivial) fun _ _ e₁ d₁ v₁ ht₁ => ?_
      refine (outputs_refines hw (fun id h => Circuit.Graph.mem_required.2 (.inl h)) ht₁).bind
        fun _ _ e₂ d₂ v₂ ht₂ => ?_
      exact .pure ⟨rfl, ht₂⟩

end Emitter

namespace Program

variable [Platform] {name : String} {g : Circuit.Graph} {w : Witness} {layout : Layout}
  {lookupBits : Json} {m : Int}

theorem lower_keeps {p : Program} (h : (lower name g w layout lookupBits m).1 = .ok p) :
    ∃ plan derived, p = ⟨name, g, w, plan, derived, m, []⟩ := by
  unfold lower at h
  split at h
  next zero d _ =>
  cases zero with
  | error f => exact absurd h (by simp)
  | ok z => exact ⟨_, _, (Except.ok.inj h).symm⟩

theorem lower_graph {p : Program} (h : (lower name g w layout lookupBits m).1 = .ok p) :
    p.graph = g := by
  obtain ⟨plan, derived, rfl⟩ := lower_keeps h
  rfl

/-- With a complete witness, the emitter puts out what the outline comes to. -/
theorem lower_eq_outlined (hw : w.Complete m g) :
    lower name g w layout lookupBits m = outlined name g w layout lookupBits m := by
  obtain ⟨s, rfl, rfl, h⟩ := Emitter.lowerGraph_refines hw layout lookupBits
  rcases hx : ExceptT.run (Emitter.lowerGraph g s.witness lookupBits s.modulus)
    (Emitter.State.empty g layout) with ⟨r, e⟩
  rcases hy : ExceptT.run (Lowering.lowerGraph g lookupBits) (emptyDraft g layout) with ⟨r', d⟩
  cases h with
  | stops hy' hj hf hx' hl =>
    obtain ⟨rfl, rfl⟩ := Prod.mk.inj (hy.symm.trans hy')
    obtain ⟨rfl, rfl⟩ := Prod.mk.inj (hx.symm.trans hx')
    obtain rfl := hj.trans (List.nil_append _)
    simp only [lower, outlined, Lowering.plan, hx, hy, hf]
    exact congrArg _ hl
  | fails hy' hj hf hx' hl =>
    obtain ⟨rfl, rfl⟩ := Prod.mk.inj (hy.symm.trans hy')
    obtain ⟨rfl, rfl⟩ := Prod.mk.inj (hx.symm.trans hx')
    obtain rfl := hj.trans (List.nil_append _)
    simp only [lower, outlined, Lowering.plan, hx, hy, hf, Except.map]
    exact congrArg _ hl
  | goes hy' hj hf hx' hl hq =>
    obtain ⟨rfl, rfl⟩ := Prod.mk.inj (hy.symm.trans hy')
    obtain ⟨rfl, rfl⟩ := Prod.mk.inj (hx.symm.trans hx')
    obtain rfl := hj.trans (List.nil_append _)
    obtain ⟨rfl, ht⟩ := hq
    simp only [lower, outlined, Lowering.plan, hx, hy, hf, Except.map, ht.allocator, ht.blocks,
      ht.tables, ht.derived, hl]
    rfl

/-- A program is a plan with the values that its journal leads to. -/
theorem lower_eq_ok (hw : w.Complete m g) {p : Program}
    (h : (lower name g w layout lookupBits m).1 = .ok p) :
    ∃ plan journal values done, Lowering.plan g layout lookupBits = (.ok plan, journal) ∧
      Values.follow m w ⟨∅, ∅⟩ journal = (values, done, none) ∧
      p = ⟨name, g, w, plan, values.derived, m, []⟩ := by
  rw [lower_eq_outlined hw, outlined] at h
  rcases hp : Lowering.plan g layout lookupBits with ⟨plan, journal⟩
  rcases hf : Values.follow m w ⟨∅, ∅⟩ journal with ⟨values, done, stop⟩
  simp only [hp, hf] at h
  cases stop with
  | some f => exact absurd h (by simp)
  | none =>
    cases plan with
    | error f => exact absurd h (by simp)
    | ok plan =>
      obtain rfl := Except.ok.inj h
      exact ⟨plan, journal, values, done, rfl, hf, rfl⟩

end Program

end TensorAsm
