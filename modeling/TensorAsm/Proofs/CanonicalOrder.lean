import Mathlib
import TensorAsm.Proofs.Acyclicity
/-!
The order of lowering is the canonical one. Of all orders in which every operation comes behind
those that feed it, it is the least, compared by ids from the first operation on.
-/

namespace TensorAsm.Circuit

/-- All operations of a graph, each behind those that feed it. -/
structure Graph.Schedule (g : Graph) (ops : List Operation) : Prop where
  perm : ops.Perm g.operations
  behind : ∀ pre o post, ops = pre ++ o :: post → ∀ p, g.Feeds p o → p ∈ pre

namespace Graph

variable {g : Graph} {ops : List Operation}

/-- What is taken with the smallest id first comes before all else that can be taken. -/
theorem Takes.first (hids : (g.operations.map (·.id)).Nodup) {gone all : List Int}
    (h : g.Takes gone ops all) {ops' : List Operation} (hp : ops'.Perm (g.left gone))
    (hb : ∀ pre o post, ops' = pre ++ o :: post → ∀ d ∈ g.dependencies o,
      d ∈ gone ∨ d ∈ pre.map (·.id)) :
    ops = ops' ∨ List.Lex (· < ·) (ops.map (·.id)) (ops'.map (·.id)) := by
  have hready {gone : List Int} {o : Operation} {rest : List Operation}
      (hp : (o :: rest).Perm (g.left gone))
      (hb : ∀ d ∈ g.dependencies o, d ∈ gone ∨ d ∈ [].map Operation.id) : g.Ready gone o :=
    ⟨hp.mem_iff.1 (by simp), fun d hd => (hb d hd).resolve_right (by simp)⟩
  induction h generalizing ops' with
  | stop hnone =>
    cases ops' with
    | nil => exact .inl rfl
    | cons o ops' => exact absurd (hready hp (hb [] o ops' rfl)) (hnone o)
  | @next gone all o ops hr hle _ ih =>
    cases ops' with
    | nil => exact absurd (hp.mem_iff.2 hr.left) List.not_mem_nil
    | cons o' ops' =>
      have hr' := hready hp (hb [] o' ops' rfl)
      rcases (hle o' hr').lt_or_eq with hlt | heq
      · exact .inr (.rel hlt)
      · obtain rfl := List.inj_on_of_nodup_map hids (mem_left.1 hr.left).1
          (mem_left.1 hr'.left).1 heq
        have hrest := (hp.trans (left_cons hids hr.left).symm).cons_inv
        refine (ih hrest fun pre p post hs d hd => ?_).imp (congrArg _) .cons
        -- whoever waited for the operation just taken does so no more
        have hmem := hb (o :: pre) p post (by rw [hs]; rfl) d hd
        rwa [List.map_cons, List.mem_cons, ← or_assoc, or_comm (a := d ∈ gone),
          ← List.mem_cons] at hmem

theorem order_schedule (hids : (g.operations.map (·.id)).Nodup) (h : g.order = .ok ops) :
    g.Schedule ops where
  perm := order_perm hids h
  behind := by
    intro pre o post hs p hf
    obtain ⟨all, htakes, -⟩ := takes_of_order hids h
    exact htakes.behind_feeding hids hs hf

/-- There is an order unless an operation feeds itself through others; it is a schedule, and it is
the first of all schedules by the ids of the operations. -/
theorem order_least (hids : (g.operations.map (·.id)).Nodup) :
    ((∃ ops, g.order = .ok ops) ↔ g.Acyclic) ∧
    (¬g.Acyclic → ∃ nodes, g.order = .error (.cycle nodes)) ∧
    ∀ ops, g.order = .ok ops → g.Schedule ops ∧
      ∀ ops', g.Schedule ops' →
        ops = ops' ∨ List.Lex (· < ·) (ops.map (·.id)) (ops'.map (·.id)) := by
  obtain ⟨taken, all, htakes, ho⟩ := order_takes hids
  refine ⟨order_ok_iff hids, fun hc => ?_, fun ops h => ?_⟩
  · rw [ho]
    split
    · next hl => exact absurd (acyclic_of_order hids (ho.trans (if_pos hl))) hc
    · exact ⟨_, rfl⟩
  · refine ⟨order_schedule hids h, fun ops' h' => ?_⟩
    obtain ⟨all, htakes, -⟩ := takes_of_order hids h
    refine htakes.first hids (by rw [left_nil]; exact h'.perm) fun pre o post hs d hd => .inr ?_
    have hom : o ∈ g.operations := h'.perm.mem_iff.1 (by simp [hs])
    obtain ⟨p, hf, rfl⟩ := (mem_dependencies hom).1 hd
    exact List.mem_map_of_mem (h'.behind pre o post hs p hf)

end Graph

namespace Diamond

/-- Node 4 feeds nodes 1 and 2, and both feed node 0. -/
def graph : Graph :=
  ⟨[], [⟨4, "add", ["x", "x"], "a", 0, []⟩, ⟨1, "add", ["a", "x"], "b", 0, []⟩,
    ⟨2, "add", ["a", "x"], "c", 0, []⟩, ⟨0, "add", ["b", "c"], "d", 0, []⟩], ["x"], []⟩

theorem order : (graph.order.map fun ops => ops.map (·.id)).toOption = some [4, 1, 2, 0] := by
  cbv

end Diamond

theorem Graph.diamond_order_least :
    (Diamond.graph.operations.map (·.id)).Nodup ∧ Diamond.graph.Acyclic ∧
    ∃ ops, Diamond.graph.order = .ok ops ∧ ops.map (·.id) = [4, 1, 2, 0] ∧
      ∀ ops', Diamond.graph.Schedule ops' →
        ops = ops' ∨ List.Lex (· < ·) [4, 1, 2, 0] (ops'.map (·.id)) := by
  have hids : (Diamond.graph.operations.map (·.id)).Nodup := by decide
  obtain ⟨hiff, -, hleast⟩ := order_least hids
  have horder := Diamond.order
  cases h : Diamond.graph.order with
  | error d => simp [h, Except.map, Except.toOption] at horder
  | ok ops =>
    have hops : ops.map (·.id) = [4, 1, 2, 0] := by
      simpa [h, Except.map, Except.toOption] using horder
    exact ⟨hids, hiff.1 ⟨ops, h⟩, ops, rfl, hops, hops ▸ (hleast ops h).2⟩

end TensorAsm.Circuit
