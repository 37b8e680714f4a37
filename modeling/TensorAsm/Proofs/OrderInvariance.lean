import Mathlib
import TensorAsm.Assembly
import TensorAsm.MemoryTable
import TensorAsm.Proofs.Rearrangement
import TensorAsm.Proofs.SingleAssignment
/-!
A compilation does not depend on the order in which a circuit and a witness are given. A lowering
looks at a graph through its tensors by id, the order of lowering and the declared names alone.
-/

namespace TensorAsm

namespace Emitter

open Circuit Lowering

section

variable (s : Setting) (g' : Graph)

-- what is recorded depends on the field alone

theorem rescaled_regraph [Platform] : rescaled { s with graph := g' } = rescaled s := rfl

theorem element_regraph [Platform] : element { s with graph := g' } = element s := rfl

theorem chain_regraph (o : Operation) (r : Reduction) (label : String) (i k : Nat) (cell sum : Int)
    (ts : List Term) :
    chain { s with graph := g' } o r label i k cell sum ts = chain s o r label i k cell sum ts := by
  induction ts generalizing k cell sum with
  | nil => rfl
  | cons t ts ih =>
    simp only [chain, ih]
    rfl

theorem elements_regraph (o : Operation) (r : Reduction) (i : Nat) (shape : List (List Nat))
    (ts : List (List Term)) :
    elements { s with graph := g' } o r i shape ts = elements s o r i shape ts := by
  induction shape generalizing i ts with
  | nil => rfl
  | cons index rest ih =>
    cases ts with
    | nil => rfl
    | cons terms more => simp only [elements, chain_regraph, ih]

end

section

variable {s : Setting} {g' : Graph} (h : s.graph.tensor? = g'.tensor?) (o : Operation)

include h

theorem tensor_congr :
    ({ s.toSetting with graph := g' } : Lowering.Setting).tensor =
      (s.tensor : String → Emitter Tensor) := by
  funext id
  rw [Lowering.Setting.tensor, Lowering.Setting.tensor, h]

theorem checkOutput_congr :
    ({ s.toSetting with graph := g' } : Lowering.Setting).checkOutput =
      (s.checkOutput : Operation → List (List Nat) → List Nat → Emitter Unit) := by
  funext o operands expected
  rw [Lowering.Setting.checkOutput, Lowering.Setting.checkOutput, tensor_congr h]

theorem scalarShape_congr :
    scalarShape { s.toSetting with graph := g' } o =
      (scalarShape s.toSetting o : List (List Nat) → Emitter (List Nat)) := by
  funext operands
  rw [scalarShape, scalarShape, tensor_congr h]

theorem operand_congr : operand { s with graph := g' } = operand s := by
  funext id
  simp only [operand, tensor_congr h]

theorem output_congr : output { s with graph := g' } = output s := by
  funext o
  simp only [output, tensor_congr h]

theorem lowerReduction_congr : lowerReduction { s with graph := g' } o = lowerReduction s o := by
  funext shape terms natural
  unfold lowerReduction
  simp only [tensor_congr h, output_congr h, elements_regraph]

theorem lowerKind_congr [Platform] (k : Kind) :
    lowerKind { s with graph := g' } o k = lowerKind s o k := by
  cases k <;> simp only [lowerKind, lowerBinary, lowerUnary, lowerMatmul, lowerDot, lowerConv,
    lowerSum, lowerLookup, lowerRescale, operand_congr h, tensor_congr h, output_congr h,
    checkOutput_congr h, lowerReduction_congr h, scalarShape_congr h,
    rescaled_regraph, element_regraph]

theorem lowerNode_congr [Platform] : lowerNode { s with graph := g' } o = lowerNode s o := by
  simp only [lowerNode, lowerKind_congr h]

end

variable {g g' : Graph}

theorem empty_rearranged (h : g.Rearranged g') (layout : Layout) :
    State.empty g' layout = State.empty g layout := by
  have hin : g'.inputs.contains = g.inputs.contains := by
    funext id
    rw [Bool.eq_iff_iff, List.contains_iff_mem, List.contains_iff_mem, h.inputs]
  rw [State.empty, State.empty, Allocator.start, Allocator.start, hin, h.outputs]

theorem lowerGraph_rearranged [Platform] (h : g.Rearranged g') (hc : g.Consistent) (w : Witness)
    (lookupBits : Json) (m : Int) : lowerGraph g' w lookupBits m = lowerGraph g w lookupBits m := by
  obtain ⟨ops, ho⟩ := Graph.order_of_acyclic hc.nodeIds hc.acyclic
  have ht := h.tensor_eq hc
  have hnode (zero : Int) :
      lowerNode ⟨⟨g', lookupBits, zero⟩, w, m⟩ = lowerNode ⟨⟨g, lookupBits, zero⟩, w, m⟩ := by
    funext o
    exact lowerNode_congr (s := ⟨⟨g, lookupBits, zero⟩, w, m⟩) ht o
  have htensor (zero : Int) :
      Lowering.Setting.tensor ⟨g', lookupBits, zero⟩ =
        (Lowering.Setting.tensor ⟨g, lookupBits, zero⟩ : String → Emitter Tensor) :=
    tensor_congr (s := ⟨⟨g, lookupBits, zero⟩, w, m⟩) ht
  simp only [lowerGraph, ho, h.order_eq hc ho, hnode, htensor, h.outputs]

end Emitter

namespace Program

open Circuit

variable {g g' : Graph}

theorem lower_rearranged [Platform] (h : g.Rearranged g') (hc : g.Consistent) (name : String)
    (w : Witness) (layout : Layout) (lookupBits : Json) (m : Int) :
    lower name g' w layout lookupBits m =
      ((lower name g w layout lookupBits m).1.map fun p => { p with graph := g' },
        (lower name g w layout lookupBits m).2) := by
  unfold lower
  rw [Emitter.lowerGraph_rearranged h hc, Emitter.empty_rearranged h]
  rcases ExceptT.run (Emitter.lowerGraph g w lookupBits m) (Emitter.State.empty g layout) with
    ⟨zero, d⟩
  cases zero <;> rfl

theorem write_regraph [Platform] (p : Program) (g' : Graph) :
    MemoryTable.write { p with graph := g' } = MemoryTable.write p := rfl

theorem isPublic_congr (h : g.tensor? = g'.tensor?) :
    Assembly.isPublic g' = Assembly.isPublic g := by
  funext b
  rw [Assembly.isPublic, Assembly.isPublic, h]

section

variable {p : Program} (ht : p.graph.tensor? = g'.tensor?) (ho : p.graph.outputs = g'.outputs)

include ht ho

theorem slotLines_regraph (slot : Slot) :
    Assembly.slotLines { p with graph := g' } slot = Assembly.slotLines p slot := by
  cases slot with
  | layout | tables | body => rfl
  | pub => simp only [Assembly.slotLines, Assembly.publicLines, isPublic_congr ht]
  | outputs =>
    have hline : Assembly.outputLine? { p with graph := g' } = Assembly.outputLine? p := by
      funext id
      rw [Assembly.outputLine?, Assembly.outputLine?, ht]
    simp only [Assembly.slotLines, Assembly.outputLines, hline, ho]

theorem slotNumbers_regraph (slot : Slot) :
    Assembly.slotNumbers { p with graph := g' } slot = Assembly.slotNumbers p slot := by
  cases slot with
  | layout | tables | body => rfl
  | pub => simp only [Assembly.slotNumbers, isPublic_congr ht]
  | outputs =>
    have hline : Assembly.outputNumbers { p with graph := g' } = Assembly.outputNumbers p := by
      funext id
      rw [Assembly.outputNumbers, Assembly.outputNumbers, ht]
    simp only [Assembly.slotNumbers, hline, ho]

theorem render_regraph (skeleton : List Skeleton.Segment) :
    Assembly.render? { p with graph := g' } skeleton = Assembly.render? p skeleton := by
  have hlines : Assembly.segmentLines { p with graph := g' } = Assembly.segmentLines p := by
    funext segment
    cases segment with
    | line text => rfl
    | slot s => exact slotLines_regraph ht ho s
  have hnumbers : Assembly.segmentNumbers { p with graph := g' } = Assembly.segmentNumbers p := by
    funext segment
    cases segment with
    | line text => rfl
    | slot s => exact slotNumbers_regraph ht ho s
  rw [Assembly.render?, Assembly.render?, Assembly.render, Assembly.render, hlines, hnumbers]

end

/-- A circuit and a witness in another order are compiled alike: the witness is read alike, and a
lowering ends in the same fault or in the same program, with the same log, memory table and text. -/
theorem compile_rearranged [Platform] {doc doc' given given' : Json}
    (hd : Circuit.Rearranged doc doc') (hv : Witness.Rearranged given given')
    (hg : Circuit.read doc = .ok g) :
    ∃ g', Circuit.read doc' = .ok g' ∧
      ∀ m, Witness.read m g' given' = Witness.read m g given ∧
        ∀ name w layout lookupBits,
          lower name g' w layout lookupBits m =
            ((lower name g w layout lookupBits m).1.map fun p => { p with graph := g' },
              (lower name g w layout lookupBits m).2) ∧
          ∀ p, (lower name g w layout lookupBits m).1 = .ok p →
            MemoryTable.write { p with graph := g' } = MemoryTable.write p ∧
            ∀ skeleton, Assembly.render? { p with graph := g' } skeleton =
              Assembly.render? p skeleton := by
  obtain ⟨g', hg', hr⟩ := Circuit.read_rearranged hd hg
  have hc := (Circuit.read_ok_iff_parts.1 hg).2
  refine ⟨g', hg', fun m => ⟨(Witness.read_rearranged hr hc hv).symm, ?_⟩⟩
  intro name w layout lookupBits
  refine ⟨lower_rearranged hr hc name w layout lookupBits m, ?_⟩
  intro p hp
  obtain rfl := lower_graph hp
  exact ⟨write_regraph _ g', render_regraph (hr.tensor_eq hc) hr.outputs⟩

end Program

namespace Sample

/-- The sample with its sections and entries turned around and its input declared twice. -/
def shuffled : Json := .obj [
  ("outputs", .arr [.str "z"]),
  ("inputs", .arr [.str "x", .str "x"]),
  ("operations", .arr [
    .obj [("id", .int 2), ("kind", .str "relu"), ("inputs", .arr [.str "y"]),
      ("output", .str "z")],
    .obj [("id", .int 1), ("kind", .str "mul"), ("inputs", .arr [.str "x", .str "k"]),
      ("output", .str "y")]]),
  ("tensors", .arr [
    .obj [("id", .str "z"), ("shape", .arr [.int 1])],
    .obj [("id", .str "y"), ("shape", .arr [.int 1])],
    .obj [("id", .str "k"), ("shape", .arr [.int 1]), ("visibility", .str "fixed")],
    .obj [("id", .str "x"), ("shape", .arr [.int 1]), ("scale", .int 1)]])]

def shuffledValues : Json :=
  .obj [("z", .arr [.int 3]), ("y", .arr [.int 3]), ("k", .arr [.int 3]), ("x", .arr [.int 2])]

theorem rearranged : Circuit.Rearranged circuit shuffled :=
  ⟨⟨_, _, rfl, rfl, (List.reverse_perm _).symm⟩, ⟨_, _, rfl, rfl, (List.reverse_perm _).symm⟩,
    ⟨_, _, rfl, rfl, by simp⟩, rfl⟩

theorem values_rearranged : Witness.Rearranged values shuffledValues := by
  apply Witness.Rearranged.fields
  · decide
  · exact (List.reverse_perm _).symm

end Sample

theorem Program.sample_shuffled :
    Circuit.Rearranged Sample.circuit Sample.shuffled ∧
    Witness.Rearranged Sample.values Sample.shuffledValues ∧
    ∃ g' p, Circuit.read Sample.shuffled = .ok g' ∧
      Witness.read Field.defaultModulus g' Sample.shuffledValues = .ok Sample.witness ∧
      (lower "sample" Sample.graph Sample.witness default (.int 3) Field.defaultModulus).1
        = .ok p ∧
      (lower "sample" g' Sample.witness default (.int 3) Field.defaultModulus).1
        = .ok { p with graph := g' } := by
  obtain ⟨g', hg', h⟩ := compile_rearranged Sample.rearranged Sample.values_rearranged
    Sample.read_circuit
  obtain ⟨hw, hl⟩ := h Field.defaultModulus
  obtain ⟨p, hp⟩ := Sample.lowers
  refine ⟨Sample.rearranged, Sample.values_rearranged, g', p, hg', hw.trans Sample.read_values,
    hp, ?_⟩
  rw [(hl "sample" Sample.witness default (.int 3)).1, hp]
  rfl

end TensorAsm
