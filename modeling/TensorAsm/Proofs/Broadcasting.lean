import TensorAsm.Proofs.Convolution
import TensorAsm.Proofs.Refusals
import TensorAsm.Proofs.WitnessFaults
/-!
Broadcasting. Two shapes are aligned at their ends, and a dimension that is one or missing gives way
to the other. An elementwise operation is refused for its shapes just if its output is declared with
another shape than this.
-/

namespace TensorAsm

namespace Shape

/-- The dimension at a place counted from the end, which is one where there is none. -/
def fromEnd (shape : List Nat) (i : Nat) : Nat := shape.reverse.getD i 1

/-- Two shapes and the one that both are stretched to. -/
structure Broadcasts (a b whole : List Nat) : Prop where
  rank : whole.length = max a.length b.length
  agree : ∀ i, fromEnd a i = fromEnd b i ∨ fromEnd a i = 1 ∨ fromEnd b i = 1
  taken : ∀ i, fromEnd whole i = if fromEnd a i = 1 then fromEnd b i else fromEnd a i

/-- The element that stands for an index of the whole: the indices are aligned at their ends, and a
dimension of one has only the first place. -/
def aligned (shape index : List Nat) : List Nat :=
  (List.range shape.length).map fun i =>
    if shape.getD i 0 = 1 then 0 else index.getD (index.length - shape.length + i) 0

theorem project_eq_aligned {shape index : List Nat} (h : shape.length ≤ index.length) :
    project shape index = aligned shape index := by
  unfold project aligned
  apply List.ext_getElem
  · simp
    omega
  · intro i hi hi'
    have hlt : i < shape.length := by simpa using hi'
    have hin : index.length - shape.length + i < index.length := by omega
    simp [hlt, hin]

theorem Stretches.project_eq {shape whole index : List Nat} (h : Stretches shape whole)
    (hi : index ∈ indices whole) : project shape index = aligned shape index := by
  obtain ⟨front, back, rfl, hall⟩ := h
  apply project_eq_aligned
  rw [length_of_mem_indices hi, List.length_append, hall.length_eq]
  omega

theorem join_eq_some {a b d : Nat} :
    join? a b = some d ↔ (a = b ∨ a = 1 ∨ b = 1) ∧ d = if a = 1 then b else a := by
  unfold join?
  split
  · simp only [Option.some.injEq]
    split <;> omega
  · split
    · simp only [Option.some.injEq]
      omega
    · simp only [reduceCtorEq, false_iff, not_and]
      omega

theorem join_one_left (b : Nat) : join? 1 b = some b := by
  simp [join_eq_some]

theorem join_one_right (a : Nat) : join? a 1 = some a := by
  simp [join_eq_some]

theorem eq_of_getD {as bs : List Nat} (hl : as.length = bs.length)
    (h : ∀ i, as.getD i 1 = bs.getD i 1) : as = bs := by
  apply List.ext_getElem hl
  intro i hi hi'
  simpa [hi, hi'] using h i

theorem broadcastReversed_eq_some {as bs ds : List Nat} :
    broadcastReversed? as bs = some ds ↔ ds.length = max as.length bs.length ∧
      ∀ i, join? (as.getD i 1) (bs.getD i 1) = some (ds.getD i 1) := by
  induction as generalizing bs ds with
  | nil =>
    simp only [broadcastReversed?, List.getD_nil, join_one_left, Option.some.injEq,
      List.length_nil, Nat.zero_max]
    exact ⟨fun h => h ▸ ⟨rfl, fun _ => rfl⟩, fun h => eq_of_getD h.1.symm h.2⟩
  | cons a as ih =>
    cases bs with
    | nil =>
      simp only [broadcastReversed?, List.getD_nil, join_one_right, Option.some.injEq,
        List.length_nil, Nat.max_zero]
      exact ⟨fun h => h ▸ ⟨rfl, fun _ => rfl⟩, fun h => eq_of_getD h.1.symm h.2⟩
    | cons b bs =>
      rw [broadcastReversed?]
      constructor
      · intro h
        split at h
        · next d rest hd hr =>
            obtain rfl := Option.some.inj h
            obtain ⟨hlen, hall⟩ := ih.1 hr
            refine ⟨by simp [hlen, Nat.add_max_add_right], fun i => ?_⟩
            cases i with
            | zero => simpa using hd
            | succ i => simpa using hall i
        · exact absurd h (by simp)
      · rintro ⟨hlen, hall⟩
        cases ds with
        | nil => simp at hlen
        | cons d rest =>
          have hd : join? a b = some d := by simpa using hall 0
          have hr : broadcastReversed? as bs = some rest := by
            refine ih.2 ⟨?_, fun i => by simpa using hall (i + 1)⟩
            simp only [List.length_cons] at hlen
            omega
          rw [hd, hr]

theorem broadcast_eq_some {a b whole : List Nat} :
    broadcast? a b = some whole ↔ Broadcasts a b whole ∧ (wordProduct? whole).isSome := by
  have hrev : broadcastReversed? a.reverse b.reverse = some whole.reverse ↔
      Broadcasts a b whole := by
    rw [broadcastReversed_eq_some]
    simp only [join_eq_some, List.length_reverse]
    exact ⟨fun h => ⟨h.1, fun i => (h.2 i).1, fun i => (h.2 i).2⟩,
      fun h => ⟨h.rank, fun i => ⟨h.agree i, h.taken i⟩⟩⟩
  rw [← hrev, broadcast?]
  cases broadcastReversed? a.reverse b.reverse with
  | none => simp
  | some ds =>
    simp only [Option.ite_none_right_eq_some, Option.some.injEq]
    constructor
    · rintro ⟨hw, rfl⟩
      exact ⟨by simp, hw⟩
    · rintro ⟨rfl, hw⟩
      exact ⟨by simpa using hw, by simp⟩

end Shape

namespace Lowering

def Arithmetic.kind : Arithmetic → Circuit.Kind
  | .add => .add
  | .sub => .sub
  | .mul => .mul

end Lowering

namespace Emitter

open Lowering Stateful

/-- If the request fails, then with a fault of this kind. -/
abbrev FailsWithin {α : Type} (F : Fault → Prop) (x : Emitter α) (Q : α → Prop) : Prop :=
  x.Meets (fun _ => True) F Q

/-- A fault that is neither about shapes nor about values. -/
structure Technical (f : Fault) : Prop where
  not_shape : ∀ e, f ≠ .compile (.shape e)
  not_witness : ∀ gap, f ≠ .compile (.witness gap)

theorem place_technical {a : Allocator} {r : Region} {size : Int} {name : String} {kind : BlockKind}
    {bind : Allocator → Allocation → Allocator} {f : Fault}
    (h : (a.place r size name kind bind).1 = .error f) : Technical f := by
  unfold Allocator.place at h
  split at h
  · exact absurd h (by simp)
  · obtain rfl := Except.error.inj h
    exact ⟨by simp, by simp⟩

theorem allocate_technical {a : Allocator} {t : Circuit.Tensor} {f : Fault}
    (h : (a.allocate t).1 = .error f) : Technical f := by
  unfold Allocator.allocate Allocator.allocateSized at h
  split at h
  · exact absurd h (by simp)
  split at h
  · exact place_technical h
  · obtain rfl := Except.error.inj h
    exact ⟨by simp, by simp⟩

theorem value_technical [Platform] {a : Operand} {i : Nat} {f : Fault} (h : a.value? i = .error f) :
    Technical f := by
  unfold Operand.value? Witness.Entry.get? at h
  split at h
  · exact absurd h (by simp)
  · obtain rfl := Except.error.inj h
    exact ⟨by simp, by simp⟩
  · next hget =>
      obtain rfl := Except.error.inj h
      split at hget
      · exact absurd hget (by simp)
      split at hget
      · exact absurd hget (by simp)
      · obtain rfl := Except.error.inj hget
        exact ⟨by simp, by simp⟩

section

variable {α : Type} {Q : α → Prop} {F : Fault → Prop} {s : Setting} {o : Circuit.Operation}

theorem FailsWithin.not_fails {x : Emitter α} (h : FailsWithin F x Q) {d d' : State} {f : Fault}
    (hf : ¬F f) : ¬x.Fails d f d' := by
  intro hx
  have hmeets := (h d trivial).2
  rw [show _ = _ from hx] at hmeets
  exact hf hmeets

theorem within_request {ask : Allocator → Allocator.Reply}
    (h : ∀ a f, (ask a).1 = .error f → F f) : FailsWithin F (request ask) fun _ => True := by
  refine Meets.bind meets_get fun d _ => ?_
  refine Meets.bind (P := fun _ => True) (fun _ _ => ⟨trivial, trivial⟩) fun _ _ => ?_
  exact (meets_ofExcept fun f hf => h d.allocator f hf).imp fun _ _ => trivial

theorem within_record {address value : Int} (h : ¬Field.Fits s.modulus value →
      F (.compile (.witness (.derivedUnfit o.id (bitLength value) address)))) :
    FailsWithin F (record s o address value) fun _ => True := by
  have hkeep : FailsWithin F (modify fun d : State =>
      { d with derived := d.derived.insert address value }) fun _ => True :=
    meets_modify fun _ _ => trivial
  unfold record
  split
  · next hfit => exact Meets.bind (meets_throw (Q := fun _ => True) (h hfit)) fun _ _ => hkeep
  · exact hkeep

-- all that is left is technical

variable (hF : ∀ f, Technical f → F f)
include hF

theorem within_tensor {t : Circuit.Tensor} : FailsWithin F (tensor t) fun _ => True :=
  within_request fun _ _ h => hF _ (allocate_technical h)

theorem within_checkWritten {ns : List Int} : FailsWithin F (checkWritten ns) fun _ => True :=
  meets_checkWritten fun _ _ _ => hF _ ⟨by simp, by simp⟩

theorem within_scratch {purpose : String} {size : Int} :
    FailsWithin F (scratch o purpose size) fun _ => True := by
  apply Meets.bind (within_checkWritten hF)
  intro _ _
  apply Meets.bind (within_request fun a f h => hF f (place_technical h))
  exact fun _ _ => meets_pure trivial

theorem within_emit {ns : List Int} {step : Step} : FailsWithin F (emit o ns step) fun _ => True :=
  (within_checkWritten hF).bind fun _ _ => meets_modify fun _ _ => trivial

theorem within_value [Platform] {a : Operand} {i : Nat} :
    FailsWithin F (MonadExcept.ofExcept (a.value? i)) fun v => a.value? i = .ok v :=
  meets_ofExcept fun _ h => hF _ (value_technical h)

theorem within_moved [Platform] {v shift : Int} :
    FailsWithin F (MonadExcept.ofExcept (Quantity.rescale? v shift)) fun r =>
      Quantity.rescale? v shift = .ok r := by
  refine meets_ofExcept fun f h => hF f ?_
  rcases Quantity.rescale?_error h with rfl | rfl <;> exact ⟨by simp, by simp⟩

theorem within_size {t : Circuit.Tensor} : FailsWithin F (size t) fun _ => True := by
  refine (meets_ofExcept fun f h => hF f ?_).imp fun _ _ => trivial
  unfold Circuit.Tensor.size? at h
  split at h
  · exact absurd h (by simp)
  · obtain rfl := Except.error.inj h
    exact ⟨by simp, by simp⟩

theorem within_checkAxes [Platform] {shape : List Nat} :
    FailsWithin F (checkAxes shape) fun _ => True := by
  unfold checkAxes
  split
  · exact meets_throw (hF _ ⟨by simp, by simp⟩)
  · exact meets_pure trivial

theorem within_checkCountable [Platform] {shape : List Nat} :
    FailsWithin F (checkCountable shape) fun _ => True := by
  unfold checkCountable
  split
  · exact meets_throw (hF _ ⟨by simp, by simp⟩)
  · exact meets_pure trivial

theorem within_rescaled [Platform] {a : Operand} {target : Int} {purpose : String}
    (h : ∀ i v r, a.value? i = .ok v → Quantity.rescale? v (a.scale - target) = .ok r →
      ¬Field.Fits s.modulus r →
      ∀ address, F (.compile (.witness (.derivedUnfit o.id (bitLength r) address)))) :
    FailsWithin F (rescaled s o a target purpose) fun _ => True := by
  unfold rescaled
  split
  · exact meets_pure trivial
  apply Meets.bind (within_size hF)
  intro n _
  apply Meets.bind (within_scratch hF)
  intro base _
  refine Meets.bind (P := fun _ => True) (meets_mapM fun i _ => ?_) fun _ _ => meets_pure trivial
  apply Meets.bind (within_value hF)
  intro v hv
  apply Meets.bind (within_moved hF)
  intro r hr
  apply Meets.bind (within_emit hF)
  intro _ _
  apply Meets.bind (within_record fun hfit => h i v r hv hr hfit _)
  exact fun _ _ => meets_pure trivial

end

/-- The request does not end in a complaint about shapes. -/
abbrev Spares {α : Type} (x : Emitter α) (Q : α → Prop) : Prop :=
  FailsWithin (fun f => ∀ e, f ≠ .compile (.shape e)) x Q

theorem spares_rescaled [Platform] {s : Setting} {o : Circuit.Operation} {a : Operand}
    {target : Int} {purpose : String} : Spares (rescaled s o a target purpose) fun _ => True :=
  within_rescaled (fun _ => Technical.not_shape) fun _ _ _ _ _ _ _ => by simp

theorem spares_element [Platform] {s : Setting} {o : Circuit.Operation} {op : Arithmetic}
    {a b : Operand} {shape index : List Nat} {t : Target} :
    Spares (element s o op a b shape t index) fun _ => True := by
  apply Meets.bind (within_emit fun _ => Technical.not_shape)
  intro _ _
  split
  · apply Meets.bind (within_value fun _ => Technical.not_shape)
    intro _ _
    apply Meets.bind (within_value fun _ => Technical.not_shape)
    intro _ _
    apply Meets.bind (within_record fun _ => by simp)
    exact fun _ _ => within_emit fun _ => Technical.not_shape
  · exact meets_pure trivial

def binaryOperands (s : Setting) (x y : Circuit.Tensor) : Emitter (Operand × Operand) := do
  let x ← operand s x.id
  let y ← operand s y.id
  return (x, y)

section

variable {s : Setting} {o : Circuit.Operation} {op : Arithmetic} {x y t : Circuit.Tensor}

theorem spares_output (h : s.graph.tensor? o.output = some t) :
    Spares (output s o) fun _ => True := by
  rw [output, tensor_eq h]
  exact (within_tensor fun _ => Technical.not_shape).bind fun _ _ => meets_pure trivial

variable (hw : s.witness.Complete s.modulus s.graph) (ho : o ∈ s.graph.operations)
include hw ho

theorem spares_operand (h : s.graph.tensor? x.id = some x) (hi : x.id ∈ o.inputs) :
    Spares (operand s x.id) fun v => v.tensor = x := by
  obtain ⟨values, hv⟩ := operand_eq hw ho h hi
  rw [hv]
  exact (within_tensor fun _ => Technical.not_shape).bind fun _ _ => meets_pure rfl

theorem lowerBinary_spares [Platform] (hops : HasOperands s.graph o [x, y])
    (ht : s.graph.tensor? o.output = some t)
    (hb : Shape.broadcast? x.shape y.shape = some t.shape) :
    Spares (lowerBinary s o op) fun _ => True := by
  have hin : o.inputs = [x.id, y.id] := hops.inputs
  have hx := hops.declared x (by simp)
  have hy := hops.declared y (by simp)
  have helements {op : Arithmetic} {a b : Operand} {t' : Target} :
      Spares (do
        checkCountable t.shape
        (Shape.indices t.shape).forM (element s o op a b t.shape t')) fun _ => True :=
    (within_checkCountable fun _ => Technical.not_shape).bind fun _ _ =>
      meets_forM fun _ _ => spares_element
  unfold lowerBinary
  rw [hin]
  dsimp only
  apply Meets.bind (spares_operand hw ho hx (by simp [hin]))
  intro a ha
  apply Meets.bind (spares_operand hw ho hy (by simp [hin]))
  intro b hb'
  rw [tensor_eq ht, pure_bind]
  apply Meets.bind (within_checkAxes fun _ => Technical.not_shape)
  intro _ _
  apply Meets.bind (within_checkAxes fun _ => Technical.not_shape)
  intro _ _
  rw [Lowering.Operand.shape, Lowering.Operand.shape, ha, hb', hb]
  dsimp only
  rw [Lowering.Setting.checkOutput, tensor_eq ht, pure_bind, if_neg (by simp), pure_bind]
  split
  · apply Meets.bind (spares_output ht)
    intro output _
    split
    · rw [pure_bind]
      exact helements
    · apply Meets.bind (within_size fun _ => Technical.not_shape)
      intro _ _
      apply Meets.bind (within_scratch fun _ => Technical.not_shape)
      exact fun _ _ => helements
  · apply Meets.bind spares_rescaled
    intro _ _
    apply Meets.bind spares_rescaled
    intro _ _
    apply Meets.bind (spares_output ht)
    exact fun _ _ => helements

theorem binaryOperands_spares (hops : HasOperands s.graph o [x, y]) :
    Spares (binaryOperands s x y) fun _ => True := by
  have hin : o.inputs = [x.id, y.id] := hops.inputs
  apply Meets.bind (spares_operand hw ho (hops.declared x (by simp)) (by simp [hin]))
  intro a _
  apply Meets.bind (spares_operand hw ho (hops.declared y (by simp)) (by simp [hin]))
  exact fun _ _ => meets_pure trivial

theorem lowerBinary_mismatch [Platform] (op : Arithmetic) (hops : HasOperands s.graph o [x, y])
    (ht : s.graph.tensor? o.output = some t) (hrx : x.shape.length ≤ Platform.axisLimit)
    (hry : y.shape.length ≤ Platform.axisLimit)
    (hb : Shape.broadcast? x.shape y.shape ≠ some t.shape) :
    ∃ complaint, lowerBinary s o op = (do
      let _ ← binaryOperands s x y
      mismatch o [x.shape, y.shape] t.shape complaint) := by
  have hin : o.inputs = [x.id, y.id] := hops.inputs
  obtain ⟨_, hx⟩ := operand_eq hw ho (hops.declared x (by simp)) (by simp [hin])
  obtain ⟨_, hy⟩ := operand_eq hw ho (hops.declared y (by simp)) (by simp [hin])
  rw [lowerBinary, hin]
  cases hwhole : Shape.broadcast? x.shape y.shape with
  | none =>
    refine ⟨.notBroadcastable, ?_⟩
    simp [binaryOperands, hx, hy, tensor_eq ht, Lowering.Operand.shape, checkAxes, hrx.not_gt,
      hry.not_gt, hwhole]
  | some whole =>
    refine ⟨.expected whole, ?_⟩
    have hne : t.shape ≠ whole := fun h => hb (h ▸ hwhole)
    simp [binaryOperands, hx, hy, tensor_eq ht, Lowering.Operand.shape, checkAxes, hrx.not_gt,
      hry.not_gt, hwhole, Lowering.Setting.checkOutput, hne, mismatch_bind]

/-- An elementwise operation is refused for its shapes just if its operands can be placed and its
output is declared with another shape than they are stretched to. -/
theorem lowerBinary_shape_iff [Platform] (hops : HasOperands s.graph o [x, y])
    (ht : s.graph.tensor? o.output = some t) (hword : (Shape.wordProduct? t.shape).isSome)
    (hrx : x.shape.length ≤ Platform.axisLimit) (hry : y.shape.length ≤ Platform.axisLimit)
    (d : State) :
    (∃ e d', (lowerBinary s o op).Fails d (.compile (.shape e)) d') ↔
      (∃ v d', (binaryOperands s x y).Yields d v d') ∧
        ¬Shape.Broadcasts x.shape y.shape t.shape := by
  constructor
  · rintro ⟨e, d', hf⟩
    have hbad : ¬Shape.Broadcasts x.shape y.shape t.shape := fun hb =>
      (lowerBinary_spares hw ho hops ht (Shape.broadcast_eq_some.2 ⟨hb, hword⟩)).not_fails
        (by simp) hf
    refine ⟨?_, hbad⟩
    obtain ⟨complaint, heq⟩ := lowerBinary_mismatch hw ho op hops ht hrx hry
      fun hb => hbad (Shape.broadcast_eq_some.1 hb).1
    rcases yields_or_fails (binaryOperands s x y) d with hy | ⟨f, d'', hf'⟩
    · exact hy
    · have hboth : (lowerBinary s o op).Fails d f d'' := by
        rw [heq]
        exact hf'.bind
      obtain ⟨rfl, rfl⟩ : f = .compile (.shape e) ∧ d'' = d' := by
        have := hboth.symm.trans hf
        simpa using this
      exact absurd hf' ((binaryOperands_spares hw ho hops).not_fails (by simp))
  · rintro ⟨⟨v, d', hy⟩, hbad⟩
    obtain ⟨complaint, heq⟩ := lowerBinary_mismatch hw ho op hops ht hrx hry
      fun hb => hbad (Shape.broadcast_eq_some.1 hb).1
    refine ⟨⟨o.id, o.kind, [x.shape, y.shape], t.shape, complaint⟩, d', ?_⟩
    rw [heq]
    exact hy.bind_fails rfl

end

end Emitter

end TensorAsm
