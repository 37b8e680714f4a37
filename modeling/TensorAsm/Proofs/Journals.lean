import TensorAsm.Proofs.Refinement
/-!
The journal of an outline only grows, however its requests end.
-/

namespace TensorAsm.Lowering

open Emit Stateful
open Emitter (Neutral)

variable {s : Setting} {o : Circuit.Operation} {j : List Event}

theorem continues_guard {α : Type} {c : Prop} [Decidable c] {x : Emit Unit}
    {f : Unit → Emit α} (hx : x.Continues j) (hf : ∀ u, (f u).Continues j) :
    (if c then x >>= f else f ()).Continues j := by
  split
  · exact hx.bind fun u _ => hf u
  · exact hf ()

theorem continues_note (e : Event) : (note e).Continues j :=
  meets_modify fun _ hd => hd.trans (List.prefix_append _ _)

theorem continues_request (ask : Allocator → Allocator.Reply) : (request ask).Continues j := by
  intro d hd
  rw [run_request]
  refine ⟨hd.trans (List.prefix_append _ _), ?_⟩
  cases (ask d.allocator).1 <;> trivial

theorem continues_operand (id : String) : (s.operand id).Continues j :=
  ((Neutral.tensor s id).continues j).bind fun _ _ =>
    (continues_request _).bind fun _ _ => meets_pure trivial

theorem continues_output : (s.output o).Continues j :=
  ((Neutral.tensor s o.output).continues j).bind fun _ _ =>
    (continues_request _).bind fun _ _ => meets_pure trivial

theorem continues_scratch {purpose : String} {size : Int} :
    (Emit.scratch o purpose size).Continues j :=
  ((Neutral.checkWritten _).continues j).bind fun _ _ =>
    (continues_request _).bind fun _ _ => meets_pure trivial

theorem continues_table [Platform] (spec : Table.Spec) : (Emit.table spec).Continues j := by
  refine meets_get.bind fun _ _ => ?_
  split
  · exact meets_pure trivial
  refine ((Neutral.ofExcept _).continues j).bind fun rows _ => ?_
  refine (continues_request _).bind fun address _ => ?_
  refine Meets.bind (meets_modify fun _ hd => hd) fun _ _ => ?_
  exact ((Neutral.checkWritten _).continues j).bind fun _ _ =>
    (continues_note _).bind fun _ _ => meets_pure trivial

theorem continues_commented {ns : List Int} {steps : List Step} :
    (Emit.commented o ns steps).Continues j := by
  have hsteps : (Emit.steps o steps).Continues j :=
    Meets.bind (meets_modify fun _ hd => hd) fun _ _ => continues_note _
  unfold Emit.commented
  exact continues_guard ((Neutral.checkWritten _).continues j) fun _ => hsteps

theorem continues_breakOff {t : Target} {start : List Step} :
    (breakOff o t start).Continues j := by
  refine continues_commented.bind fun _ _ => ?_
  split
  · exact (Neutral.checkWritten _).continues j
  · exact meets_pure trivial

theorem continues_rescaled [Platform] {a : Operand} {target : Int} {purpose : String} :
    (rescaled o a target purpose).Continues j := by
  unfold rescaled
  split
  · exact meets_pure trivial
  refine ((Neutral.size _).continues j).bind fun n _ => ?_
  refine continues_scratch.bind fun base _ => ?_
  dsimp only
  split
  · exact meets_pure trivial
  refine ((Neutral.checkAxes _).continues j).bind fun _ _ => ?_
  exact continues_guard (continues_note _) fun _ =>
    continues_commented.bind fun _ _ => meets_pure trivial

theorem continues_written {t : Target} {steps start : List Step} :
    (if t.isWritten then Emit.commented o [] steps else breakOff o t start).Continues j := by
  split
  · exact continues_commented
  · exact continues_breakOff

theorem continues_lowerBinary [Platform] {op : Arithmetic} : (lowerBinary s o op).Continues j := by
  unfold lowerBinary
  split
  case h_2 => exact (Neutral.wrongCount o _).continues j
  refine (continues_operand _).bind fun a _ => (continues_operand _).bind fun b _ => ?_
  refine ((Neutral.tensor s _).continues j).bind fun declared _ => ?_
  refine ((Neutral.checkAxes _).continues j).bind fun _ _ => ?_
  refine ((Neutral.checkAxes _).continues j).bind fun _ _ => ?_
  split
  case h_2 => exact (Neutral.mismatch o _ _ _).continues j
  refine ((Neutral.checkOutput s o _ _).continues j).bind fun _ _ => ?_
  have hcount (shape : List Nat) := (Neutral.checkCountable shape).continues j
  split
  · refine continues_output.bind fun output _ => ?_
    dsimp only
    split
    · exact (meets_pure (Q := fun _ => True) trivial).bind fun _ _ =>
        (hcount _).bind fun _ _ => continues_written
    · exact ((Neutral.size _).continues j).bind fun _ _ => continues_scratch.bind fun _ _ =>
        (hcount _).bind fun _ _ => continues_written
  · refine continues_rescaled.bind fun _ _ => continues_rescaled.bind fun _ _ => ?_
    exact continues_output.bind fun _ _ => (hcount _).bind fun _ _ => continues_commented

theorem continues_lowerUnary [Platform] {negate : Bool} : (lowerUnary s o negate).Continues j := by
  unfold lowerUnary
  split
  case h_2 => exact (Neutral.wrongCount o _).continues j
  refine (continues_operand _).bind fun a _ => ?_
  refine ((Neutral.checkOutput s o _ _).continues j).bind fun _ _ => ?_
  refine continues_rescaled.bind fun _ _ => continues_output.bind fun _ _ => ?_
  exact ((Neutral.size _).continues j).bind fun _ _ => continues_commented

theorem continues_lowerReduction {shape : List Nat} {terms : List (List Term)} {natural : Int} :
    (lowerReduction s o shape terms natural).Continues j := by
  unfold lowerReduction
  split
  · exact continues_output.bind fun _ _ => meets_pure trivial
  dsimp only
  split
  · refine Meets.bind (meets_mapM fun id _ => ?_) fun _ _ =>
      ((Neutral.mismatch o _ _ _).continues j).bind fun _ _ => ?_
    · exact ((Neutral.tensor s id).continues j).bind fun _ _ => meets_pure trivial
    · refine continues_output.bind fun _ _ => ?_
      refine Meets.ite_bind continues_scratch (meets_pure trivial) fun _ _ => ?_
      exact Meets.ite_bind (meets_pure trivial) continues_scratch fun _ _ => continues_written
  refine continues_output.bind fun _ _ => ?_
  refine Meets.ite_bind continues_scratch (meets_pure trivial) fun _ _ => ?_
  exact Meets.ite_bind (meets_pure trivial) continues_scratch fun _ _ => continues_written

theorem continues_lowerMatmul [Platform] : (lowerMatmul s o).Continues j := by
  unfold lowerMatmul
  split
  case h_2 => exact (Neutral.wrongCount o _).continues j
  refine (continues_operand _).bind fun a _ => (continues_operand _).bind fun b _ => ?_
  refine ((Neutral.tensor s _).continues j).bind fun declared _ => ?_
  split
  case h_2 => exact (Neutral.mismatch o _ _ _).continues j
  refine ((Neutral.checkOutput s o _ _).continues j).bind fun _ _ => ?_
  exact ((Neutral.checkCountable _).continues j).bind fun _ _ => continues_lowerReduction

theorem continues_lowerDot : (lowerDot s o).Continues j := by
  have hrest (x y : Operand) : (do
      let shape ← scalarShape s o [x.shape, y.shape]
      lowerReduction s o shape (dotTerms x y (← size x.tensor).toNat)
        (x.scale + y.scale)).Continues j :=
    ((Neutral.scalarShape s o _).continues j).bind fun _ _ =>
      ((Neutral.size _).continues j).bind fun _ _ => continues_lowerReduction
  unfold lowerDot
  split
  case h_2 => exact (Neutral.wrongCount o _).continues j
  refine (continues_operand _).bind fun a _ => (continues_operand _).bind fun b _ => ?_
  dsimp only
  split
  · exact ((Neutral.tensor s _).continues j).bind fun _ _ =>
      ((Neutral.mismatch o _ _ _).continues j).bind fun _ _ => hrest a b
  · exact hrest a b

theorem continues_lowerSum [Platform] : (lowerSum s o).Continues j := by
  unfold lowerSum
  split
  case h_2 => exact (Neutral.wrongCount o _).continues j
  refine (continues_operand _).bind fun a _ => ?_
  refine ((Neutral.scalarShape s o _).continues j).bind fun _ _ => ?_
  refine ((Neutral.size _).continues j).bind fun _ _ => ?_
  exact continues_guard ((Neutral.checkAxes _).continues j) fun _ => continues_lowerReduction

theorem continues_lowerConv [Platform] : (lowerConv s o).Continues j := by
  unfold lowerConv
  split
  case h_2 => exact (Neutral.wrongCount o _).continues j
  refine continues_guard ((Neutral.wrongCount o _).continues j) fun _ => ?_
  refine (continues_operand _).bind fun x _ => (continues_operand _).bind fun w _ => ?_
  refine ((Neutral.tensor s _).continues j).bind fun declared _ => ?_
  refine continues_guard ((Neutral.mismatch o _ _ _).continues j) fun _ => ?_
  refine ((Neutral.convPair o _ _).continues j).bind fun stride _ => ?_
  refine ((Neutral.convPair o _ _).continues j).bind fun pad _ => ?_
  refine continues_guard ((Neutral.refuse _).continues j) fun _ => ?_
  split
  case h_2 => exact (Neutral.mismatch o _ _ _).continues j
  next c _ =>
  refine continues_guard ((Neutral.mismatch o _ _ _).continues j) fun _ => ?_
  have hrest (shapes : List (List Nat)) (bias : Option Operand) : (do
      s.checkOutput o shapes c.outShape
      checkWindow c
      lowerReduction s o c.outShape (c.terms s.zero x w bias) (x.scale + w.scale)).Continues j :=
    ((Neutral.checkOutput s o _ _).continues j).bind fun _ _ =>
      ((Neutral.checkWindow c).continues j).bind fun _ _ => continues_lowerReduction
  split
  · exact hrest _ none
  · refine (continues_operand _).bind fun b _ => ?_
    refine continues_guard ((Neutral.mismatch o _ _ _).continues j) fun _ => ?_
    exact continues_rescaled.bind fun b _ => hrest _ (some b)

theorem continues_lowerLookup [Platform] : (lowerLookup s o).Continues j := by
  unfold lowerLookup
  split
  case h_2 => exact (Neutral.wrongCount o _).continues j
  refine (continues_operand _).bind fun a _ => ?_
  refine ((Neutral.checkOutput s o _ _).continues j).bind fun _ _ => ?_
  refine ((Neutral.ofExcept _).continues j).bind fun spec _ => ?_
  refine (continues_table spec).bind fun table _ => continues_output.bind fun _ _ => ?_
  exact ((Neutral.size _).continues j).bind fun _ _ => continues_commented

theorem continues_lowerRescale [Platform] : (lowerRescale s o).Continues j := by
  unfold lowerRescale
  split
  case h_2 => exact (Neutral.wrongCount o _).continues j
  refine (continues_operand _).bind fun a _ => ?_
  refine ((Neutral.checkOutput s o _ _).continues j).bind fun _ _ => ?_
  refine ((Neutral.clampBounds o).continues j).bind fun bounds _ => ?_
  refine continues_output.bind fun output _ => ((Neutral.size _).continues j).bind fun _ _ => ?_
  dsimp only
  split
  · exact continues_commented
  · exact continues_rescaled.bind fun _ _ => continues_commented

theorem continues_lowerKind [Platform] (kind : Circuit.Kind) :
    (lowerKind s o kind).Continues j := by
  cases kind <;> rw [lowerKind]
  case add | sub | mul => exact continues_lowerBinary
  case neg | identity => exact continues_lowerUnary
  case matmul => exact continues_lowerMatmul
  case dot => exact continues_lowerDot
  case conv => exact continues_lowerConv
  case sum => exact continues_lowerSum
  case rescale => exact continues_lowerRescale
  all_goals exact continues_lowerLookup

theorem continues_finish : (Emit.finish o).Continues j :=
  meets_get.bind fun _ _ => Meets.bind (meets_modify fun _ hd => hd) fun _ _ => continues_note _

theorem continues_lowerNode [Platform] (s : Setting) (o : Circuit.Operation) :
    (lowerNode s o).Continues j := by
  unfold lowerNode
  split
  · exact meets_throw trivial
  · exact Meets.bind (meets_modify fun _ hd => hd) fun _ _ =>
      (continues_lowerKind _).bind fun _ _ => continues_finish

end TensorAsm.Lowering
