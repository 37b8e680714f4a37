import TensorAsm.Proofs.Numerals
import TensorAsm.Proofs.Scopes
/-!
What is written about operations, tables and elements stays on one line, if the names of tensors do.
-/

namespace TensorAsm

open Text

theorem oneLine_natText (n : Nat) : OneLine (natText n).toList := Numeral.oneLine_write n

namespace Circuit

theorem oneLine_kind {o : Operation} {k : Kind} (h : o.kind? = some k) : OneLine o.kind.toList := by
  have hk : k.name = o.kind := by simpa using List.find?_some h
  rw [← hk]
  cases k <;> decide

/-- The names in an operation stay on one line. -/
structure Operation.OneLined (o : Operation) : Prop where
  kind : OneLine o.kind.toList
  output : OneLine o.output.toList
  inputs : ∀ id ∈ o.inputs, OneLine id.toList

end Circuit

namespace Table

theorem oneLine_points (ps : List Point) : OneLine (Point.listText ps).toList := by
  have hp (p : Point) : OneLine p.text.toList := by
    simp [Point.text, isBreak, Decimal.oneLine_write]
  have hb (ps : List Point) : OneLine (Json.bracketed "(" (ps.map Point.text) ")").toList := by
    simp only [Json.bracketed, String.toList_append, String.toList_intercalate, oneLine_append,
      List.map_map]
    refine ⟨⟨by decide, oneLine_intercalate (by decide) fun l hl => ?_⟩, by decide⟩
    obtain ⟨p, -, rfl⟩ := List.mem_map.1 hl
    exact hp p
  unfold Point.listText
  split
  · next p => simp [isBreak, hp]
  · exact hb _

theorem oneLine_function [Platform] {s : Spec} {rows : List Row} (h : fold s = .ok rows) :
    OneLine s.function.toList := by
  unfold fold at h
  split at h
  · simp at h
  split at h
  · simp at h
  split at h
  · next hr => rw [beq_iff_eq.1 hr]; decide
  · unfold foldReal realFunction? function? at h
    split at h
    · simp at h
    · next f hf =>
        split at hf
        iterate 4 · next he => rw [he]; decide
        · simp at hf

theorem oneLine_describe [Platform] {s : Spec} {rows : List Row} (h : fold s = .ok rows) :
    OneLine s.describe.toList := by
  have hf := oneLine_function h
  unfold Spec.describe
  cases s.alpha <;> cases s.breakpoints <;>
    simp [isBreak, hf, Decimal.oneLine_write, oneLine_points]

end Table

namespace Lowering

section

variable {o : Circuit.Operation} {s : Step}

theorem oneLine_nodeLabel (o : Circuit.Operation) : OneLine (nodeLabel o).toList := by
  simp [nodeLabel, isBreak]

theorem oneLine_indexText (index : List Nat) : OneLine (indexText index).toList := by
  simp only [indexText, String.toList_append, String.toList_intercalate, oneLine_append,
    List.map_map]
  refine ⟨⟨by decide, oneLine_intercalate (by decide) fun l hl => ?_⟩, by decide⟩
  obtain ⟨n, -, rfl⟩ := List.mem_map.1 hl
  exact oneLine_natText n

theorem oneLine_scaleText (source target : Int) : OneLine (scaleText source target).toList := by
  simp [scaleText, isBreak]

theorem oneLine_elementLabel (ho : o.OneLined) (index : List Nat) :
    OneLine (elementLabel o index).toList := by
  simp [elementLabel, isBreak, oneLine_nodeLabel, oneLine_indexText, ho.kind, ho.output]

theorem finish_comment {t : Target} {label : String} (hl : OneLine label.toList) {i : Nat}
    (h : s ∈ t.finish label i) : OneLine s.comment.toList := by
  unfold Target.finish at h
  split at h
  · obtain rfl := List.mem_singleton.1 h
    simp [Target.finishStep, hl, oneLine_scaleText]
  · simp at h

theorem binary_comment (ho : o.OneLined) {op : Arithmetic} {x y : Operand} {shape : List Nat}
    {t : Target} (h : s ∈ binarySteps o op x y shape t) : OneLine s.comment.toList := by
  obtain ⟨index, -, h⟩ := List.mem_flatMap.1 h
  have hl := oneLine_elementLabel ho index
  rcases List.mem_cons.1 h with rfl | h
  · exact hl
  · exact finish_comment hl h

theorem chain_comment {r : Reduction} {label : String} (hl : OneLine label.toList) {i k : Nat}
    {acc : Int} {ts : List Term} (h : s ∈ r.chain label i k acc ts) : OneLine s.comment.toList := by
  induction ts generalizing k acc with
  | nil => simp [Reduction.chain] at h
  | cons t ts ih =>
    rw [Reduction.chain] at h
    rcases List.mem_cons.1 h with rfl | h
    · simp [Reduction.step, hl, isBreak, oneLine_natText]
    · exact ih h

theorem elements_comment (ho : o.OneLined) {r : Reduction} {i : Nat} {is : List (List Nat)}
    {tss : List (List Term)} (h : s ∈ r.elements o i is tss) : OneLine s.comment.toList := by
  induction is generalizing i tss with
  | nil => simp [Reduction.elements] at h
  | cons index is ih =>
    cases tss with
    | nil => simp [Reduction.elements] at h
    | cons ts tss =>
      have hl := oneLine_elementLabel ho index
      rw [Reduction.elements] at h
      simp only [List.mem_append] at h
      rcases h with (h | h) | h
      exacts [chain_comment hl h, finish_comment hl h, ih h]

end

variable {g : Circuit.Graph} {lookupBits : Json} {zero : Int} {a : Allocator}
  {ts : List FoldedTable} {o : Circuit.Operation} {bs : List Allocation} {ss : List Step} {s : Step}

theorem Placed.oneLine (ho : o.OneLined) {id : String} (hid : id ∈ o.inputs) {x : Operand}
    (h : Placed g a id x) : OneLine x.tensor.id.toList := by
  rw [Circuit.Graph.tensor_id h.tensor]
  exact ho.inputs id hid

theorem Brought.comment {x x' : Operand} {target : Int} (hb : Brought o x target x' bs ss)
    (hx : OneLine x.tensor.id.toList) (h : s ∈ ss) : OneLine s.comment.toList := by
  cases hb with
  | same => simp at h
  | copied =>
    obtain ⟨i, -, rfl⟩ := List.mem_map.1 h
    simp [requantStep, isBreak, oneLine_nodeLabel, oneLine_indexText, oneLine_scaleText, hx]

theorem Summands.comment (ho : o.OneLined) {natural : Int} {shape : List Nat}
    {terms : List (List Term)} (hs : Summands g zero a o natural shape terms bs ss) (h : s ∈ ss) :
    OneLine s.comment.toList := by
  cases hs with
  | biased _ hi _ _ hb _ _ hbr => exact hbr.comment (hb.oneLine ho (by simp [hi])) h
  | _ => simp at h

theorem Reduced.comment (ho : o.OneLined) {natural out : Int} {shape : List Nat}
    {terms : List (List Term)} (hr : Reduced zero o natural shape out terms bs ss) (h : s ∈ ss) :
    OneLine s.comment.toList := by
  cases hr with
  | empty => simp at h
  | chains => exact elements_comment ho h

theorem Template.kind [Platform] (ht : Template g lookupBits zero a ts o bs ss) :
    ∃ k, o.kind? = some k := by
  cases ht with
  | linear hk => exact hk.elim (fun h => ⟨_, h.1⟩) fun h => ⟨_, h.1⟩
  | unary hk => exact hk.elim (fun h => ⟨_, h.1⟩) fun h => ⟨_, h.1⟩
  | reduction hs => exact hs.contraction.imp fun _ => And.left
  | product hk | lookup hk | rescale hk | clamp hk => exact ⟨_, hk⟩

theorem Template.comment [Platform] (ho : o.OneLined) (ht : Template g lookupBits zero a ts o bs ss)
    (h : s ∈ ss) : OneLine s.comment.toList := by
  cases ht with
  | linear _ hi hx hy _ _ hbx hby =>
    simp only [List.mem_append] at h
    rcases h with (h | h) | h
    · exact hbx.comment (hx.oneLine ho (by simp [hi])) h
    · exact hby.comment (hy.oneLine ho (by simp [hi])) h
    · exact binary_comment ho h
  | product => exact binary_comment ho h
  | unary _ hi hx _ _ hb =>
    rcases List.mem_append.1 h with h | h
    · exact hb.comment (hx.oneLine ho (by simp [hi])) h
    · obtain ⟨i, -, rfl⟩ := List.mem_map.1 h
      exact oneLine_elementLabel ho [i]
  | reduction hs _ hr =>
    rcases List.mem_append.1 h with h | h
    exacts [hs.comment ho h, hr.comment ho h]
  | lookup =>
    obtain ⟨i, -, rfl⟩ := List.mem_map.1 h
    exact oneLine_elementLabel ho [i]
  | rescale =>
    obtain ⟨i, -, rfl⟩ := List.mem_map.1 h
    simp [isBreak, oneLine_nodeLabel, oneLine_indexText, oneLine_scaleText, ho.output]
  | clamp _ hi hx _ _ _ _ hbr =>
    rcases List.mem_append.1 h with h | h
    · exact hbr.comment (hx.oneLine ho (by simp [hi])) h
    · obtain ⟨i, -, rfl⟩ := List.mem_map.1 h
      simp [isBreak, oneLine_nodeLabel, oneLine_indexText, ho.output]

end Lowering

end TensorAsm
