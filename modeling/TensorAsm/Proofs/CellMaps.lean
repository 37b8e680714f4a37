import TensorAsm.Proofs.Relocation
import TensorAsm.Proofs.TwinPlans
/-!
From the cells of a plan to those of another with the same blocks. The map is one to one, it takes
the instructions of one plan to those of the other, and it keeps the rows of every table together.
-/

namespace TensorAsm

theorem Tiles.eq_of_same {l : Layout} {bs bs' : List Allocation} (h : Tiles l bs)
    (h' : Tiles l bs')
    (hs : List.Forall₂ (fun b b' => Lowering.Twin b b' ∧ b'.address.region = b.address.region)
      bs bs') : bs' = bs := by
  induction h generalizing bs' with
  | nil => exact List.forall₂_nil_left_iff.1 hs
  | @snoc bs b _ ho ha _ _ ih =>
    cases h' with
    | nil => simp at hs
    | @snoc cs c hcs ho' ha' _ _ =>
      have hlen : bs.length = cs.length := by simpa using hs.length_eq
      have hzip : (bs ++ [b]).zip (cs ++ [c]) = bs.zip cs ++ [(b, c)] := List.zip_append hlen
      obtain ⟨-, hall⟩ := List.forall₂_iff_zip.1 hs
      rw [hzip] at hall
      obtain rfl := ih hcs (List.forall₂_iff_zip.2 ⟨hlen, fun hxy => hall (by simp [hxy])⟩)
      obtain ⟨ht, hr⟩ := hall (a := b) (b := c) (by simp)
      rw [hr, ← ho] at ho'
      rw [hr, ← ha] at ha'
      obtain ⟨_, _, ⟨_, _, _⟩, _⟩ := b
      obtain ⟨_, _, ⟨_, _, _⟩, _⟩ := c
      obtain ⟨rfl, rfl, rfl⟩ := ht
      dsimp only at hr ho' ha'
      rw [hr, ho', ha']

namespace Lowering

def Plan.cells (p : Plan) : Set Int := {x | ∃ b ∈ p.allocator.allocations, x ∈ b.cells}

def Plan.pairs (p p' : Plan) : Pairs := p.allocator.allocations.zip p'.allocator.allocations

/-- The cell of another plan that has the same place in the block that goes with its block. -/
def Plan.carry (p p' : Plan) (x : Int) : Int :=
  match (p.pairs p').find? fun q => decide (x ∈ q.1.cells) with
  | some q => q.2.address.absolute + (x - q.1.address.absolute)
  | none => x

/-- Two plans with the same blocks, neither of which has two blocks for one cell. -/
structure Twins (p p' : Plan) : Prop where
  blocks : List.Forall₂ Twin p.allocator.allocations p'.allocator.allocations
  first : Tiles p.allocator.layout p.allocator.allocations
  second : Tiles p'.allocator.layout p'.allocator.allocations

namespace Twins

variable {p p' : Plan} {x y z : Int} {q : Allocation × Allocation}

theorem twin (h : Twins p p') (hq : q ∈ p.pairs p') : Twin q.1 q.2 :=
  (List.forall₂_iff_zip.1 h.blocks).2 hq

theorem nodup_first (h : Twins p p') : ((p.pairs p').flatMap (·.1.cells)).Nodup := by
  have hn := h.first.cells_nodup
  rw [← List.map_fst_zip (Nat.le_of_eq h.blocks.length_eq), List.flatMap_map] at hn
  exact hn

theorem nodup_second (h : Twins p p') : ((p.pairs p').flatMap (·.2.cells)).Nodup := by
  have hn := h.second.cells_nodup
  rw [← List.map_snd_zip (Nat.le_of_eq h.blocks.length_eq.symm), List.flatMap_map] at hn
  exact hn

theorem carry_eq (h : Twins p p') (hxy : SameCell (p.pairs p') x y) : p.carry p' x = y := by
  obtain ⟨q, hq, i, hi, rfl, rfl⟩ := hxy
  have hx : q.1.address.absolute + (i : Int) ∈ q.1.cells := Allocation.cell_mem hi
  rw [Plan.carry]
  cases hf : (p.pairs p').find? fun r => decide (q.1.address.absolute + (i : Int) ∈ r.1.cells) with
  | none => exact absurd (decide_eq_true hx) (List.find?_eq_none.1 hf q hq)
  | some r =>
    have hr : q.1.address.absolute + (i : Int) ∈ r.1.cells := by
      simpa using List.find?_some hf
    obtain rfl := Sequences.eq_of_mem_both h.nodup_first (List.mem_of_find?_eq_some hf) hq hr hx
    dsimp only
    omega

theorem mem_pairs (h : Twins p p') {b : Allocation} (hb : b ∈ p.allocator.allocations) :
    ∃ q ∈ p.pairs p', q.1 = b := by
  rw [← List.map_fst_zip (Nat.le_of_eq h.blocks.length_eq)] at hb
  exact List.mem_map.1 hb

theorem mem_pairs_second (h : Twins p p') {b : Allocation} (hb : b ∈ p'.allocator.allocations) :
    ∃ q ∈ p.pairs p', q.2 = b := by
  rw [← List.map_snd_zip (Nat.le_of_eq h.blocks.length_eq.symm)] at hb
  exact List.mem_map.1 hb

theorem mem_cells (h : Twins p p') : x ∈ p.cells ↔ SameCell (p.pairs p') x (p.carry p' x) := by
  constructor
  · rintro ⟨b, hb, hx⟩
    obtain ⟨q, hq, rfl⟩ := h.mem_pairs hb
    obtain ⟨i, hi, rfl⟩ := Allocation.exists_cell hx
    have hxy : SameCell (p.pairs p') (q.1.address.absolute + i) (q.2.address.absolute + i) :=
      ⟨q, hq, i, hi, rfl, rfl⟩
    rwa [h.carry_eq hxy]
  · rintro ⟨q, hq, i, hi, hx, -⟩
    exact ⟨q.1, (List.of_mem_zip hq).1, hx ▸ Allocation.cell_mem hi⟩

theorem sameCell_iff (h : Twins p p') :
    SameCell (p.pairs p') x y ↔ x ∈ p.cells ∧ p.carry p' x = y := by
  constructor
  · intro hxy
    have he := h.carry_eq hxy
    exact ⟨h.mem_cells.2 (he ▸ hxy), he⟩
  · rintro ⟨hx, rfl⟩
    exact h.mem_cells.1 hx

theorem bijOn (h : Twins p p') : Set.BijOn (p.carry p') p.cells p'.cells := by
  refine ⟨?_, ?_, ?_⟩
  · intro x hx
    obtain ⟨q, hq, i, hi, -, hy⟩ := h.mem_cells.1 hx
    refine ⟨q.2, (List.of_mem_zip hq).2, hy ▸ Allocation.cell_mem ?_⟩
    rwa [(h.twin hq).size]
  · intro x hx y hy he
    obtain ⟨q, hq, i, hi, rfl, hxi⟩ := h.mem_cells.1 hx
    obtain ⟨r, hr, j, hj, rfl, hyj⟩ := h.mem_cells.1 hy
    have hqi : q.2.address.absolute + (i : Int) ∈ q.2.cells :=
      Allocation.cell_mem ((h.twin hq).size ▸ hi)
    have hrj : r.2.address.absolute + (j : Int) ∈ r.2.cells :=
      Allocation.cell_mem ((h.twin hr).size ▸ hj)
    rw [← hxi] at hqi
    rw [← hyj, ← he] at hrj
    obtain rfl := Sequences.eq_of_mem_both h.nodup_second hq hr hqi hrj
    omega
  · rintro y ⟨b, hb, hy⟩
    obtain ⟨q, hq, rfl⟩ := h.mem_pairs_second hb
    obtain ⟨i, hi, rfl⟩ := Allocation.exists_cell hy
    have hxy : SameCell (p.pairs p') (q.1.address.absolute + i) (q.2.address.absolute + i) :=
      ⟨q, hq, i, (h.twin hq).size ▸ hi, rfl, rfl⟩
    obtain ⟨hx, he⟩ := h.sameCell_iff.1 hxy
    exact ⟨_, hx, he⟩

theorem relocate_eq (h : Twins p p') {i i' : Instruction}
    (hi : SameInstruction (p.pairs p') i i') : i' = i.relocate (p.carry p') := by
  cases hi with
  | add hd ha hb => rw [Instruction.relocate, h.carry_eq hd, h.carry_eq ha, h.carry_eq hb]
  | sub hd ha hb => rw [Instruction.relocate, h.carry_eq hd, h.carry_eq ha, h.carry_eq hb]
  | mul hd ha hb => rw [Instruction.relocate, h.carry_eq hd, h.carry_eq ha, h.carry_eq hb]
  | mac hd hc ha hb =>
    rw [Instruction.relocate, h.carry_eq hd, h.carry_eq hc, h.carry_eq ha, h.carry_eq hb]
  | rescale shift hd ha => rw [Instruction.relocate, h.carry_eq hd, h.carry_eq ha]
  | clamp lo hi hd ha => rw [Instruction.relocate, h.carry_eq hd, h.carry_eq ha]
  | lookup hd ha hr ht =>
    rw [Instruction.relocate, h.carry_eq hd, h.carry_eq ha, h.carry_eq (ht.head (by omega))]

theorem movable (h : Twins p p') {i i' : Instruction} (hi : SameInstruction (p.pairs p') i i') :
    Machine.Movable (p.carry p') p.cells i := by
  have hin {x y : Int} (hxy : SameCell (p.pairs p') x y) : x ∈ p.cells := (h.sameCell_iff.1 hxy).1
  cases hi with
  | add hd ha hb | sub hd ha hb | mul hd ha hb =>
    refine ⟨?_, ?_, by simp⟩ <;>
      simp [Instruction.dest?, Instruction.reads, Instruction.form, hin hd, hin ha, hin hb]
  | mac hd hc ha hb =>
    refine ⟨?_, ?_, by simp⟩ <;>
      simp [Instruction.dest?, Instruction.reads, Instruction.form, hin hd, hin hc, hin ha,
        hin hb]
  | rescale shift hd ha | clamp lo hi hd ha =>
    refine ⟨?_, ?_, by simp⟩ <;>
      simp [Instruction.dest?, Instruction.reads, Instruction.form, hin hd, hin ha]
  | @lookup d a t d' a' t' rows hd ha hr ht =>
    have hbase := ht.head (by omega)
    refine ⟨?_, ?_, ?_⟩
    · simp [Instruction.dest?, Instruction.form, hin hd]
    · simp [Instruction.reads, Instruction.form, hin ha, hin hbase]
    · rintro _ _ _ _ ⟨⟩ k hk
      obtain ⟨hrow, he⟩ := h.sameCell_iff.1 (ht k (by omega))
      exact ⟨hrow, by rw [he, h.carry_eq hbase]⟩

theorem instructions_eq (h : Twins p p') (hp : SamePlan p p') :
    p'.instructions = p.instructions.map (Instruction.relocate (p.carry p')) ∧
      ∀ i ∈ p.instructions, Machine.Movable (p.carry p') p.cells i := by
  have hsteps : SameSteps (p.pairs p') p.steps p'.steps :=
    List.rel_flatMap hp.blocks fun _ _ hb => hb.steps
  have hi : List.Forall₂ (SameInstruction (p.pairs p')) p.instructions p'.instructions :=
    List.rel_map (fun _ _ hs => hs.instruction) hsteps
  refine ⟨?_, ?_⟩
  · rw [← List.forall₂_eq_eq_eq, List.forall₂_map_right_iff]
    exact hi.flip.imp fun _ _ hi => h.relocate_eq hi
  · intro i hm
    obtain ⟨i', -, hi⟩ := Sequences.forall₂_of_mem hi hm
    exact h.movable hi

end Twins

end Lowering

end TensorAsm
