import Mathlib.Data.List.Basic
import Mathlib.Data.List.Forall2
import Mathlib.Tactic.Ring
import TensorAsm.Circuit.Basic
/-!
Multi-indices and their places. The places of the indices of a shape count up from zero to its
volume, and the projection of an index of a broadcast shape is an index of the operand.
-/

namespace TensorAsm.Shape

theorem foldl_mul (n : Nat) (shape : List Nat) : shape.foldl (· * ·) n = n * volume shape := by
  induction shape generalizing n with
  | nil => simp [volume]
  | cons d shape ih =>
    rw [volume, List.foldl_cons, List.foldl_cons, ih, ih (1 * d)]
    simp [Nat.mul_assoc]

@[simp] theorem volume_nil : volume [] = 1 := rfl

@[simp] theorem volume_cons (d : Nat) (shape : List Nat) :
    volume (d :: shape) = d * volume shape := by
  rw [volume, List.foldl_cons, foldl_mul, Nat.one_mul]

@[simp] theorem indices_nil : indices [] = [[]] := rfl

theorem indices_cons (d : Nat) (shape : List Nat) :
    indices (d :: shape) = (List.range d).flatMap fun i => (indices shape).map (i :: ·) := by
  rw [indices]
  split
  · subst d; rfl
  · split
    · next h => simp [h]
    · rfl

theorem mem_indices {shape index : List Nat} :
    index ∈ indices shape ↔ List.Forall₂ (· < ·) index shape := by
  induction shape generalizing index with
  | nil => simp
  | cons d shape ih =>
    rw [indices_cons]
    constructor
    · intro h
      simp only [List.mem_flatMap, List.mem_range, List.mem_map] at h
      obtain ⟨i, hi, rest, hr, rfl⟩ := h
      exact .cons hi (ih.1 hr)
    · intro h
      cases h with
      | cons hi hr =>
        simp only [List.mem_flatMap, List.mem_range, List.mem_map]
        exact ⟨_, hi, _, ih.2 hr, rfl⟩

theorem length_of_mem_indices {shape index : List Nat} (h : index ∈ indices shape) :
    index.length = shape.length :=
  (mem_indices.1 h).length_eq

theorem foldl_place (n : Nat) {shape index : List Nat} (h : index.length = shape.length) :
    (index.zip shape).foldl (fun n p => n * p.2 + p.1) n = n * volume shape + flat shape index := by
  induction shape generalizing n index with
  | nil => simp [flat, List.length_eq_zero_iff.1 h]
  | cons d shape ih =>
    cases index with
    | nil => simp at h
    | cons i index =>
      have hl : index.length = shape.length := by simpa using h
      rw [flat, List.zip_cons_cons, List.foldl_cons, List.foldl_cons, ih _ hl, ih _ hl,
        volume_cons]
      ring

theorem flat_cons (d i : Nat) {shape index : List Nat} (h : index.length = shape.length) :
    flat (d :: shape) (i :: index) = i * volume shape + flat shape index := by
  rw [flat, List.zip_cons_cons, List.foldl_cons, foldl_place _ h]
  simp

theorem range_mul (n k : Nat) :
    (List.range n).flatMap (fun i => (List.range k).map (i * k + ·)) = List.range (n * k) := by
  induction n with
  | zero => simp
  | succ n ih =>
    rw [List.range_succ, List.flatMap_append, ih, Nat.succ_mul, List.range_add]
    simp

theorem map_flat_indices (shape : List Nat) :
    (indices shape).map (flat shape) = List.range (volume shape) := by
  induction shape with
  | nil => simp [flat]
  | cons d shape ih =>
    rw [indices_cons, List.map_flatMap, volume_cons, ← range_mul]
    congr 1
    funext i
    rw [← ih, List.map_map, List.map_map]
    apply List.map_congr_left
    intro index h
    exact flat_cons d i (length_of_mem_indices h)

theorem flat_lt {shape index : List Nat} (h : index ∈ indices shape) :
    flat shape index < volume shape := by
  have hm : flat shape index ∈ (indices shape).map (flat shape) := List.mem_map_of_mem h
  rwa [map_flat_indices, List.mem_range] at hm

theorem exists_index {shape : List Nat} {i : Nat} (h : i < volume shape) :
    ∃ index ∈ indices shape, flat shape index = i := by
  rw [← List.mem_map, map_flat_indices]
  exact List.mem_range.2 h

theorem length_indices (shape : List Nat) : (indices shape).length = volume shape := by
  have h := congrArg List.length (map_flat_indices shape)
  simpa using h

/-- The second shape is the first one stretched. -/
def Stretches (shape whole : List Nat) : Prop :=
  ∃ front back, whole = front ++ back ∧ List.Forall₂ (fun d e => d = e ∨ d = 1) shape back

theorem join_cases {a b d : Nat} (h : join? a b = some d) :
    (a = d ∨ a = 1) ∧ (b = d ∨ b = 1) := by
  unfold join? at h
  split at h
  · injection h; omega
  · split at h
    · injection h; omega
    · exact absurd h (by simp)

theorem broadcastReversed_stretches {as bs ds : List Nat}
    (h : broadcastReversed? as bs = some ds) :
    (∃ front back, ds = front ++ back ∧ List.Forall₂ (fun d e => d = e ∨ d = 1) as front) ∧
      ∃ front back, ds = front ++ back ∧ List.Forall₂ (fun d e => d = e ∨ d = 1) bs front := by
  induction as generalizing bs ds with
  | nil =>
    rw [broadcastReversed?] at h
    injection h with h
    subst h
    exact ⟨⟨[], _, rfl, .nil⟩, _, [], (List.append_nil _).symm,
      List.forall₂_same.2 fun _ _ => .inl rfl⟩
  | cons a as ih =>
    cases bs with
    | nil =>
      rw [broadcastReversed?] at h
      · injection h with h
        subst h
        exact ⟨⟨_, [], (List.append_nil _).symm, List.forall₂_same.2 fun _ _ => .inl rfl⟩,
          [], _, rfl, .nil⟩
      · simp
    | cons b bs =>
      rw [broadcastReversed?] at h
      split at h
      · next d rest hd hr =>
          injection h with h
          subst h
          obtain ⟨ha, hb⟩ := join_cases hd
          obtain ⟨⟨fa, ba, he, hfa⟩, fb, bb, he', hfb⟩ := ih hr
          exact ⟨⟨d :: fa, ba, by rw [he]; rfl, .cons ha hfa⟩,
            d :: fb, bb, by rw [he']; rfl, .cons hb hfb⟩
      · exact absurd h (by simp)

theorem stretches_reverse {as ds : List Nat}
    (h : ∃ front back, ds = front ++ back ∧ List.Forall₂ (fun d e => d = e ∨ d = 1) as front) :
    Stretches as.reverse ds.reverse := by
  obtain ⟨front, back, rfl, hf⟩ := h
  exact ⟨back.reverse, front.reverse, List.reverse_append, List.forall₂_reverse_iff.2 hf⟩

theorem broadcast_stretches {a b whole : List Nat} (h : broadcast? a b = some whole) :
    Stretches a whole ∧ Stretches b whole := by
  unfold broadcast? at h
  split at h
  · exact absurd h (by simp)
  · next ds hd =>
      split at h
      · injection h with h
        subst h
        obtain ⟨ha, hb⟩ := broadcastReversed_stretches hd
        have ha := stretches_reverse ha
        have hb := stretches_reverse hb
        rw [List.reverse_reverse] at ha hb
        exact ⟨ha, hb⟩
      · exact absurd h (by simp)

theorem project_mem_indices {shape whole index : List Nat} (hs : Stretches shape whole)
    (h : index ∈ indices whole) : project shape index ∈ indices shape := by
  obtain ⟨front, back, rfl, hb⟩ := hs
  rw [mem_indices] at h ⊢
  obtain ⟨left, right, hl, hr, rfl⟩ :
      ∃ left right, List.Forall₂ (· < ·) left front ∧ List.Forall₂ (· < ·) right back ∧
        index = left ++ right :=
    ⟨_, _, List.forall₂_take_append _ _ _ h, List.forall₂_drop_append _ _ _ h,
      (List.take_append_drop _ _).symm⟩
  have hlen : (left ++ right).length - shape.length = left.length := by
    have := hr.length_eq
    have := hb.length_eq
    simp only [List.length_append]
    omega
  rw [project, hlen, List.drop_left]
  clear hlen hl h
  induction hb generalizing right with
  | nil => cases hr; exact .nil
  | cons hd _ ih =>
    cases hr with
    | cons hi hr =>
      refine .cons ?_ (ih _ hr)
      dsimp only
      split <;> omega

theorem flatProject_lt {shape whole index : List Nat} (hs : Stretches shape whole)
    (h : index ∈ indices whole) : flatProject shape index < volume shape :=
  flat_lt (project_mem_indices hs h)

end TensorAsm.Shape
