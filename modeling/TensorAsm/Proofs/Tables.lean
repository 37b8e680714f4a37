import Mathlib.Data.List.Nodup
import Mathlib.Data.List.Range
import TensorAsm.Proofs.Sequences
import TensorAsm.Table.Basic
/-!
Tables have one row for each input, in ascending order, and specs that share a table have the same
rows.
-/

namespace TensorAsm.Table

theorem toBits_inj {x y : Float} (h : x.toBits = y.toBits) : x = y := by
  obtain ⟨⟨a, ha⟩⟩ := x
  obtain ⟨⟨b, hb⟩⟩ := y
  obtain rfl : a = b := h
  rfl

theorem Parameter.number_eq {p q : Parameter} (h : p.same q = true) : p.number = q.number := by
  simp only [same, Bool.and_eq_true, beq_iff_eq] at h
  exact toBits_inj h.1

theorem Point.numbers_eq {p q : Point} (h : p.same q = true) : p.numbers = q.numbers := by
  simp only [same, Bool.and_eq_true] at h
  rw [numbers, numbers, Parameter.number_eq h.1, Parameter.number_eq h.2]

namespace Spec

theorem numbers_eq {ps qs : List Point} (h : samePoints ps qs = true) :
    ps.map Point.numbers = qs.map Point.numbers := by
  induction ps generalizing qs with
  | nil =>
    cases qs with
    | nil => rfl
    | cons q qs => simp [samePoints] at h
  | cons p ps ih =>
    cases qs with
    | nil => simp [samePoints] at h
    | cons q qs =>
      simp only [samePoints, Bool.and_eq_true] at h
      rw [List.map_cons, List.map_cons, Point.numbers_eq h.1, ih h.2]

theorem alpha_eq {x y : Option Parameter} (h : sameAlpha x y = true) :
    x.map Parameter.number = y.map Parameter.number := by
  match x, y, h with
  | none, none, _ => rfl
  | some p, some q, h => exact congrArg some (Parameter.number_eq h)

theorem breakpoints_eq {x y : Option (List Point)} (h : sameBreakpoints x y = true) :
    (x.map fun ps => ps.map Point.numbers) = y.map fun ps => ps.map Point.numbers := by
  match x, y, h with
  | none, none, _ => rfl
  | some ps, some qs, h => exact congrArg some (numbers_eq h)

end Spec

theorem fold_eq_of_same [Platform] {s t : Spec} (h : s.same t = true) : fold s = fold t := by
  obtain ⟨function, inScale, outScale, bits, alpha, points⟩ := s
  obtain ⟨function', inScale', outScale', bits', alpha', points'⟩ := t
  simp only [Spec.same, Bool.and_eq_true, beq_iff_eq] at h
  obtain ⟨⟨⟨⟨⟨rfl, rfl⟩, rfl⟩, rfl⟩, ha⟩, hp⟩ := h
  unfold fold foldReal realFunction?
  dsimp only
  rw [Spec.alpha_eq ha, Spec.breakpoints_eq hp]
  rfl

theorem rowsFrom_inputs {f : Int → Except Fault Int} {count : Nat} {x : Int} {done rows : List Row}
    (h : rowsFrom f count x done = .ok rows) :
    rows.map (·.x) = done.reverse.map (·.x) ++ (List.range count).map fun (i : Nat) => x + i := by
  induction count generalizing x done with
  | zero =>
    cases h
    simp
  | succ count ih =>
    rw [rowsFrom] at h
    split at h
    · exact absurd h (by simp)
    · next y _ =>
        rw [ih h, List.range_succ_eq_map]
        simp [Function.comp_def, Int.add_assoc, Int.add_comm 1]

theorem fold_inputs [Platform] {s : Spec} {rows : List Row} (h : fold s = .ok rows) :
    rows.map (·.x) = (List.range s.rows.toNat).map fun (i : Nat) => -s.half + i := by
  have hr {f : Int → Except Fault Int} (h : rowsOf s f = .ok rows) :
      rows.map (·.x) = (List.range s.rows.toNat).map fun (i : Nat) => -s.half + i := by
    simpa using rowsFrom_inputs h
  unfold fold at h
  split at h
  · exact absurd h (by simp)
  split at h
  · exact absurd h (by simp)
  split at h
  · exact hr h
  unfold foldReal at h
  split at h
  · exact absurd h (by simp)
  split at h
  · split at h
    · exact absurd h (by simp)
    · exact hr h
  · exact absurd h (by simp)
  · exact absurd h (by simp)

theorem length_fold [Platform] {s : Spec} {rows : List Row} (h : fold s = .ok rows) :
    (rows.length : Int) = s.rows := by
  have hl := congrArg List.length (fold_inputs h)
  simp only [List.length_map, List.length_range] at hl
  rw [hl, Spec.rows]
  omega

theorem fold_pos [Platform] {s : Spec} {rows : List Row} (h : fold s = .ok rows) :
    0 < rows.length := by
  have hp : 0 < s.rows := Int.natCast_pos.2 (Nat.pow_pos Nat.two_pos)
  rw [← length_fold h] at hp
  omega

theorem fold_nodup [Platform] {s : Spec} {rows : List Row} (h : fold s = .ok rows) :
    (rows.map (·.x)).Nodup := by
  rw [fold_inputs h]
  exact List.nodup_range.map fun i j h => by simpa [Int.natCast_inj] using h

theorem fold_bits [Platform] {s : Spec} {rows : List Row} (h : fold s = .ok rows) : 1 ≤ s.bits := by
  unfold fold at h
  split at h
  · exact absurd h (by simp)
  · omega

theorem rows_eq {s : Spec} (hb : 1 ≤ s.bits) : s.rows = 2 * s.half := by
  obtain ⟨n, hn⟩ : ∃ n : Nat, s.bits = n + 1 := ⟨(s.bits - 1).toNat, by omega⟩
  have hs : s.bits.toNat = n + 1 := by omega
  have ht : (s.bits - 1).toNat = n := by omega
  have hp : Nat.pow 2 (n + 1) = Nat.pow 2 n * 2 := Nat.pow_succ 2 n
  rw [Spec.rows, Spec.half, hs, ht, hp]
  omega

theorem mem_fold_inputs [Platform] {s : Spec} {rows : List Row} (h : fold s = .ok rows) {x : Int} :
    x ∈ rows.map (·.x) ↔ -s.half ≤ x ∧ x < s.half := by
  rw [fold_inputs h, List.mem_map, rows_eq (fold_bits h)]
  constructor
  · rintro ⟨i, hi, rfl⟩
    rw [List.mem_range] at hi
    omega
  · intro hx
    exact ⟨(x + s.half).toNat, List.mem_range.2 (by omega), by omega⟩

theorem find?_fold [Platform] {s : Spec} {rows : List Row} (h : fold s = .ok rows) {x : Int}
    (hx : ¬(-s.half ≤ x ∧ x < s.half)) : rows.find? (·.x == x) = none := by
  rw [← mem_fold_inputs h, List.mem_map] at hx
  rw [List.find?_eq_none]
  intro row hrow he
  exact hx ⟨row, hrow, by simpa using he⟩

theorem readBits_bounds {o : Circuit.Operation} {default : Json} {bits : Int}
    (h : readBits o default = .ok bits) : 1 ≤ bits ∧ bits ≤ maxBits := by
  unfold readBits at h
  dsimp only at h
  split at h
  · split at h
    · next hn =>
        cases h
        exact hn
    · exact absurd h (by simp)
  · exact absurd h (by simp)

theorem specFor_eq {o : Circuit.Operation} {scale : Int} {default : Json} {s : Spec}
    (h : specFor o scale default = .ok s) :
    ∃ bits alpha points, readBits o default = .ok bits ∧
      s = ⟨o.kind, scale, o.scale, bits, alpha, points⟩ := by
  unfold specFor at h
  split at h
  · exact absurd h (by simp)
  next bits hb =>
  dsimp only at h
  split at h
  · obtain ⟨x, -, rfl⟩ := Sequences.map_ok h
    exact ⟨bits, some x, none, hb, rfl⟩
  · obtain ⟨ps, -, rfl⟩ := Sequences.map_ok h
    exact ⟨bits, none, some ps, hb, rfl⟩
  · cases h
    exact ⟨bits, none, none, hb, rfl⟩

theorem specFor_bits {o : Circuit.Operation} {scale : Int} {default : Json} {s : Spec}
    (h : specFor o scale default = .ok s) : 1 ≤ s.bits ∧ s.bits ≤ maxBits := by
  obtain ⟨bits, alpha, points, hb, rfl⟩ := specFor_eq h
  exact readBits_bounds hb

end TensorAsm.Table
