import Mathlib.Tactic.NormNum
import TensorAsm.Proofs.Loading
import TensorAsm.Proofs.Outcomes
/-!
How the reading of a witness ends: the values are complete and fit the field, or the witness is
refused, or a tensor in use is larger than arrays can be.
-/

namespace TensorAsm

namespace Shape

/-- No array has so many dimensions or elements. -/
def Oversized [Platform] (shape : List Nat) : Prop :=
  Platform.rankLimit < shape.length ∨ wordHalf ≤ 8 * volume (shape.filter (· ≠ 0))

instance [Platform] (shape : List Nat) : Decidable (Oversized shape) :=
  inferInstanceAs (Decidable (_ ∨ _))

theorem volume_filter_pos (shape : List Nat) : 0 < volume (shape.filter (· ≠ 0)) := by
  induction shape with
  | nil => simp
  | cons d shape ih =>
    by_cases hd : d = 0
    · simpa [hd] using ih
    · simpa [hd, Nat.pos_of_ne_zero hd] using ih

theorem le_volume_filter {shape : List Nat} {d : Nat} (h : d ∈ shape) :
    d ≤ volume (shape.filter (· ≠ 0)) := by
  induction shape with
  | nil => simp at h
  | cons e shape ih =>
    have hpos := volume_filter_pos shape
    rcases List.mem_cons.1 h with rfl | h
    · by_cases hd : d = 0
      · simp [hd]
      · simpa [hd] using Nat.le_mul_of_pos_right d hpos
    · by_cases he : e = 0
      · simpa [he] using ih h
      · simpa [he] using (ih h).trans (Nat.le_mul_of_pos_left _ (Nat.pos_of_ne_zero he))

theorem foldlM_product_eq {n : Nat} {shape : List Nat}
    (h : n * volume (shape.filter (· ≠ 0)) < wordHalf) :
    shape.foldlM (fun n d => if n * d < wordHalf then some (n * d) else none) n =
      some (n * volume shape) := by
  induction shape generalizing n with
  | nil => simp
  | cons d shape ih =>
    have hnext : n * d * volume (shape.filter (· ≠ 0)) < wordHalf := by
      by_cases hd : d = 0
      · simp [hd, wordHalf]
      · simpa [hd, Nat.mul_assoc] using h
    have hword : n * d < wordHalf :=
      (Nat.le_mul_of_pos_right _ (volume_filter_pos shape)).trans_lt hnext
    rw [List.foldlM_cons, if_pos hword, volume_cons, ← Nat.mul_assoc]
    exact ih hnext

variable {shape : List Nat}

theorem wordProduct_eq [Platform] (h : ¬Oversized shape) :
    wordProduct? shape = some (volume shape) := by
  rw [Oversized, not_or] at h
  have hp : 1 * volume (shape.filter (· ≠ 0)) < wordHalf := by omega
  rw [wordProduct?, foldlM_product_eq hp, Nat.one_mul]

theorem lt_wordHalf [Platform] (h : ¬Oversized shape) {d : Nat} (hd : d ∈ shape) :
    d < wordHalf := by
  have hle := le_volume_filter hd
  rw [Oversized, not_or] at h
  omega

theorem size_writable {dims : List Int} {n : Int} (h : wordSize? dims = some n) :
    Numeral.isWritable n = true := by
  have hwrap (k : Int) : Numeral.isWritable (wrap k) = true := by
    have hlo := Int.le_bmod (x := k) (m := wordCount) (by decide)
    have hhi := Int.bmod_lt (x := k) (m := wordCount) (by decide)
    apply Numeral.isWritable_of_lt (k := 20) _ (by decide)
    rw [wrap]
    norm_num [wordCount] at hlo hhi ⊢
    omega
  unfold wordSize? at h
  split at h
  · exact Option.some.inj h ▸ hwrap _
  split at h
  · exact Option.some.inj h ▸ hwrap _
  · exact absurd h (by simp)

end Shape

theorem Invalid.reported_writable (v : Invalid) :
    ∀ n ∈ v.reported.numbers, Numeral.isWritable n = true := by
  unfold reported
  split
  · next h => exact List.all_eq_true.1 h
  · simp [numbers]

namespace Witness

open Circuit

variable {m : Int} {t : Tensor} {given : Json} {f : Fault}

/-- A refusal of the witness whose message can be written. -/
def Gap (f : Fault) : Prop :=
  ∃ gap : WitnessGap, f = .compile (.witness gap) ∧ ∀ n ∈ gap.numbers, Numeral.isWritable n = true

theorem Gap.reported (h : Gap f) : f.reported = f := by
  obtain ⟨gap, rfl, hn⟩ := h
  exact if_pos (List.all_eq_true.2 hn)

theorem parse_error (hm : 0 < m) {leaf : Json} (h : Field.parse m leaf = .error f) :
    ∃ why, f = .invalid why := by
  have hnumeral {α : Type} {x : Except Numeral.Defect α} {f : Fault}
      (h : Field.liftNumeral x = .error f) : ∃ why, f = .invalid why := by
    cases x with
    | ok a => exact absurd h (by simp [Field.liftNumeral])
    | error d => exact ⟨_, (Except.error.inj h).symm⟩
  cases leaf with
  | int n => exact absurd h (by simp [Field.parse])
  | str s =>
    simp only [Field.parse] at h
    split at h
    · split at h
      · exact absurd h (by simp [Field.centre?, Field.nonzero, hm.ne'])
      · next he =>
          obtain rfl := Except.error.inj h
          exact hnumeral he
    · exact hnumeral h
  | _ => exact ⟨_, (Except.error.inj h).symm⟩

theorem readValue_error (hm : 0 < m) {id : String} {leaf : Json}
    (h : readValue m id leaf = .error f) : Gap f := by
  unfold readValue at h
  split at h
  · obtain rfl := Except.error.inj h
    exact ⟨_, rfl, Invalid.reported_writable _⟩
  · next hne he =>
      obtain ⟨why, rfl⟩ := parse_error hm he
      exact absurd rfl (hne why)
  · split at h
    · exact absurd h (by simp)
    · obtain rfl := Except.error.inj h
      exact ⟨_, rfl, by simp [WitnessGap.numbers]⟩

theorem shapeRefusal_oversized [Platform] {count : Nat} {why : Invalid}
    (hs : t.size? = .ok (count : Int)) (h : shapeRefusal? count t.shape = some why) :
    Shape.Oversized t.shape := by
  by_contra hn
  have hwords : ∀ d ∈ t.shape, d < Shape.wordHalf := fun d hd => Shape.lt_wordHalf hn hd
  have hproduct := Shape.wordProduct_eq hn
  have hcount : count = Shape.volume t.shape := by
    rw [Tensor.size?, (Shape.wordSize_eq hwords hproduct).2] at hs
    exact Int.ofNat.inj (Except.ok.inj hs).symm
  rw [Shape.Oversized, not_or] at hn
  unfold shapeRefusal? at h
  rw [if_neg hn.1, if_neg (by simpa using hwords), if_neg (by rw [hcount]; simpa using hproduct),
    if_neg hn.2] at h
  exact absurd h (by simp)

theorem shapeRefusal_none [Platform] {count : Nat} (h : shapeRefusal? count t.shape = none) :
    ¬Shape.Oversized t.shape := by
  unfold shapeRefusal? at h
  split at h
  · exact absurd h (by simp)
  next hrank =>
  split at h
  · exact absurd h (by simp)
  split at h
  · exact absurd h (by simp)
  split at h
  · exact absurd h (by simp)
  next hbig =>
  rintro (h | h)
  · exact hrank h
  · exact hbig h

theorem size_oversized [Platform] (h : t.size? = .error f) : Shape.Oversized t.shape := by
  by_contra hn
  have hs := (Shape.wordSize_eq (fun d hd => Shape.lt_wordHalf hn hd) (Shape.wordProduct_eq hn)).2
  rw [Tensor.size?, hs] at h
  exact absurd h (by simp)

theorem readEntry_error [Platform] (hm : 0 < m)
    (ht : ∀ d ∈ t.shape, Numeral.isWritable (d : Int) = true) (h : readEntry m t given = .error f) :
    Gap f ∨ Shape.Oversized t.shape := by
  unfold readEntry at h
  dsimp only at h
  split at h
  · next hs => exact .inr (size_oversized hs)
  next size hs =>
  split at h
  · obtain rfl := Except.error.inj h
    refine .inl ⟨_, rfl, ?_⟩
    have hsize : Numeral.isWritable size = true := by
      unfold Tensor.size? at hs
      split at hs
      · next hw =>
          obtain rfl := Except.ok.inj hs
          exact Shape.size_writable hw
      · exact absurd hs (by simp)
    simpa [WitnessGap.numbers] using ⟨hsize, ht⟩
  next hcount =>
  split at h
  · next he =>
      obtain rfl := Except.error.inj h
      obtain ⟨leaf, -, hl⟩ := Sequences.mapM_error he
      exact .inl (readValue_error hm hl)
  next values hv =>
  split at h
  · next why hr =>
      right
      have hlen : values.length = given.leaves.length := (Sequences.mapM_ok hv).length_eq.symm
      apply shapeRefusal_oversized _ hr
      rw [hs, hlen, not_not.1 hcount]
  · exact absurd h (by simp)

theorem readEntry_not_oversized [Platform] {e : Entry} (h : readEntry m t given = .ok e) :
    ¬Shape.Oversized t.shape := by
  unfold readEntry at h
  dsimp only at h
  split at h
  · exact absurd h (by simp)
  split at h
  · exact absurd h (by simp)
  split at h
  · exact absurd h (by simp)
  split at h
  · exact absurd h (by simp)
  · next hr => exact shapeRefusal_none hr

end Witness

/-- Some tensor in use is larger than arrays can be. -/
def Circuit.Graph.Oversized [Platform] (g : Graph) : Prop :=
  ∃ id ∈ g.required, ∃ t, g.tensor? id = some t ∧ Shape.Oversized t.shape

namespace Witness

open Circuit

variable [Platform] {m : Int} {g : Graph} {given : Json} {f : Fault}

theorem readEntries_error (hm : 0 < m)
    (ht : ∀ t ∈ g.tensors, ∀ d ∈ t.shape, Numeral.isWritable (d : Int) = true)
    {fields : List (String × Json)} {ids : List String}
    (hd : ∀ id ∈ ids, ∃ t, g.tensor? id = some t)
    (h : readEntries m g fields ids = .error f) :
    Gap f ∨ ∃ id ∈ ids, ∃ t, g.tensor? id = some t ∧ Shape.Oversized t.shape := by
  induction ids with
  | nil => exact absurd h (by simp [readEntries])
  | cons id ids ih =>
    obtain ⟨t, hid⟩ := hd id (by simp)
    rw [readEntries, hid] at h
    dsimp only at h
    split at h
    · obtain rfl := Except.error.inj h
      exact .inl ⟨_, rfl, by simp [WitnessGap.numbers]⟩
    split at h
    · next he =>
        obtain rfl := Except.error.inj h
        rcases readEntry_error hm (ht t (List.mem_of_find?_eq_some hid)) he with hg | ho
        · exact .inl hg
        · exact .inr ⟨id, by simp, t, hid, ho⟩
    · rcases ih (fun i hi => hd i (by simp [hi])) (Sequences.map_error h) with hg | ⟨i, hi, ho⟩
      · exact .inl hg
      · exact .inr ⟨i, by simp [hi], ho⟩

theorem read_error (hwf : g.WellFormed) (hm : 0 < m)
    (ht : ∀ t ∈ g.tensors, ∀ d ∈ t.shape, Numeral.isWritable (d : Int) = true)
    (h : read m g given = .error f) : Gap f ∨ g.Oversized := by
  unfold read at h
  split at h
  · obtain rfl := Except.error.inj h
    exact .inl ⟨_, rfl, by simp [WitnessGap.numbers]⟩
  · exact readEntries_error hm ht hwf.defined h

theorem readEntries_not_oversized {fields : List (String × Json)} {ids : List String} {w : Witness}
    (h : readEntries m g fields ids = .ok w) {id : String} (hid : id ∈ ids) {t : Tensor}
    (ht : g.tensor? id = some t) : ¬Shape.Oversized t.shape := by
  induction ids generalizing w with
  | nil => simp at hid
  | cons i ids ih =>
    rw [readEntries] at h
    split at h
    · exact absurd h (by simp)
    next u hu =>
    split at h
    · exact absurd h (by simp)
    split at h
    · exact absurd h (by simp)
    next e he =>
    rcases List.mem_cons.1 hid with rfl | hid
    · obtain rfl := Option.some.inj (hu.symm.trans ht)
      exact readEntry_not_oversized he
    · obtain ⟨v, hv, -⟩ := Sequences.map_ok h
      exact ih hv hid

theorem read_not_oversized {w : Witness} (h : read m g given = .ok w) : ¬g.Oversized := by
  unfold read at h
  split at h
  · exact absurd h (by simp)
  · rintro ⟨id, hid, t, ht, ho⟩
    exact readEntries_not_oversized h hid ht ho

end Witness

/-- All values of a witness fit the field. -/
def Witness.Fitting (m : Int) (w : Witness) : Prop :=
  ∀ id values, w.values? id = some values → ∀ x ∈ values, Field.Fits m x

theorem Witness.readEntries_fits [Platform] {m : Int} {g : Circuit.Graph}
    {fields : List (String × Json)} {ids : List String} {w : Witness}
    (h : readEntries m g fields ids = .ok w) :
    ∀ p ∈ w, ∀ x ∈ p.2.values, Field.Fits m x := by
  induction ids generalizing w with
  | nil =>
    cases h
    simp
  | cons id ids ih =>
    rw [readEntries] at h
    split at h
    · exact absurd h (by simp)
    split at h
    · exact absurd h (by simp)
    split at h
    · exact absurd h (by simp)
    next e he =>
    obtain ⟨rest, hr, rfl⟩ := Sequences.map_ok h
    intro p hp
    rcases List.mem_cons.1 hp with rfl | hp
    · exact (readEntry_fills he).fits
    · exact ih hr p hp

theorem Witness.read_fitting [Platform] {m : Int} {g : Circuit.Graph} {given : Json} {w : Witness}
    (h : read m g given = .ok w) : w.Fitting m := by
  unfold read at h
  split at h
  · exact absurd h (by simp)
  intro id values hv
  obtain ⟨e, he, rfl⟩ := Option.map_eq_some_iff.1 hv
  obtain ⟨pre, post, rfl, -⟩ := List.lookup_eq_some_iff.1 he
  exact readEntries_fits h (id, e) (by simp)

end TensorAsm
