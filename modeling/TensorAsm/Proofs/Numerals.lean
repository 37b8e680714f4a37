import TensorAsm.Decimal
import TensorAsm.Proofs.Texts
/-!
Written numbers. An integer that is written at all is read back, and the text of a number is a
single word.
-/

namespace TensorAsm

namespace Text

theorem isDigit_bounds {c : Char} (h : c.isDigit = true) : 48 ≤ c.toNat ∧ c.toNat ≤ 57 := by
  simp only [Char.isDigit, Bool.and_eq_true, decide_eq_true_eq] at h
  exact h

theorem isBlank_digit {c : Char} (h : c.isDigit = true) : isBlank c = false := by
  have hb := isDigit_bounds h
  simp only [isBlank, Bool.or_eq_false_iff, Bool.and_eq_false_iff, decide_eq_false_iff_not,
    beq_eq_false_iff_ne]
  omega

end Text

namespace Numeral

open Text

theorem plain_ascii {c : Char} (h : c.toNat < 127) : plain c = c := by
  rw [plain, if_pos h]

theorem digitValue_digit {c : Char} (h : c.isDigit = true) :
    digitValue? 10 c = some (c.toNat - 48) := by
  have hb := isDigit_bounds h
  rw [digitValue?, if_pos hb, if_pos (by omega)]

theorem valueOf_digits {s : List Char} (h : ∀ c ∈ s, c.isDigit = true) :
    valueOf 10 s = Nat.ofDigitChars 10 s 0 := by
  have key (v : Nat) : s.foldl (fun v c => v * 10 + (digitValue? 10 c).getD 0) v =
      Nat.ofDigitChars 10 s v := by
    induction s generalizing v with
    | nil => rfl
    | cons c s ih =>
      rw [List.foldl_cons, Nat.ofDigitChars_cons, digitValue_digit (h c (by simp)),
        ih (fun d hd => h d (by simp [hd])), Nat.mul_comm]
      rfl
  exact key 0

theorem orderly_digits {s : List Char} (hne : s ≠ []) (h : ∀ c ∈ s, c.isDigit = true) :
    orderly s = true := by
  have hu : '_' ∉ s := fun hm => absurd (h _ hm) (by decide)
  have hd : hasDouble s = false := by
    clear hne h
    induction s with
    | nil => rfl
    | cons c s ih =>
      rw [List.mem_cons, not_or] at hu
      rw [hasDouble, ih hu.2]
      rintro s' rfl rfl
      exact hu.1 rfl
  have hh : s.head? ≠ some '_' := fun he => hu (List.mem_of_mem_head? he)
  have hl : s.getLast? ≠ some '_' := fun he => hu (List.mem_of_getLast? he)
  simp [orderly, hne, hh, hl, hd]

theorem splitSign_digits {s : List Char} (h : ∀ c ∈ s, c.isDigit = true) :
    splitSign s = (false, s) := by
  unfold splitSign
  split
  · exact absurd (h '-' (by simp)) (by decide)
  · exact absurd (h '+' (by simp)) (by decide)
  · rfl

theorem readChars_digits (negative : Bool) {s : List Char} (hne : s ≠ [])
    (h : ∀ c ∈ s, c.isDigit = true) (hl : s.length ≤ lengthLimit) (text : String) :
    readChars .decimal text (if negative then '-' :: s else s) =
      .ok (if negative then -(Nat.ofDigitChars 10 s 0 : Int) else Nat.ofDigitChars 10 s 0) := by
  have hrun : ∀ c ∈ s, isRunChar 10 c = true := by
    intro c hc
    rw [isRunChar, digitValue_digit (h c hc)]
    simp
  have hsplit : splitSign ((if negative then '-' :: s else s).dropWhile isSpace) =
      (negative, s) := by
    cases negative with
    | true => rfl
    | false =>
      cases s with
      | nil => exact absurd rfl hne
      | cons c s =>
        have hb := isDigit_bounds (h c (by simp))
        have hsp : isSpace c = false := by
          simp only [isSpace, Bool.or_eq_false_iff, Bool.and_eq_false_iff,
            decide_eq_false_iff_not, beq_eq_false_iff_ne]
          refine ⟨by omega, ?_⟩
          rintro rfl
          exact absurd hb (by decide)
        rw [if_neg (by simp), List.dropWhile_cons_of_neg (by simp [hsp]), splitSign_digits h]
  have hdigits : digitsOf s = s := by
    rw [digitsOf, List.filter_eq_self]
    intro c hc
    rw [bne_iff_ne]
    rintro rfl
    exact absurd (h _ hc) (by decide)
  unfold readChars
  rw [hsplit]
  simp only [splitMark, List.takeWhile_eq_self_iff.2 hrun, List.dropWhile_eq_nil_iff.2 hrun,
    orderly_digits hne h, hdigits, valueOf_digits h]
  simp only [Bool.not_true, Bool.false_eq_true, if_false, true_and, false_and, List.all_nil,
    Nat.not_lt.2 hl]

theorem toList_write (n : Int) :
    (write n).toList = if n < 0 then '-' :: Nat.toDigits 10 n.natAbs
      else Nat.toDigits 10 n.natAbs := by
  rw [write, Int.toString_eq_repr, Int.repr_eq_if]
  by_cases h : 0 ≤ n
  · rw [if_pos h, if_neg (by omega), Nat.toList_repr]
    congr 1
    omega
  · rw [if_neg h, if_pos (by omega), String.toList_append, Nat.toList_repr]
    rw [show (-n).toNat = n.natAbs by omega]
    rfl

theorem toList_write_nat (n : Nat) : (write n).toList = Nat.toDigits 10 n := by
  rw [toList_write, if_neg (by omega), Int.natAbs_natCast]

theorem isDigit_toDigits (n : Nat) : ∀ c ∈ Nat.toDigits 10 n, c.isDigit = true :=
  fun _ hc => Nat.isDigit_of_mem_toDigits (by decide) (by decide) hc

theorem length_toDigits_le {n k : Nat} (hk : 0 < k) (h : n < Nat.pow 10 k) :
    (Nat.toDigits 10 n).length ≤ k :=
  (Nat.length_toDigits_le_iff (by decide) hk).2 h

theorem length_toDigits {n : Int} (h : isWritable n = true) :
    (Nat.toDigits 10 n.natAbs).length ≤ lengthLimit := by
  have hlt : n.natAbs < writeLimit := of_decide_eq_true h
  unfold writeLimit at hlt
  exact length_toDigits_le (Nat.succ_pos _) hlt

theorem mem_write {n : Int} {c : Char} (h : c ∈ (write n).toList) :
    c.isDigit = true ∨ c = '-' ∧ n < 0 := by
  rw [toList_write] at h
  split at h
  · next hn =>
      rcases List.mem_cons.1 h with rfl | h
      · exact .inr ⟨rfl, hn⟩
      · exact .inl (isDigit_toDigits _ c h)
  · exact .inl (isDigit_toDigits _ c h)

theorem plain_write (n : Int) : (write n).toList.map plain = (write n).toList := by
  have hid : ∀ c ∈ (write n).toList, plain c = c := by
    intro c hc
    apply plain_ascii
    rcases mem_write hc with hd | ⟨rfl, -⟩
    · have hb := isDigit_bounds hd
      omega
    · decide
  rw [List.map_congr_left hid, List.map_id']

theorem read_write {n : Int} (h : isWritable n = true) : read .decimal (write n) = .ok n := by
  have hr := readChars_digits (decide (n < 0)) Nat.toDigits_ne_nil (isDigit_toDigits n.natAbs)
    (length_toDigits h) (write n)
  simp only [decide_eq_true_eq, ← toList_write, Nat.ofDigitChars_ten_toDigits] at hr
  have hn : (if n < 0 then -(n.natAbs : Int) else n.natAbs) = n := by
    clear h hr
    split <;> omega
  rw [read, plain_write, hr, hn]

theorem write_ne_nil (n : Int) : (write n).toList ≠ [] := by
  rw [toList_write]
  split <;> simp

theorem word_write (n : Int) : Word (write n).toList := by
  refine ⟨write_ne_nil n, fun c hc => ?_, fun hc => ?_⟩
  · rcases mem_write hc with hd | ⟨rfl, -⟩
    · exact isBlank_digit hd
    · rfl
  · rcases mem_write hc with hd | ⟨he, -⟩
    · exact absurd hd (by decide)
    · exact absurd he (by decide)

@[simp] theorem oneLine_write (n : Int) : OneLine (write n).toList := (word_write n).oneLine

end Numeral

namespace Decimal

open Text

theorem oneLine_toDigits (n : Nat) : OneLine (Nat.toDigits 10 n) := by
  rw [← Numeral.toList_write_nat]
  exact Numeral.oneLine_write n

theorem oneLine_zeros (n : Nat) : OneLine (List.replicate n '0') := by
  intro c hc
  rw [List.eq_of_mem_replicate hc]
  rfl

theorem Scientific.oneLine_write (s : Scientific) : OneLine s.write.toList := by
  have hd := oneLine_toDigits s.digits
  have htake (n : Nat) : OneLine ((Nat.toDigits 10 s.digits).take n) :=
    hd.subset (List.take_subset _ _)
  have hdrop (n : Nat) : OneLine ((Nat.toDigits 10 s.digits).drop n) :=
    hd.subset (List.drop_subset _ _)
  have hexp : OneLine (writeExponent s.exponent).toList := by
    unfold writeExponent
    split <;> split <;> simp [isBreak]
  unfold Scientific.write
  dsimp only
  split
  · split
    · simp [isBreak, hd, oneLine_zeros]
    · split <;> simp [isBreak, htake, hdrop, oneLine_zeros]
  · split <;> simp [isBreak, htake, hd.subset (List.tail_sublist _).subset, hexp]

theorem oneLine_write (x : Float) : OneLine (write x).toList := by
  unfold write
  split
  · decide
  · split <;> decide
  · next negative m e _ =>
      have hm : OneLine (if m = 0 then "0.0" else (shortest m e).write).toList := by
        split
        · decide
        · exact Scientific.oneLine_write _
      cases negative <;> simpa [isBreak] using hm

end Decimal

end TensorAsm
