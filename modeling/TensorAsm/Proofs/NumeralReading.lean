import Mathlib.Data.List.TakeWhile
import Mathlib.Data.Nat.Digits.Lemmas
import TensorAsm.Field
import TensorAsm.Proofs.Numerals
/-!
Which texts are numerals, and what they stand for. A decimal numeral is an optional sign and digits,
a hexadecimal one has a mark in front of its digits; digits may be divided by single underscores.
-/

namespace TensorAsm

theorem Field.liftNumeral_ok {α : Type} {x : Except Numeral.Defect α} {a : α} :
    liftNumeral x = .ok a ↔ x = .ok a := by
  cases x <;> simp [liftNumeral]

namespace Numeral

open Text

/-- Digits with single underscores between some of them, and the values of the digits. -/
inductive Digits (base : Nat) : List Char → List Nat → Prop
  | one {c : Char} {d : Nat} : digitValue? base c = some d → Digits base [c] [d]
  | next {c : Char} {d : Nat} {s : List Char} {ds : List Nat} :
      digitValue? base c = some d → Digits base s ds → Digits base (c :: s) (d :: ds)
  | apart {c : Char} {d : Nat} {s : List Char} {ds : List Nat} :
      digitValue? base c = some d → Digits base s ds → Digits base (c :: '_' :: s) (d :: ds)

inductive Sign : Bool → List Char → Prop
  | none : Sign false []
  | plus : Sign false ['+']
  | minus : Sign true ['-']

/-- The number with the given digits, the greatest place first. -/
def number (negative : Bool) (base : Nat) (ds : List Nat) : Int :=
  let v : Nat := Nat.ofDigits base ds.reverse
  if negative then -(v : Int) else v

/-- A decimal numeral with digits of any script. -/
def Decimal (body : List Char) (n : Int) : Prop :=
  ∃ negative sign run ds, body.map plain = sign ++ run ∧ Sign negative sign ∧ Digits 10 run ds ∧
    ds.length ≤ lengthLimit ∧ n = number negative 10 ds

/-- A hexadecimal numeral behind its mark, of any length. -/
def Hexadecimal (body : List Char) (n : Int) : Prop :=
  ∃ mark rest gap run ds, body = '0' :: mark :: rest ∧ (mark = 'x' ∨ mark = 'X') ∧
    rest.map plain = gap ++ run ∧ (gap = [] ∨ gap = ['_']) ∧ Digits 16 run ds ∧
      n = number false 16 ds

theorem digit_lt {c : Char} {d : Nat} (h : digit? c = some d) : d < 10 := by
  obtain ⟨z, hz, rfl⟩ := Option.map_eq_some_iff.1 h
  have hc := List.find?_some hz
  simp only [Bool.and_eq_true, decide_eq_true_eq] at hc
  omega

theorem plain_cases (c : Char) :
    c.toNat < 127 ∧ plain c = c ∨ isBlank c = true ∧ plain c = ' ' ∨
      (∃ d < 10, plain c = Nat.digitChar d) ∨ plain c = '?' := by
  unfold plain
  split
  · next h => exact .inl ⟨h, rfl⟩
  split
  · next h => exact .inr (.inl ⟨h, rfl⟩)
  · cases hd : digit? c with
    | none => exact .inr (.inr (.inr rfl))
    | some d => exact .inr (.inr (.inl ⟨d, digit_lt hd, rfl⟩))

theorem digitValue_lt {base d : Nat} {c : Char} (h : digitValue? base c = some d) : d < base := by
  unfold digitValue? at h
  simp only [Option.ite_none_right_eq_some, Option.some.injEq] at h
  exact h.2 ▸ h.1

theorem digitValue_none {base : Nat} (hb : base ≤ 16) {c : Char}
    (h : c.toNat < 48 ∨ 57 < c.toNat ∧ c.toNat < 65 ∨ 70 < c.toNat ∧ c.toNat < 97) :
    digitValue? base c = none := by
  have hd : ¬(48 ≤ c.toNat ∧ c.toNat ≤ 57) := by omega
  have hl : ¬(97 ≤ c.toNat ∧ c.toNat ≤ 102) := by omega
  have hu : ¬(65 ≤ c.toNat ∧ c.toNat ≤ 70) := by omega
  simp only [digitValue?, hd, hl, hu, if_false, Nat.not_lt.2 hb]

theorem orderly_cons {c : Char} {s : List Char} : orderly (c :: s) = true ↔
    c ≠ '_' ∧ (s = [] ∨ orderly s = true ∨ ∃ t, s = '_' :: t ∧ orderly t = true) := by
  by_cases hc : c = '_'
  · simp [orderly, hc]
  have hdouble : hasDouble (c :: s) = hasDouble s := by
    rw [hasDouble]
    rintro t rfl
    exact absurd rfl hc
  cases s with
  | nil => simp [orderly, hdouble, hc, hasDouble]
  | cons e t =>
    by_cases he : e = '_'
    · subst he
      cases t with
      | nil => simp [orderly, hc]
      | cons f t =>
        by_cases hf : f = '_'
        · subst hf
          simp [orderly, hdouble, hasDouble]
        · have hskip : hasDouble ('_' :: f :: t) = hasDouble (f :: t) := by
            rw [hasDouble]
            rintro u - hu
            exact hf (List.cons.inj hu).1
          simp [orderly, hc, hf, hdouble, hskip]
    · simp [orderly, hc, he, hdouble]

theorem isSpace_bounds {c : Char} (h : isSpace c = true) : c.toNat < 48 := by
  simp only [isSpace, Bool.or_eq_true, Bool.and_eq_true, decide_eq_true_eq, beq_iff_eq] at h
  rcases h with h | rfl
  · omega
  · decide

theorem isRunChar_space {base : Nat} (hb : base ≤ 16) {c : Char} (h : isSpace c = true) :
    isRunChar base c = false := by
  have hlt := isSpace_bounds h
  have hu : c ≠ '_' := by
    rintro rfl
    exact absurd hlt (by decide)
  rw [isRunChar, digitValue_none hb (.inl hlt)]
  simpa using hu

namespace Digits

variable {base : Nat} {run : List Char} {ds : List Nat}

theorem head (h : Digits base run ds) : ∃ c d s, run = c :: s ∧ digitValue? base c = some d := by
  cases h with
  | one hc => exact ⟨_, _, _, rfl, hc⟩
  | next hc _ => exact ⟨_, _, _, rfl, hc⟩
  | apart hc _ => exact ⟨_, _, _, rfl, hc⟩

theorem isRunChar (h : Digits base run ds) : ∀ c ∈ run, isRunChar base c = true := by
  induction h with
  | one hc => simp [Numeral.isRunChar, hc]
  | next hc _ ih => simpa [Numeral.isRunChar, hc] using ih
  | apart hc _ ih => simpa [Numeral.isRunChar, hc] using ih

theorem ne_underscore (hb : base ≤ 16) {c : Char} {d : Nat} (h : digitValue? base c = some d) :
    c ≠ '_' := by
  rintro rfl
  rw [digitValue_none hb (.inr (.inr (by decide)))] at h
  simp at h

theorem orderly (hb : base ≤ 16) (h : Digits base run ds) : orderly run = true := by
  induction h with
  | one hc => exact orderly_cons.2 ⟨ne_underscore hb hc, .inl rfl⟩
  | next hc _ ih => exact orderly_cons.2 ⟨ne_underscore hb hc, .inr (.inl ih)⟩
  | apart hc _ ih => exact orderly_cons.2 ⟨ne_underscore hb hc, .inr (.inr ⟨_, rfl, ih⟩)⟩

theorem values (hb : base ≤ 16) (h : Digits base run ds) :
    (digitsOf run).map (digitValue? base) = ds.map some := by
  induction h with
  | one hc => simp [digitsOf, ne_underscore hb hc, hc]
  | next hc _ ih =>
    rw [digitsOf, List.filter_cons_of_pos (by simpa using ne_underscore hb hc), List.map_cons, hc,
      List.map_cons]
    exact congrArg _ ih
  | apart hc _ ih =>
    rw [digitsOf, List.filter_cons_of_pos (by simpa using ne_underscore hb hc),
      List.filter_cons_of_neg (by simp), List.map_cons, hc, List.map_cons]
    exact congrArg _ ih

theorem length_eq (hb : base ≤ 16) (h : Digits base run ds) :
    (digitsOf run).length = ds.length := by
  simpa using congrArg List.length (h.values hb)

theorem lt_base (h : Digits base run ds) : ∀ d ∈ ds, d < base := by
  induction h with
  | one hc => simpa using digitValue_lt hc
  | next hc _ ih => simpa using ⟨digitValue_lt hc, ih⟩
  | apart hc _ ih => simpa using ⟨digitValue_lt hc, ih⟩

end Digits

theorem valueOf_eq {base : Nat} {s : List Char} {ds : List Nat}
    (h : s.map (digitValue? base) = ds.map some) :
    valueOf base s = Nat.ofDigits base ds.reverse := by
  have key (v : Nat) : s.foldl (fun v c => v * base + (digitValue? base c).getD 0) v =
      v * base ^ ds.length + Nat.ofDigits base ds.reverse := by
    induction s generalizing v ds with
    | nil =>
      obtain rfl : ds = [] := by simpa using h.symm
      simp
    | cons c s ih =>
      cases ds with
      | nil => simp at h
      | cons d ds =>
        obtain ⟨hc, hs⟩ := List.cons.inj h
        rw [List.foldl_cons, hc, ih hs, List.reverse_cons, Nat.ofDigits_append,
          List.length_reverse, Nat.ofDigits_singleton, List.length_cons, Option.getD_some]
        ring
  rw [valueOf, key, Nat.zero_mul, Nat.zero_add]

theorem exists_digits {base : Nat} {run : List Char} (h : ∀ c ∈ run, isRunChar base c = true)
    (ho : orderly run = true) : ∃ ds, Digits base run ds := by
  induction hn : run.length using Nat.strongRecOn generalizing run with
  | ind n ih =>
    cases run with
    | nil => simp [orderly] at ho
    | cons c s =>
      rw [List.forall_mem_cons] at h
      rw [List.length_cons] at hn
      obtain ⟨hne, hs⟩ := orderly_cons.1 ho
      obtain ⟨d, hd⟩ : ∃ d, digitValue? base c = some d := by
        simpa [isRunChar, hne, Option.isSome_iff_exists] using h.1
      rcases hs with rfl | hs | ⟨t, rfl, ht⟩
      · exact ⟨[d], .one hd⟩
      · obtain ⟨ds, hds⟩ := ih s.length (by omega) h.2 hs rfl
        exact ⟨d :: ds, .next hd hds⟩
      · rw [List.length_cons] at hn
        obtain ⟨ds, hds⟩ := ih t.length (by omega) (List.forall_mem_cons.1 h.2).2 ht rfl
        exact ⟨d :: ds, .apart hd hds⟩

section

variable {radix : Radix} {text : String} {s rest tail : List Char} {negative : Bool} {base : Nat}
  {n : Int}

theorem readChars_eq_ok (hsign : splitSign (s.dropWhile isSpace) = (negative, rest))
    (hmark : splitMark radix rest = (base, false, tail)) :
    readChars radix text s = .ok n ↔ orderly (tail.takeWhile (isRunChar base)) = true ∧
      (base = 10 → (digitsOf (tail.takeWhile (isRunChar base))).length ≤ lengthLimit) ∧
      (tail.dropWhile (isRunChar base)).all isSpace = true ∧
      n = if negative then -(valueOf base (digitsOf (tail.takeWhile (isRunChar base))) : Int)
        else valueOf base (digitsOf (tail.takeWhile (isRunChar base))) := by
  simp only [readChars, hsign, hmark]
  cases orderly (tail.takeWhile (isRunChar base)) with
  | false => simp
  | true =>
    by_cases hl : base = 10 ∧ lengthLimit < (digitsOf (tail.takeWhile (isRunChar base))).length
    · rw [if_neg (by simp), if_pos hl]
      simp [hl.1, hl.1 ▸ hl.2]
    · have hle : base = 10 → (digitsOf (tail.takeWhile (isRunChar base))).length ≤ lengthLimit :=
        fun h10 => Nat.not_lt.1 fun hlt => hl ⟨h10, hlt⟩
      rw [if_neg (by simp), if_neg hl, if_neg (by simp), and_iff_right rfl, and_iff_right hle]
      cases (tail.dropWhile (isRunChar base)).all isSpace <;> simp [eq_comm]

/-- What is read behind the sign and the mark: digits, and then only spaces. -/
theorem readChars_iff (hsign : splitSign (s.dropWhile isSpace) = (negative, rest))
    (hmark : splitMark radix rest = (base, false, tail)) (hb : base ≤ 16) :
    readChars radix text s = .ok n ↔ ∃ run b ds, tail = run ++ b ∧ Digits base run ds ∧
      (∀ c ∈ b, isSpace c = true) ∧ (base = 10 → ds.length ≤ lengthLimit) ∧
        n = number negative base ds := by
  rw [readChars_eq_ok hsign hmark, List.all_eq_true]
  constructor
  · rintro ⟨ho, hl, hs, rfl⟩
    obtain ⟨ds, hd⟩ := exists_digits (fun c => List.mem_takeWhile_imp) ho
    refine ⟨_, _, ds, (List.takeWhile_append_dropWhile).symm, hd, hs, ?_, ?_⟩
    · rwa [← hd.length_eq hb]
    · rw [valueOf_eq (hd.values hb), number]
  · rintro ⟨run, b, ds, rfl, hd, hs, hl, rfl⟩
    have hnone : b.takeWhile (isRunChar base) = [] ∧ b.dropWhile (isRunChar base) = b := by
      cases b with
      | nil => simp
      | cons c b => simp [isRunChar_space hb (hs c (by simp))]
    rw [List.takeWhile_append_of_pos hd.isRunChar, List.dropWhile_append_of_pos hd.isRunChar,
      hnone.1, hnone.2, List.append_nil, hd.length_eq hb, valueOf_eq (hd.values hb)]
    exact ⟨hd.orderly hb, hl, hs, rfl⟩

theorem splitSign_sign (s : List Char) :
    ∃ sign, Sign (splitSign s).1 sign ∧ s = sign ++ (splitSign s).2 := by
  unfold splitSign
  split
  · exact ⟨['-'], .minus, rfl⟩
  · exact ⟨['+'], .plus, rfl⟩
  · exact ⟨[], .none, rfl⟩

theorem Sign.splitSign {sign run b : List Char} {ds : List Nat} (h : Sign negative sign)
    (hd : Digits 10 run ds) :
    splitSign ((sign ++ run ++ b).dropWhile isSpace) = (negative, run ++ b) := by
  cases h with
  | plus | minus => rfl
  | none =>
    obtain ⟨c, d, s, rfl, hc⟩ := hd.head
    -- spaces and signs stand before all digits
    have hdigit : ¬c.toNat < 48 := by
      intro hlt
      rw [digitValue_none (by decide) (.inl hlt)] at hc
      simp at hc
    have hspace : isSpace c = false := by
      rw [Bool.eq_false_iff]
      exact fun hs => hdigit (isSpace_bounds hs)
    rw [List.nil_append, List.cons_append, List.dropWhile_cons_of_neg (by simp [hspace])]
    unfold Numeral.splitSign
    split
    · next he => exact absurd ((List.cons.inj he).1 ▸ hdigit) (by decide)
    · next he => exact absurd ((List.cons.inj he).1 ▸ hdigit) (by decide)
    · rfl

theorem read_decimal_iff : read .decimal text = .ok n ↔ ∃ a body b,
    text.toList = a ++ body ++ b ∧ (∀ c ∈ a ++ b, isSpace (plain c) = true) ∧ Decimal body n := by
  rw [read]
  constructor
  · intro h
    obtain ⟨sign, hsign, hsplit⟩ :=
      splitSign_sign ((text.toList.map plain).dropWhile isSpace)
    obtain ⟨run, b, ds, htail, hd, hs, hl, hn⟩ :=
      (readChars_iff (Prod.eta (splitSign _)).symm rfl (by decide)).1 h
    rw [htail, ← List.append_assoc] at hsplit
    have hall := (List.takeWhile_append_dropWhile (p := isSpace) (l := text.toList.map plain)).symm
    rw [hsplit, ← List.append_assoc, List.map_eq_append_iff] at hall
    obtain ⟨front, back, htext, hfront, rfl⟩ := hall
    obtain ⟨start, body, rfl, hstart, hbody⟩ := List.map_eq_append_iff.1 hfront
    refine ⟨start, body, back, htext, ?_, _, sign, run, ds, hbody, hsign, hd, hl rfl, hn⟩
    intro c hc
    rcases List.mem_append.1 hc with hc | hc
    · exact List.mem_takeWhile_imp (hstart ▸ List.mem_map_of_mem hc)
    · exact hs _ (List.mem_map_of_mem hc)
  · rintro ⟨a, body, b, htext, hs, negative, sign, run, ds, hbody, hsign, hd, hl, rfl⟩
    have hspaces {l : List Char} (hl : l ⊆ a ++ b) : ∀ c ∈ l.map plain, isSpace c = true := by
      intro c hc
      obtain ⟨e, he, rfl⟩ := List.mem_map.1 hc
      exact hs e (hl he)
    rw [htext, List.map_append, List.map_append, hbody, List.append_assoc]
    have hmark : splitMark .decimal (run ++ b.map plain) = (10, false, run ++ b.map plain) := rfl
    refine (readChars_iff ?_ hmark (by decide)).2
      ⟨run, _, ds, rfl, hd, hspaces (List.subset_append_right _ _), fun _ => hl, rfl⟩
    rw [List.dropWhile_append_of_pos (hspaces (List.subset_append_left _ _))]
    exact hsign.splitSign hd

theorem behindMark_gap (s : List Char) :
    ∃ gap, (gap = [] ∨ gap = ['_']) ∧ s = gap ++ splitMark.behindMark s := by
  unfold splitMark.behindMark
  split
  · exact ⟨['_'], .inr rfl, rfl⟩
  · exact ⟨[], .inl rfl, rfl⟩

theorem behindMark_digits {gap run b : List Char} {ds : List Nat} (hg : gap = [] ∨ gap = ['_'])
    (hd : Digits 16 run ds) : splitMark.behindMark (gap ++ run ++ b) = run ++ b := by
  rcases hg with rfl | rfl
  · obtain ⟨c, d, s, rfl, hc⟩ := hd.head
    unfold splitMark.behindMark
    split
    · next he => exact absurd (List.cons.inj he).1 (Digits.ne_underscore (by decide) hc)
    · rfl
  · rfl

theorem read_hexadecimal_iff {mark : Char} {rest : List Char} (hm : mark = 'x' ∨ mark = 'X') :
    read .hexadecimal (String.ofList ('0' :: mark :: rest)) = .ok n ↔ ∃ body b,
      '0' :: mark :: rest = body ++ b ∧ (∀ c ∈ b, isSpace (plain c) = true) ∧
        Hexadecimal body n := by
  have hplain : ('0' :: mark :: rest).map plain = '0' :: mark :: rest.map plain := by
    rcases hm with rfl | rfl <;> rfl
  have hsign : splitSign (('0' :: mark :: rest.map plain).dropWhile isSpace) =
      (false, '0' :: mark :: rest.map plain) := rfl
  have hmark : splitMark .hexadecimal ('0' :: mark :: rest.map plain) =
      (16, false, splitMark.behindMark (rest.map plain)) := by
    rw [splitMark, if_pos hm]
  rw [read, String.toList_ofList, hplain, readChars_iff hsign hmark (by decide)]
  constructor
  · rintro ⟨run, b, ds, htail, hd, hs, -, hn⟩
    obtain ⟨gap, hg, hrest⟩ := behindMark_gap (rest.map plain)
    rw [htail, ← List.append_assoc] at hrest
    obtain ⟨front, back, rfl, hfront, rfl⟩ := List.map_eq_append_iff.1 hrest
    exact ⟨'0' :: mark :: front, back, rfl, fun c hc => hs _ (List.mem_map_of_mem hc), mark, front,
      gap, run, ds, rfl, hm, hfront, hg, hd, hn⟩
  · rintro ⟨body, b, hbody, hs, mark', front, gap, run, ds, rfl, -, hfront, hg, hd, hn⟩
    obtain ⟨-, hrest⟩ := List.cons.inj hbody
    obtain ⟨rfl, rfl⟩ := List.cons.inj hrest
    refine ⟨run, b.map plain, ds, ?_, hd, ?_, by simp, hn⟩
    · rw [List.append_eq, List.map_append, hfront, behindMark_digits hg hd]
    · intro c hc
      obtain ⟨e, he, rfl⟩ := List.mem_map.1 hc
      exact hs e he

theorem ofDigits_lt_pow {ds : List Nat} {k : Nat} (hd : ∀ d ∈ ds, d < 10) (hk : ds.length ≤ k) :
    Nat.ofDigits 10 ds < Nat.pow 10 k :=
  (Nat.ofDigits_lt_base_pow_length (by decide) hd).trans_le (Nat.pow_le_pow_right (by decide) hk)

theorem read_writable (h : read .decimal text = .ok n) : isWritable n = true := by
  obtain ⟨a, body, b, -, -, negative, sign, run, ds, -, -, hd, hl, rfl⟩ := read_decimal_iff.1 h
  have hlt : Nat.ofDigits 10 ds.reverse < Nat.pow 10 lengthLimit :=
    ofDigits_lt_pow (fun d hd' => hd.lt_base d (List.mem_reverse.1 hd')) (by simpa using hl)
  have habs : (number negative 10 ds).natAbs = Nat.ofDigits 10 ds.reverse := by
    cases negative <;> simp [number]
  unfold isWritable writeLimit
  rw [habs, decide_eq_true_eq]
  exact hlt

theorem Decimal.nonneg {body : List Char} (h : Decimal body n) (hc : '-' ∉ body.map plain) :
    0 ≤ n := by
  obtain ⟨negative, sign, run, ds, hbody, hsign, -, -, rfl⟩ := h
  cases hsign with
  | none | plus => simp [number]
  | minus => simp [hbody] at hc

end

end Numeral

end TensorAsm
