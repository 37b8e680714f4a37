import Mathlib
import TensorAsm.Proofs.NumeralReading
import TensorAsm.Proofs.RoundTrip
import TensorAsm.Proofs.WitnessFaults
/-!
Which witnesses are read, and what is read of them: the leaves of the entry of each tensor from left
to right, integers of the field written in one of three ways.
-/

namespace TensorAsm

/-! ## Values -/

namespace Text

theorem trimStart_blanks {a : List Char} (h : ∀ c ∈ a, isBlank c = true) (s : List Char) :
    trimStart (a ++ s) = trimStart s :=
  List.dropWhile_append_of_pos h

theorem trimEnd_blanks {b : List Char} (h : ∀ c ∈ b, isBlank c = true) : trimEnd b = [] := by
  rw [trimEnd, List.reverse_eq_nil_iff, List.dropWhile_eq_nil_iff]
  exact fun c hc => h c (List.mem_reverse.1 hc)

theorem trim_blanks {a s b : List Char} (h : ∀ c ∈ a ++ b, isBlank c = true)
    (hs : ∀ c ∈ s, isBlank c = false) (hne : s ≠ []) : trim (a ++ s ++ b) = s := by
  have hhead : ∀ c ∈ (s ++ b).head?, isBlank c = false := by
    rw [List.head?_append, Option.or_of_isSome (by simpa using hne)]
    exact fun c hc => hs c (List.mem_of_mem_head? hc)
  rw [trim, List.append_assoc, trimStart_blanks fun c hc => h c (List.mem_append_left _ hc),
    trimStart_solid hhead, trimEnd_append fun c hc => hs c (List.mem_of_getLast? hc),
    trimEnd_blanks fun c hc => h c (List.mem_append_right _ hc), List.append_nil]

theorem exists_trim (s : List Char) :
    ∃ a b, s = a ++ trim s ++ b ∧ ∀ c ∈ a ++ b, isBlank c = true := by
  refine ⟨s.takeWhile isBlank, ((trimStart s).reverse.takeWhile isBlank).reverse, ?_, ?_⟩
  · rw [List.append_assoc, trim, trimEnd, ← List.reverse_append, List.takeWhile_append_dropWhile,
      List.reverse_reverse]
    exact List.takeWhile_append_dropWhile.symm
  · intro c hc
    rcases List.mem_append.1 hc with hc | hc
    · exact List.mem_takeWhile_imp hc
    · exact List.mem_takeWhile_imp (List.mem_reverse.1 hc)

end Text

theorem Field.exists_mark {t : List Char} (h : hasHexMark t = true) :
    ∃ mark rest, t = '0' :: mark :: rest ∧ (mark = 'x' ∨ mark = 'X') := by
  unfold hasHexMark at h
  split at h
  · exact ⟨_, _, rfl, by simpa using h⟩
  · simp at h

namespace Numeral

open Text

theorem plain_blank {c : Char} (h : isBlank c = true) : (plain c).toNat < 43 := by
  unfold plain
  split
  · simp only [isBlank, Bool.or_eq_true, Bool.and_eq_true, decide_eq_true_eq, beq_iff_eq] at h
    omega
  · decide

theorem blank_of_isSpace {c : Char} (h : isSpace (plain c) = true) : isBlank c = true := by
  have hdigit : ∀ k < 10, isSpace (Nat.digitChar k) = false := by decide
  rcases plain_cases c with ⟨-, hc⟩ | ⟨hb, -⟩ | ⟨d, hd, hc⟩ | hc
  · rw [hc] at h
    simp only [isSpace, Bool.or_eq_true, Bool.and_eq_true, decide_eq_true_eq, beq_iff_eq] at h
    rcases h with h | rfl
    · simp [isBlank, h]
    · decide
  · exact hb
  · rw [hc, hdigit d hd] at h
    exact absurd h (by simp)
  · rw [hc] at h
    exact absurd h (by decide)

theorem isRunChar_bound {base : Nat} (hb : base ≤ 16) {c : Char} (h : isRunChar base c = true) :
    48 ≤ c.toNat := by
  by_contra hlt
  rw [isRunChar, digitValue_none hb (.inl (by omega))] at h
  obtain rfl : c = '_' := by simpa using h
  exact hlt (by decide)

theorem Sign.bound {negative : Bool} {sign : List Char} (h : Sign negative sign) :
    ∀ c ∈ sign, c = '+' ∨ c = '-' := by
  cases h <;> simp

theorem Decimal.mem {body : List Char} {n : Int} (h : Decimal body n) {c : Char} (hc : c ∈ body) :
    plain c = '+' ∨ plain c = '-' ∨ isRunChar 10 (plain c) = true := by
  obtain ⟨negative, sign, run, ds, hbody, hsign, hd, -, -⟩ := h
  have hm : plain c ∈ sign ++ run := hbody ▸ List.mem_map_of_mem hc
  rcases List.mem_append.1 hm with hm | hm
  · exact (hsign.bound _ hm).imp_right .inl
  · exact .inr (.inr (hd.isRunChar _ hm))

theorem Decimal.solid {body : List Char} {n : Int} (h : Decimal body n) :
    ∀ c ∈ body, isBlank c = false := by
  intro c hc
  rw [Bool.eq_false_iff]
  intro hb
  have hlt := plain_blank hb
  rcases h.mem hc with he | he | he
  · exact absurd hlt (by rw [he]; decide)
  · exact absurd hlt (by rw [he]; decide)
  · have := isRunChar_bound (by decide) he
    omega

theorem Decimal.ne_nil {body : List Char} {n : Int} (h : Decimal body n) : body ≠ [] := by
  rintro rfl
  obtain ⟨negative, sign, run, ds, hbody, -, hd, -⟩ := h
  obtain ⟨c, d, s, rfl, -⟩ := hd.head
  simp at hbody

theorem Decimal.hasHexMark {body : List Char} {n : Int} (h : Decimal body n) :
    Field.hasHexMark body = false := by
  unfold Field.hasHexMark
  split
  · next c s =>
      rw [Bool.eq_false_iff, ne_eq, Bool.or_eq_true, beq_iff_eq, beq_iff_eq]
      have hc := h.mem (List.mem_cons_of_mem '0' (List.mem_cons_self (a := c) (l := s)))
      rintro (rfl | rfl)
      · exact absurd hc (by decide)
      · exact absurd hc (by decide)
  · rfl

theorem Hexadecimal.solid {body : List Char} {n : Int} (h : Hexadecimal body n) :
    ∀ c ∈ body, isBlank c = false := by
  obtain ⟨mark, rest, gap, run, ds, rfl, hm, hrest, hg, hd, -⟩ := h
  have hmark : isBlank mark = false := by rcases hm with rfl | rfl <;> decide
  rw [List.forall_mem_cons, List.forall_mem_cons]
  refine ⟨by decide, hmark, fun c hc => ?_⟩
  rw [Bool.eq_false_iff]
  intro hb
  have hlt := plain_blank hb
  have hmem : plain c ∈ gap ++ run := hrest ▸ List.mem_map_of_mem hc
  have hge : 48 ≤ (plain c).toNat := by
    rcases List.mem_append.1 hmem with hmem | hmem
    · rcases hg with rfl | rfl
      · simp at hmem
      · rw [List.mem_singleton.1 hmem]
        decide
    · exact isRunChar_bound (by decide) (hd.isRunChar _ hmem)
  omega

theorem Hexadecimal.ne_nil {body : List Char} {n : Int} (h : Hexadecimal body n) : body ≠ [] := by
  obtain ⟨mark, rest, gap, run, ds, rfl, -⟩ := h
  simp

theorem Hexadecimal.hasHexMark {body : List Char} {n : Int} (h : Hexadecimal body n) :
    Field.hasHexMark body = true := by
  obtain ⟨mark, rest, gap, run, ds, rfl, hm, -⟩ := h
  simpa [Field.hasHexMark] using hm

theorem Hexadecimal.read {body : List Char} {n : Int} (h : Hexadecimal body n) :
    read .hexadecimal (String.ofList body) = .ok n := by
  obtain ⟨mark, rest, he, hm⟩ := Field.exists_mark h.hasHexMark
  rw [he, read_hexadecimal_iff hm, ← he]
  exact ⟨body, [], by simp, by simp, h⟩

end Numeral

namespace Field

open Text Numeral

/-- What a value of the witness stands for: an integer itself, a decimal numeral its number, a
hexadecimal one the integer around zero with that remainder. Blanks around a numeral do not
matter. -/
inductive Denotes (m : Int) : Json → Int → Prop
  | int (n : Int) : Denotes m (.int n) n
  | decimal {s : String} {a body b : List Char} {n : Int} : s.toList = a ++ body ++ b →
      (∀ c ∈ a ++ b, isBlank c = true) → Decimal body n → Denotes m (.str s) n
  | hexadecimal {s : String} {a body b : List Char} {n : Int} : s.toList = a ++ body ++ b →
      (∀ c ∈ a ++ b, isBlank c = true) → Hexadecimal body n → Denotes m (.str s) (centre m n)

theorem parse_decimal {m v : Int} {s : String} (h : hasHexMark (trim s.toList) = false) :
    parse m (.str s) = .ok v ↔
      Numeral.read .decimal (String.ofList (trim s.toList)) = .ok v := by
  simp only [parse, h, Bool.false_eq_true, if_false, liftNumeral_ok]

theorem parse_hexadecimal {m v : Int} (hm : m ≠ 0) {s : String}
    (h : hasHexMark (trim s.toList) = true) : parse m (.str s) = .ok v ↔
      ∃ e, Numeral.read .hexadecimal (String.ofList (trim s.toList)) = .ok e ∧ v = centre m e := by
  simp only [parse, h, if_true]
  cases hr : Numeral.read .hexadecimal (String.ofList (trim s.toList)) with
  | error d => simp [liftNumeral]
  | ok e => simp [liftNumeral, centre?, nonzero, hm, eq_comm]

theorem parse_iff {m v : Int} (hm : m ≠ 0) {j : Json} : parse m j = .ok v ↔ Denotes m j v := by
  constructor
  · intro h
    cases j with
    | int n => exact Except.ok.inj h ▸ .int n
    | str s =>
      obtain ⟨a, b, hs, hab⟩ := exists_trim s.toList
      have hblank {l : List Char} (hl : ∀ c ∈ l, isSpace (plain c) = true) :
          ∀ c ∈ l, isBlank c = true := fun c hc => blank_of_isSpace (hl c hc)
      cases hx : hasHexMark (trim s.toList) with
      | true =>
        obtain ⟨e, he, rfl⟩ := (parse_hexadecimal hm hx).1 h
        obtain ⟨mark, rest, ht, hmark⟩ := exists_mark hx
        rw [ht] at he hs
        obtain ⟨body, b', hbody, hb', hnum⟩ := (read_hexadecimal_iff hmark).1 he
        refine .hexadecimal (a := a) (b := b' ++ b) (by rw [hs, hbody]; simp) ?_ hnum
        have := hblank hb'
        simp only [List.mem_append] at hab ⊢
        grind
      | false =>
        obtain ⟨a', body, b', hbody, hs', hnum⟩ :=
          read_decimal_iff.1 ((parse_decimal hx).1 h)
        rw [String.toList_ofList] at hbody
        refine .decimal (a := a ++ a') (b := b' ++ b) (by rw [hs, hbody]; simp) ?_ hnum
        have := hblank hs'
        simp only [List.mem_append] at hab this ⊢
        grind
    | _ => simp [parse] at h
  · intro h
    cases h with
    | int => rfl
    | decimal hs hb hnum =>
      have ht := trim_blanks hb hnum.solid hnum.ne_nil
      rw [← hs] at ht
      rw [parse_decimal (by rw [ht, hnum.hasHexMark]), ht]
      exact read_decimal_iff.2 ⟨[], _, [], by simp, by simp, hnum⟩
    | hexadecimal hs hb hnum =>
      have ht := trim_blanks hb hnum.solid hnum.ne_nil
      rw [← hs] at ht
      rw [parse_hexadecimal hm (by rw [ht, hnum.hasHexMark]), ht]
      exact ⟨_, hnum.read, rfl⟩

end Field

/-! ## Leaves -/

namespace Json

/-- What is no list is its own leaf, and the leaves of a list are those of its items in order. -/
inductive Leaves : Json → List Json → Prop
  | leaf {j : Json} : (∀ items, j ≠ .arr items) → Leaves j [j]
  | nil : Leaves (.arr []) []
  | cons {j : Json} {items ls ls' : List Json} :
      Leaves j ls → Leaves (.arr items) ls' → Leaves (.arr (j :: items)) (ls ++ ls')

theorem Leaves.eq {j : Json} {ls : List Json} (h : Leaves j ls) : ls = j.leaves := by
  induction h with
  | @leaf j hj =>
    cases j with
    | arr items => exact absurd rfl (hj items)
    | _ => rw [leaves]; simp
  | nil => rw [leaves, leavesOf]
  | cons _ _ ih ih' =>
    rw [leaves] at ih'
    rw [leaves, leavesOf, ← ih, ← ih']

mutual

theorem leaves_leaves (j : Json) : Leaves j j.leaves := by
  cases j with
  | arr items =>
    rw [leaves]
    exact leavesOf_leaves items
  | _ => exact .leaf (by simp)

theorem leavesOf_leaves (items : List Json) : Leaves (.arr items) (leavesOf items) := by
  cases items with
  | nil => exact .nil
  | cons j items =>
    rw [leavesOf]
    exact .cons (leaves_leaves j) (leavesOf_leaves items)

end

theorem leaves_iff {j : Json} {ls : List Json} : Leaves j ls ↔ ls = j.leaves :=
  ⟨Leaves.eq, fun h => h ▸ leaves_leaves j⟩

end Json

/-! ## Entries -/

namespace Witness

open Circuit

/-- The leaves of an entry are as many as a tensor has places, and they stand for values that fit
the field. -/
def Supplies (m : Int) (t : Tensor) (given : Json) (values : List Int) : Prop :=
  ∃ ls, given.Leaves ls ∧ ls.length = Shape.volume t.shape ∧
    List.Forall₂ (fun leaf v => Field.Denotes m leaf v ∧ Field.Fits m v) ls values

/-- The shape of the tensor has few enough dimensions, and none of the products is too great for a
word. -/
def Bounded [Platform] (t : Tensor) : Prop :=
  t.shape.length ≤ Platform.axisLimit ∧ Shape.volume (t.shape.filter (· ≠ 0)) < Shape.wordHalf

/-- There is memory for the elements of the tensor, with eight bytes for each and none of the zero
dimensions counted. -/
def Allocatable (t : Tensor) : Prop :=
  8 * Shape.volume (t.shape.filter (· ≠ 0)) < Shape.wordHalf

instance (t : Tensor) : Decidable (Allocatable t) := inferInstanceAs (Decidable (_ < _))

variable {m : Int} {t : Tensor} {given : Json} {id : String} {leaf : Json} {v : Int} {f : Fault}

theorem readValue_iff (hm : 0 < m) :
    readValue m id leaf = .ok v ↔ Field.Denotes m leaf v ∧ Field.Fits m v := by
  rw [← Field.parse_iff hm.ne']
  unfold readValue
  split
  · next he => simp [he]
  · next he => simp [he]
  · next u he =>
      rw [he]
      split
      · next hf => simp only [Except.ok.injEq]; grind
      · next hf => simp only [Except.ok.injEq]; grind

theorem readValues_iff (hm : 0 < m) {ls : List Json} {values : List Int} :
    readValues m id ls = .ok values ↔
      List.Forall₂ (fun leaf v => Field.Denotes m leaf v ∧ Field.Fits m v) ls values := by
  constructor
  · intro h
    exact (Sequences.mapM_ok h).imp fun _ _ => (readValue_iff hm).1
  · intro h
    exact Sequences.mapM_of_forall₂ (h.imp fun _ _ => (readValue_iff hm).2)

section

variable [Platform] (h : Bounded t)

include h

theorem Bounded.lt_wordHalf : ∀ d ∈ t.shape, d < Shape.wordHalf :=
  fun _ hd => (Shape.le_volume_filter hd).trans_lt h.2

theorem Bounded.product : Shape.wordProduct? t.shape = some (Shape.volume t.shape) := by
  have hp : 1 * Shape.volume (t.shape.filter (· ≠ 0)) < Shape.wordHalf := by
    rw [Nat.one_mul]
    exact h.2
  rw [Shape.wordProduct?, Shape.foldlM_product_eq hp, Nat.one_mul]

theorem Bounded.wordSize :
    Shape.wordSize? (t.shape.map Int.ofNat) = some (Shape.volume t.shape : Int) :=
  (Shape.wordSize_eq h.lt_wordHalf h.product).2

theorem Bounded.size : t.size? = .ok (Shape.volume t.shape : Int) := by
  rw [Tensor.size?, h.wordSize]

theorem Bounded.writable :
    ∀ n ∈ (Shape.volume t.shape : Int) :: t.shape.map Int.ofNat, Numeral.isWritable n = true := by
  rw [List.forall_mem_cons]
  refine ⟨Shape.size_writable h.wordSize, fun n hn => ?_⟩
  obtain ⟨d, hd, rfl⟩ := List.mem_map.1 hn
  have hlt := h.lt_wordHalf d hd
  apply Numeral.isWritable_of_lt (k := 20) _ (by decide)
  norm_num [Shape.wordHalf] at hlt ⊢
  omega

theorem Bounded.shapeRefusal : shapeRefusal? (Shape.volume t.shape) t.shape =
    if Allocatable t then none else some .arrayTooBig := by
  have hrank : ¬Platform.rankLimit < t.shape.length :=
    Nat.not_lt.2 (h.1.trans Platform.axisLimit_le_rankLimit)
  have hwords : ¬(t.shape.any (Shape.wordHalf ≤ ·)) = true := by simpa using h.lt_wordHalf
  rw [shapeRefusal?, if_neg hrank, if_neg hwords, if_neg (by simp [h.product])]
  by_cases hs : Allocatable t
  · rw [if_pos hs, if_neg (Nat.not_le.2 hs)]
  · rw [if_neg hs, if_pos (Nat.not_lt.1 hs)]

theorem readEntry_eq : readEntry m t given =
    if given.leaves.length = Shape.volume t.shape then
      (readValues m t.id given.leaves).bind fun values =>
        if Allocatable t then .ok ⟨t.shape, values.toArray⟩ else .error (.invalid .arrayTooBig)
    else .error (.compile (.witness
      (.count t.id given.leaves.length t.shape (Shape.volume t.shape)))) := by
  rw [readEntry, h.size]
  by_cases hc : given.leaves.length = Shape.volume t.shape
  · rw [if_pos hc]
    cases hv : readValues m t.id given.leaves with
    | error f => simp [hc, Except.bind]
    | ok values =>
      have hlen : values.length = Shape.volume t.shape :=
        (Sequences.mapM_ok hv).length_eq.symm.trans hc
      simp only [hc, hlen, h.shapeRefusal, Except.bind]
      by_cases hs : Allocatable t <;> simp [hs]
  · rw [if_neg hc]
    simp [hc]

theorem readEntry_ok (hm : 0 < m) {e : Entry} : readEntry m t given = .ok e ↔
    Allocatable t ∧ ∃ values, Supplies m t given values ∧ e = ⟨t.shape, values.toArray⟩ := by
  rw [readEntry_eq h]
  constructor
  · intro hr
    split at hr
    · next hc =>
        obtain ⟨values, hv, hr⟩ := Sequences.bind_ok hr
        split at hr
        · next hs =>
            exact ⟨hs, values, ⟨_, given.leaves_leaves, hc, (readValues_iff hm).1 hv⟩,
              (Except.ok.inj hr).symm⟩
        · simp at hr
    · simp at hr
  · rintro ⟨hs, values, ⟨ls, hl, hc, hv⟩, rfl⟩
    rw [hl.eq] at hc hv
    rw [if_pos hc, (readValues_iff hm).2 hv, Except.bind, if_pos hs]

theorem readEntry_refused (hm : 0 < m) (hr : readEntry m t given = .error f) :
    Gap f ∨ f = .invalid .arrayTooBig ∧ ¬Allocatable t ∧ ∃ values, Supplies m t given values := by
  rw [readEntry_eq h] at hr
  split at hr
  · next hc =>
      cases hv : readValues m t.id given.leaves with
      | error e =>
        obtain rfl : e = f := by simpa [hv, Except.bind] using hr
        obtain ⟨leaf, -, hl⟩ := Sequences.mapM_error hv
        exact .inl (readValue_error hm hl)
      | ok values =>
        rw [hv, Except.bind] at hr
        split at hr
        · simp at hr
        · next hs =>
            exact .inr ⟨(Except.error.inj hr).symm, hs, values, _, given.leaves_leaves, hc,
              (readValues_iff hm).1 hv⟩
  · obtain rfl := Except.error.inj hr
    exact .inl ⟨_, rfl, h.writable⟩

end

/-! ## Witnesses -/

variable {g : Graph} {fields : List (String × Json)}

def readRequired [Platform] (m : Int) (g : Graph) (fields : List (String × Json)) (id : String) :
    Except Fault (String × Entry) :=
  match g.tensor? id with
  | none => .error .missingKey
  | some t =>
    match Ordered.get? id fields with
    | none => .error (.compile (.witness (.missing id)))
    | some j => (readEntry m t j).map ((id, ·))

theorem readEntries_eq [Platform] (ids : List String) :
    readEntries m g fields ids = ids.mapM (readRequired m g fields) := by
  induction ids with
  | nil => rfl
  | cons id ids ih =>
    rw [readEntries, List.mapM_cons, readRequired, ih]
    cases g.tensor? id with
    | none => rfl
    | some t =>
      dsimp only
      cases Ordered.get? id fields with
      | none => rfl
      | some j =>
        dsimp only
        cases readEntry m t j with
        | error f => rfl
        | ok e => cases ids.mapM (readRequired m g fields) <;> rfl

theorem readRequired_key [Platform] {p : String × Entry} (h : readRequired m g fields id = .ok p) :
    p.1 = id := by
  unfold readRequired at h
  split at h
  · simp at h
  split at h
  · simp at h
  · obtain ⟨e, -, rfl⟩ := Sequences.map_ok h
    rfl

/-- A tensor of the circuit has an entry that supplies its values. -/
def Supplied (m : Int) (g : Graph) (fields : List (String × Json)) (id : String)
    (values : List Int) : Prop :=
  ∃ t j, g.tensor? id = some t ∧ Ordered.get? id fields = some j ∧ Supplies m t j values

/-- The object whose entries count: the one under the key of its own if there is one. -/
def Takes (given : Json) (fields : List (String × Json)) : Prop :=
  ∃ outer, given = .obj outer ∧ (Ordered.get? "values" outer = some (.obj fields) ∨
    fields = outer ∧ ∀ inner, Ordered.get? "values" outer ≠ some (.obj inner))

theorem takes_iff : Takes given fields ↔ fields? given = some fields := by
  constructor
  · rintro ⟨outer, rfl, hi | ⟨rfl, hn⟩⟩
    · rw [fields?, hi]
    · unfold fields?
      split
      · next outer he =>
          obtain rfl := Json.obj.inj he
          split
          · next inner hi => exact absurd hi (hn inner)
          · rfl
      · next hne => exact absurd rfl (hne _)
  · intro h
    unfold fields? at h
    split at h
    · next outer =>
        split at h
        · next inner hi => exact ⟨outer, rfl, .inl (Option.some.inj h ▸ hi)⟩
        · next hn => exact ⟨outer, rfl, .inr ⟨(Option.some.inj h).symm, hn⟩⟩
    · simp at h

theorem read_takes [Platform] (h : Takes given fields) :
    read m g given = g.required.mapM (readRequired m g fields) := by
  rw [read, takes_iff.1 h]
  exact readEntries_eq _

section

variable [Platform] (hm : 0 < m) (ht : g.tensor? id = some t) (hb : Bounded t)

include hm ht hb

theorem readRequired_ok {p : String × Entry} : readRequired m g fields id = .ok p ↔
    Allocatable t ∧ ∃ values, Supplied m g fields id values ∧
      p = (id, ⟨t.shape, values.toArray⟩) := by
  rw [readRequired, ht]
  constructor
  · intro h
    cases hj : Ordered.get? id fields with
    | none => simp [hj] at h
    | some j =>
      rw [hj] at h
      obtain ⟨e, he, rfl⟩ := Sequences.map_ok h
      obtain ⟨hs, values, hv, rfl⟩ := (readEntry_ok hb hm).1 he
      exact ⟨hs, values, ⟨t, j, ht, hj, hv⟩, rfl⟩
  · rintro ⟨hs, values, ⟨u, j, hu, hj, hv⟩, rfl⟩
    obtain rfl := Option.some.inj (ht.symm.trans hu)
    have he := (readEntry_ok hb hm).2 ⟨hs, values, hv, rfl⟩
    simp only [hj, he]
    rfl

theorem readRequired_error (h : readRequired m g fields id = .error f) : Gap f ∨
    f = .invalid .arrayTooBig ∧ ¬Allocatable t ∧ ∃ values, Supplied m g fields id values := by
  rw [readRequired, ht] at h
  cases hj : Ordered.get? id fields with
  | none =>
    obtain rfl : Fault.compile (.witness (.missing id)) = f := by simpa [hj] using h
    exact .inl ⟨_, rfl, by simp [WitnessGap.numbers]⟩
  | some j =>
    rw [hj] at h
    rcases readEntry_refused hb hm (Sequences.map_error h) with hg | ⟨hf, hs, values, hv⟩
    · exact .inl hg
    · exact .inr ⟨hf, hs, values, t, j, ht, hj, hv⟩

end

/-- Two objects have an entry of a tensor with the same leaves, however nested, or none. -/
def SameLeaves (fields fields' : List (String × Json)) (id : String) : Prop :=
  ∀ ls, (∃ j, Ordered.get? id fields = some j ∧ j.Leaves ls) ↔
    ∃ j, Ordered.get? id fields' = some j ∧ j.Leaves ls

theorem sameLeaves_of_eq {fields' : List (String × Json)} {j j' : Json}
    (hj : Ordered.get? id fields = some j) (hj' : Ordered.get? id fields' = some j')
    (h : j.leaves = j'.leaves) : SameLeaves fields fields' id := by
  intro ls
  simp only [hj, hj', Option.some.injEq, exists_eq_left', Json.leaves_iff, h]

theorem readRequired_congr [Platform] {fields' : List (String × Json)}
    (h : SameLeaves fields fields' id) :
    readRequired m g fields id = readRequired m g fields' id := by
  have hentry {t : Tensor} {j j' : Json} (hl : j.leaves = j'.leaves) :
      readEntry m t j = readEntry m t j' := by
    rw [readEntry, hl, readEntry]
  unfold readRequired
  cases g.tensor? id with
  | none => rfl
  | some t =>
    dsimp only
    cases hj : Ordered.get? id fields with
    | none =>
      cases hj' : Ordered.get? id fields' with
      | none => rfl
      | some j' =>
        obtain ⟨j, he, -⟩ := (h j'.leaves).2 ⟨j', hj', j'.leaves_leaves⟩
        simp [hj] at he
    | some j =>
      obtain ⟨j', hj', hl⟩ := (h j.leaves).1 ⟨j, hj, j.leaves_leaves⟩
      simp only [hj', hentry hl.eq]

section

variable [Platform] {doc : Json} {w : Witness} (hg : Circuit.read doc = .ok g) (hm : 0 < m)
  (hb : ∀ id ∈ g.required, ∀ t, g.tensor? id = some t → Bounded t)

include hg hm hb

theorem read_ok_iff : (∃ w, read m g given = .ok w) ↔
    (∀ id ∈ g.required, ∀ t, g.tensor? id = some t → Allocatable t) ∧
      ∃ fields, Takes given fields ∧
        ∀ id ∈ g.required, ∃ values, Supplied m g fields id values := by
  have hdef := (Circuit.read_wellFormed hg).defined
  constructor
  · rintro ⟨w, h⟩
    cases hf : fields? given with
    | none => simp [read, hf] at h
    | some fields =>
      have htakes := takes_iff.2 hf
      rw [read_takes htakes] at h
      have hall : ∀ id ∈ g.required, ∀ t, g.tensor? id = some t →
          Allocatable t ∧ ∃ values, Supplied m g fields id values := by
        intro id hid t ht
        obtain ⟨p, -, hp⟩ := Sequences.mapM_of_mem h hid
        obtain ⟨hs, values, hv, -⟩ := (readRequired_ok hm ht (hb id hid t ht)).1 hp
        exact ⟨hs, values, hv⟩
      refine ⟨fun id hid t ht => (hall id hid t ht).1, fields, htakes, fun id hid => ?_⟩
      obtain ⟨t, ht⟩ := hdef id hid
      exact (hall id hid t ht).2
  · rintro ⟨hs, fields, htakes, hv⟩
    rw [read_takes htakes]
    apply Sequences.mapM_ok_of_forall
    intro id hid
    obtain ⟨t, ht⟩ := hdef id hid
    obtain ⟨values, hvalues⟩ := hv id hid
    exact ⟨_, (readRequired_ok hm ht (hb id hid t ht)).2 ⟨hs id hid t ht, values, hvalues, rfl⟩⟩

theorem read_refused (h : read m g given = .error f) : Gap f ∨ f = .invalid .arrayTooBig ∧
    ∃ fields, Takes given fields ∧ ∃ id ∈ g.required, ∃ t, g.tensor? id = some t ∧
      ¬Allocatable t ∧ ∃ values, Supplied m g fields id values := by
  cases hf : fields? given with
  | none =>
    rw [read, hf] at h
    obtain rfl := Except.error.inj h
    exact .inl ⟨_, rfl, by simp [WitnessGap.numbers]⟩
  | some fields =>
    have htakes := takes_iff.2 hf
    rw [read_takes htakes] at h
    obtain ⟨id, hid, hr⟩ := Sequences.mapM_error h
    obtain ⟨t, ht⟩ := (Circuit.read_wellFormed hg).defined id hid
    rcases readRequired_error hm ht (hb id hid t ht) hr with hgap | ⟨he, hs, hv⟩
    · exact .inl hgap
    · exact .inr ⟨he, fields, htakes, id, hid, t, ht, hs, hv⟩

theorem read_values (h : read m g given = .ok w) : w.map Prod.fst = g.required ∧
    ∃ fields, Takes given fields ∧ ∀ p ∈ w, ∃ t, g.tensor? p.1 = some t ∧ p.2.shape = t.shape ∧
      Supplied m g fields p.1 p.2.values.toList := by
  cases hf : fields? given with
  | none => simp [read, hf] at h
  | some fields =>
    have htakes := takes_iff.2 hf
    rw [read_takes htakes] at h
    refine ⟨Sequences.mapM_map h fun _ _ => readRequired_key, fields, htakes, fun p hp => ?_⟩
    obtain ⟨id, hid, hok⟩ := Sequences.mapM_mem h hp
    obtain ⟨t, ht⟩ := (Circuit.read_wellFormed hg).defined id hid
    obtain ⟨-, values, hv, rfl⟩ := (readRequired_ok hm ht (hb id hid t ht)).1 hok
    exact ⟨t, ht, rfl, hv⟩

/-- A witness is read just when its object supplies all tensors in use and there is memory for them.
Otherwise it is refused, unless there is no memory for a tensor that is supplied. What is read are
the values of these tensors, and it is the same for all objects that supply the same leaves. -/
theorem read_supplied (given : Json) :
    ((∃ w, read m g given = .ok w) ↔
      (∀ id ∈ g.required, ∀ t, g.tensor? id = some t → Allocatable t) ∧
        ∃ fields, Takes given fields ∧ ∀ id ∈ g.required, ∃ values, Supplied m g fields id values) ∧
    (∀ f, read m g given = .error f → Gap f ∨ f = .invalid .arrayTooBig ∧
      ∃ fields, Takes given fields ∧ ∃ id ∈ g.required, ∃ t, g.tensor? id = some t ∧
        ¬Allocatable t ∧ ∃ values, Supplied m g fields id values) ∧
    (∀ w, read m g given = .ok w → w.map Prod.fst = g.required ∧
      ∃ fields, Takes given fields ∧ ∀ p ∈ w, ∃ t, g.tensor? p.1 = some t ∧ p.2.shape = t.shape ∧
        Supplied m g fields p.1 p.2.values.toList) ∧
    ∀ other fields fields', Takes given fields → Takes other fields' →
      (∀ id ∈ g.required, SameLeaves fields fields' id) → read m g other = read m g given := by
  refine ⟨read_ok_iff hg hm hb, fun f => read_refused hg hm hb, fun w => read_values hg hm hb, ?_⟩
  intro other fields fields' htakes htakes' hsame
  rw [read_takes htakes, read_takes htakes']
  exact Sequences.mapM_congr fun id hid => (readRequired_congr (hsame id hid)).symm

end

end Witness

namespace Spare

def graph (dims : List Nat) : Circuit.Graph :=
  ⟨[⟨"x", dims, 0, .priv⟩, ⟨"values", [1], 0, .priv⟩], [], ["x"], ["x"]⟩

def circuit (dims : List Nat) : Json := (graph dims).document

theorem read_square : Circuit.read (circuit [2, 2]) = .ok (graph [2, 2]) := by
  cbv

theorem read_single : Circuit.read (circuit [1]) = .ok (graph [1]) := by
  cbv

theorem read_empty : Circuit.read (circuit [0, 2 ^ 61]) = .ok (graph [0, 2 ^ 61]) := by
  cbv

theorem required (dims : List Nat) : (graph dims).required = ["x"] := by
  cbv

theorem tensor_eq {dims : List Nat} {id : String} (hid : id ∈ (graph dims).required)
    {t : Circuit.Tensor} (ht : (graph dims).tensor? id = some t) : t = ⟨"x", dims, 0, .priv⟩ := by
  rw [required, List.mem_singleton] at hid
  subst hid
  exact (Option.some.inj ht).symm

theorem bounded {dims : List Nat} (h : Witness.Bounded ⟨"x", dims, 0, .priv⟩) :
    ∀ id ∈ (graph dims).required, ∀ t, (graph dims).tensor? id = some t → Witness.Bounded t :=
  fun _ hid _ ht => tensor_eq hid ht ▸ h

def nested : Json := .obj [
  ("x", .arr [.arr [.int 5, .str " -7 "], .str "0x1_0", .arr [.arr []], .int 0])]

def flat : Json := .obj [
  ("values", .obj [
    ("x", .arr [.int 5, .str " -7 ", .str "0x1_0", .int 0]),
    ("values", .bool true)])]

end Spare

/-- The same values nested in two ways, next to an entry that does not count. -/
theorem Witness.nested_supplied :
    ∃ w, read Field.defaultModulus (Spare.graph [2, 2]) Spare.nested = .ok w ∧
      w.map (fun p => (p.1, p.2.shape, p.2.values.toList)) = [("x", [2, 2], [5, -7, 16, 0])] ∧
      (∃ fields, Takes Spare.nested fields ∧ ∀ p ∈ w,
        Supplied Field.defaultModulus (Spare.graph [2, 2]) fields p.1 p.2.values.toList) ∧
      read Field.defaultModulus (Spare.graph [2, 2]) Spare.flat = .ok w := by
  have hb : Bounded ⟨"x", [2, 2], 0, .priv⟩ := ⟨by decide, by decide +kernel⟩
  obtain ⟨-, -, hvalues, hsame⟩ :=
    read_supplied Spare.read_square (by decide : 0 < Field.defaultModulus) (Spare.bounded hb)
      Spare.nested
  obtain ⟨w, hread, hw⟩ : ∃ w,
      read Field.defaultModulus (Spare.graph [2, 2]) Spare.nested = .ok w ∧
        w.map (fun p => (p.1, p.2.shape, p.2.values.toList)) = [("x", [2, 2], [5, -7, 16, 0])] :=
    Clamped.exists_ok_and (by decide +kernel)
  obtain ⟨-, fields, htakes, hall⟩ := hvalues w hread
  refine ⟨w, hread, hw, ⟨fields, htakes, fun p hp => ?_⟩, ?_⟩
  · obtain ⟨t, -, -, hx⟩ := hall p hp
    exact hx
  · rw [← hread]
    refine hsame _ _ _ (takes_iff.2 rfl) (takes_iff.2 rfl) ?_
    rw [Spare.required]
    intro id hid
    obtain rfl := List.mem_singleton.1 hid
    exact sameLeaves_of_eq rfl rfl (by simp [Json.leaves, Json.leavesOf])

theorem Spare.read_unallocated (hb : Witness.Bounded ⟨"x", [0, 2 ^ 61], 0, .priv⟩) :
    Witness.read Field.defaultModulus (graph [0, 2 ^ 61]) (.obj [("x", .arr [])]) =
      .error (.invalid .arrayTooBig) := by
  have hs : ¬Witness.Allocatable ⟨"x", [0, 2 ^ 61], 0, .priv⟩ := by decide +kernel
  have hentry : Witness.readEntry Field.defaultModulus ⟨"x", [0, 2 ^ 61], 0, .priv⟩ (.arr []) =
      .error (.invalid .arrayTooBig) := by
    rw [Witness.readEntry_eq hb, if_pos (by simp [Json.leaves, Json.leavesOf])]
    have hv : Witness.readValues Field.defaultModulus "x" (Json.arr []).leaves = .ok [] := by
      rw [Json.leaves, Json.leavesOf]
      rfl
    rw [hv, Except.bind, if_neg hs]
  have hone : Witness.readRequired Field.defaultModulus (graph [0, 2 ^ 61]) [("x", .arr [])] "x" =
      (Witness.readEntry Field.defaultModulus ⟨"x", [0, 2 ^ 61], 0, .priv⟩ (.arr [])).map
        (("x", ·)) := rfl
  rw [Witness.read_takes (Witness.takes_iff.2 rfl), required, List.mapM_cons, hone, hentry]
  rfl

/-- An empty tensor may need more memory than there is, and an entry that is an object may take the
place of the others. -/
theorem Witness.supplied_unread :
    (Circuit.read (Spare.circuit [0, 2 ^ 61]) = .ok (Spare.graph [0, 2 ^ 61]) ∧
      (∀ id ∈ (Spare.graph [0, 2 ^ 61]).required, ∀ t,
        (Spare.graph [0, 2 ^ 61]).tensor? id = some t → Bounded t) ∧
      Takes (.obj [("x", .arr [])]) [("x", .arr [])] ∧
      (∀ id ∈ (Spare.graph [0, 2 ^ 61]).required, ∃ values,
        Supplied Field.defaultModulus (Spare.graph [0, 2 ^ 61]) [("x", .arr [])] id values) ∧
      read Field.defaultModulus (Spare.graph [0, 2 ^ 61]) (.obj [("x", .arr [])]) =
        .error (.invalid .arrayTooBig)) ∧
    Circuit.read (Spare.circuit [1]) = .ok (Spare.graph [1]) ∧
      "values" ∉ (Spare.graph [1]).required ∧
      read Field.defaultModulus (Spare.graph [1]) (.obj [("x", .arr [.int 5])]) =
        .ok [("x", ⟨[1], #[5]⟩)] ∧
      read Field.defaultModulus (Spare.graph [1])
        (.obj [("x", .arr [.int 5]), ("values", .obj [])]) =
        .error (.compile (.witness (.missing "x"))) := by
  have hb : Bounded ⟨"x", [0, 2 ^ 61], 0, .priv⟩ := ⟨by decide, by decide +kernel⟩
  refine ⟨⟨Spare.read_empty, Spare.bounded hb, takes_iff.2 rfl, ?_, Spare.read_unallocated hb⟩,
    Spare.read_single, by rw [Spare.required]; decide, by cbv, by cbv⟩
  rw [Spare.required]
  intro id hid
  obtain rfl := List.mem_singleton.1 hid
  exact ⟨[], _, _, rfl, rfl, [], .nil, rfl, .nil⟩

end TensorAsm
