import Mathlib
import TensorAsm.Proofs.Broadcasting
import TensorAsm.Proofs.Faults
import TensorAsm.Proofs.Ranges
import TensorAsm.Proofs.Recovery
import TensorAsm.Proofs.Strictness
/-!
Changes of scale. Going down leads to the nearest integer, and of two that are equally near to the
one further from zero; so it keeps signs, order and the range of the field. Going up loses nothing.
-/

namespace TensorAsm

open Stateful

namespace Quantity

variable {n k d q r v w s : Int}

/-! ## Nearest multiples -/

/-- `q` times `d` is at most half of `d` away from `n`. Where it is just that far there is a second
candidate, and it is no further from zero. -/
structure Nearest (n d q : Int) : Prop where
  close : 2 * |n - q * d| ≤ d
  away : 2 * |n - q * d| = d → ∀ r, 2 * |n - r * d| ≤ d → |r| ≤ |q|

theorem Nearest.neg (h : Nearest n d q) : Nearest (-n) d (-q) := by
  have hswap (r : Int) : |-n - r * d| = |n - -r * d| := by
    rw [← abs_neg]
    congr 1
    ring
  refine ⟨?_, fun he r hr => ?_⟩
  · rw [hswap, neg_neg]
    exact h.close
  · rw [hswap, neg_neg] at he
    rw [hswap] at hr
    simpa using h.away he (-r) hr

theorem Nearest.unique (hd : 0 < d) (hq : Nearest n d q) (hr : Nearest n d r) : q = r := by
  have hsum : |q - r| * d ≤ |n - r * d| + |n - q * d| := by
    calc |q - r| * d = |(n - r * d) - (n - q * d)| := by
          rw [← abs_of_pos hd, ← abs_mul, abs_of_pos hd]
          congr 1
          ring
      _ ≤ |n - r * d| + |n - q * d| := abs_sub _ _
  by_contra hne
  -- two candidates are next to each other and half of `d` away
  have hone : 1 ≤ |q - r| := Int.one_le_abs (sub_ne_zero.2 hne)
  have hgap : d ≤ |q - r| * d := le_mul_of_one_le_left hd.le hone
  have hclose := hq.close
  have hclose' := hr.close
  have hle := hr.away (by omega) q hclose
  have hge := hq.away (by omega) r hclose'
  have hnext : |q - r| = 1 := by
    apply le_antisymm _ hone
    by_contra hlt
    have : 2 * d ≤ |q - r| * d := mul_le_mul_of_nonneg_right (by omega) hd.le
    omega
  rcases abs_eq_abs.1 (le_antisymm hle hge) with h | h
  · exact hne h
  · rw [h] at hnext
    rcases abs_cases (-r - r) <;> omega

theorem roundHalfAway_of_nonneg (hn : 0 ≤ n) :
    roundHalfAway n d = if d ≤ 2 * (n % d) then n / d + 1 else n / d := by
  rw [roundHalfAway, Int.natAbs_of_nonneg hn, if_pos hn]

theorem roundHalfAway_neg (hd : 0 < d) (n : Int) : roundHalfAway (-n) d = -roundHalfAway n d := by
  rcases lt_trichotomy n 0 with h | rfl | h
  · simp only [roundHalfAway, Int.natAbs_neg, if_pos (show 0 ≤ -n by omega),
      if_neg (show ¬0 ≤ n by omega), neg_neg]
  · rw [neg_zero, roundHalfAway_eq_zero (by simpa using hd), neg_zero]
  · simp only [roundHalfAway, Int.natAbs_neg, if_pos h.le, if_neg (show ¬0 ≤ -n by omega)]

theorem nearest_of_nonneg (hd : 0 < d) (hn : 0 ≤ n) : Nearest n d (roundHalfAway n d) := by
  have hsplit := Int.emod_add_ediv_mul n d
  have hlo := Int.emod_nonneg n hd.ne'
  have hhi := Int.emod_lt_of_pos n hd
  rw [roundHalfAway_of_nonneg hn]
  split
  · next hup =>
      have hdist : |n - (n / d + 1) * d| = d - n % d := by
        rw [abs_of_nonpos] <;> linarith
      refine ⟨by omega, fun _ r hr => ?_⟩
      have hbound := abs_le.1 (show |n - r * d| ≤ d by omega)
      have hnonneg : 0 ≤ r := by
        by_contra hneg
        have : r * d ≤ -1 * d := mul_le_mul_of_nonneg_right (by omega) hd.le
        rw [abs_of_nonneg (by omega)] at hr
        omega
      have hle : r ≤ n / d + 1 := by
        by_contra hgt
        have : (n / d + 2) * d ≤ r * d := mul_le_mul_of_nonneg_right (by omega) hd.le
        rw [abs_of_nonpos (by linarith)] at hr
        linarith
      rwa [abs_of_nonneg hnonneg, abs_of_nonneg (by omega)]
  · next hdown =>
      have hdist : |n - n / d * d| = n % d := by
        rw [abs_of_nonneg] <;> linarith
      exact ⟨by omega, by omega⟩

theorem nearest_roundHalfAway (hd : 0 < d) (n : Int) : Nearest n d (roundHalfAway n d) := by
  rcases le_total 0 n with h | h
  · exact nearest_of_nonneg hd h
  · have hneg := (nearest_of_nonneg hd (show 0 ≤ -n by omega)).neg
    rwa [roundHalfAway_neg hd, neg_neg, neg_neg] at hneg

theorem nearest_iff (hd : 0 < d) : Nearest n d q ↔ q = roundHalfAway n d := by
  constructor
  · exact fun h => h.unique hd (nearest_roundHalfAway hd n)
  · rintro rfl
    exact nearest_roundHalfAway hd n

theorem roundHalfAway_mono (hd : 0 < d) (h : n ≤ k) : roundHalfAway n d ≤ roundHalfAway k d := by
  by_contra hlt
  -- both are half of `d` away from one number, which is rounded in one way only
  have hstep : (roundHalfAway k d + 1) * d ≤ roundHalfAway n d * d :=
    mul_le_mul_of_nonneg_right (by omega) hd.le
  have hn := (nearest_roundHalfAway hd n).close
  have hk := (nearest_roundHalfAway hd k).close
  have hn' := neg_abs_le (n - roundHalfAway n d * d)
  have hk' := le_abs_self (k - roundHalfAway k d * d)
  obtain rfl : n = k := by
    apply le_antisymm h
    linarith
  exact hlt le_rfl

theorem roundHalfAway_mul (hd : 0 < d) (q : Int) : roundHalfAway (q * d) d = q := by
  symm
  rw [← nearest_iff hd]
  have hzero : |q * d - q * d| = 0 := by simp
  exact ⟨by omega, by omega⟩

theorem roundHalfAway_mul_eq_iff (hd : 0 < d) : roundHalfAway n d * d = n ↔ d ∣ n := by
  constructor
  · intro h
    exact ⟨roundHalfAway n d, by rw [mul_comm, h]⟩
  · rintro ⟨c, rfl⟩
    rw [mul_comm d c, roundHalfAway_mul hd]

/-! ## Changes of scale -/

theorem rescale_down (h : 0 < s) : rescale v s = roundHalfAway v (2 ^ s.toNat) := by
  rw [rescale, if_neg h.ne', if_neg (by omega)]
  norm_num

theorem rescale_neg (v s : Int) : rescale (-v) s = -rescale v s := by
  rcases lt_or_ge 0 s with h | h
  · rw [rescale_down h, rescale_down h, roundHalfAway_neg (by positivity)]
  · rw [rescale_up h, rescale_up h, neg_mul]

theorem rescale_mono (s : Int) (h : v ≤ w) : rescale v s ≤ rescale w s := by
  rcases lt_or_ge 0 s with hs | hs
  · rw [rescale_down hs, rescale_down hs]
    exact roundHalfAway_mono (by positivity) h
  · rw [rescale_up hs, rescale_up hs]
    exact mul_le_mul_of_nonneg_right h (by positivity)

/-- What went up comes down again. What went down comes up again if no bit was lost. -/
theorem rescale_rescale_neg_iff (v s : Int) :
    rescale (rescale v (-s)) s = v ↔ 0 ≤ s ∨ 2 ^ (-s).toNat ∣ v := by
  rcases lt_trichotomy s 0 with h | rfl | h
  · rw [rescale_up h.le, rescale_down (show 0 < -s by omega),
      roundHalfAway_mul_eq_iff (by positivity)]
    exact (or_iff_right (by omega)).symm
  · simp [rescale]
  · rw [rescale_down h, rescale_up (show -s ≤ 0 by omega), neg_neg,
      roundHalfAway_mul (by positivity)]
    simp [h.le]

theorem fits_rescale {m : Int} (hs : 0 ≤ s) (h : Field.Fits m v) : Field.Fits m (rescale v s) :=
  h.of_natAbs_le (natAbs_rescale_le hs)

theorem moveFault?_eq_none_iff {room n bits : Nat} :
    moveFault? room n bits = none ↔ n ≠ 0 → movedDigits n bits ≤ digitLimit ∧ bits < room := by
  unfold moveFault?
  split
  · simp_all
  split
  · simp_all
  split <;> simp_all

section

variable [Platform]

/-- There are digits and room for what is computed: going down for the power of two, going up for
the value, unless that is zero. -/
structure Shiftable (v s : Int) : Prop where
  down : 0 < s → movedDigits 1 s.toNat ≤ digitLimit ∧ s.toNat < Platform.powerRoom
  up : s < 0 → v ≠ 0 →
    movedDigits v.natAbs (-s).toNat ≤ digitLimit ∧ (-s).toNat < Platform.valueRoom

theorem rescaleFault?_eq_none_iff : rescaleFault? v s = none ↔ Shiftable v s := by
  rcases lt_trichotomy s 0 with h | rfl | h
  · rw [rescaleFault?, if_neg h.ne, if_pos h, moveFault?_eq_none_iff, ne_eq, Int.natAbs_eq_zero]
    exact ⟨fun hv => ⟨fun hs => absurd hs (by omega), fun _ => hv⟩, fun hr => hr.up h⟩
  · exact ⟨fun _ => ⟨fun hs => absurd hs (by omega), fun hs => absurd hs (by omega)⟩, fun _ => rfl⟩
  · rw [rescaleFault?, if_neg h.ne', if_neg (by omega), powerFault?, moveFault?_eq_none_iff]
    exact ⟨fun hv => ⟨fun _ => hv (by simp), fun hs => absurd hs (by omega)⟩,
      fun hr _ => hr.down h⟩

theorem rescale?_of_shiftable (h : Shiftable v s) : rescale? v s = .ok (rescale v s) := by
  rw [rescale?_eq, rescaleFault?_eq_none_iff.2 h]

theorem rescale?_of_not_shiftable (h : ¬Shiftable v s) :
    rescale? v s = .error .overflow ∨ rescale? v s = .error .outOfMemory := by
  rw [← rescaleFault?_eq_none_iff] at h
  obtain ⟨f, hf⟩ := Option.ne_none_iff_exists'.1 h
  rw [rescale?_eq, hf]
  rcases rescaleFault?_cases hf with rfl | rfl
  · exact .inl rfl
  · exact .inr rfl

theorem fits_rescale? {m : Int} (hs : 0 ≤ s) (h : Field.Fits m v) (hr : rescale? v s = .ok r) :
    Field.Fits m r := by
  rw [rescale?_eq] at hr
  split at hr
  · exact absurd hr (by simp)
  · exact Except.ok.inj hr ▸ fits_rescale hs h

end

end Quantity

/-! ## The range check of derived values -/

/-- The refusal of a derived value that does not fit. -/
def Fault.derivedUnfit (node : Int) (bits : Nat) (dest : Int) : Fault :=
  .compile (.witness (.derivedUnfit node bits dest))

namespace Emitter

variable {s : Setting} {o : Circuit.Operation} {a : Operand} {id : String}

theorem operand_values {e e' : State} (h : (operand s id).Yields e a e') :
    Ordered.get? id s.witness = some a.values := by
  unfold operand at h
  obtain ⟨t, _, -, h⟩ := yields_bind.1 h
  obtain ⟨address, _, -, h⟩ := yields_bind.1 h
  split at h
  · next values hv =>
      obtain ⟨rfl, -⟩ := yields_pure.1 h
      exact hv
  · exact (yields_throw.1 h).elim

theorem Operand.mem_of_value [Platform] {i : Nat} {v : Int} (h : a.value? i = .ok v) :
    v ∈ a.values.values := by
  unfold value? Witness.Entry.get? at h
  cases hv : a.values.values[i]? with
  | none => simp [hv] at h
  | some x =>
    simp only [hv] at h
    split at h
    · next hx =>
        obtain rfl := Except.ok.inj h
        split at hx
        · exact Option.some.inj (Except.ok.inj hx) ▸ Array.mem_of_getElem? hv
        · exact absurd hx (by simp)
    · exact absurd h (by simp)
    · exact absurd h (by simp)

theorem rescaled_down [Platform] {target : Int} (hv : ∀ v ∈ a.values.values, Field.Fits s.modulus v)
    (ht : target ≤ a.scale) {purpose : String} {e e' : State} {node dest : Int} {bits : Nat} :
    ¬(rescaled s o a target purpose).Fails e (.derivedUnfit node bits dest) e' := by
  have hends : FailsWithin (fun f => ∀ gap, f ≠ .compile (.witness gap))
      (rescaled s o a target purpose) fun _ => True := by
    refine within_rescaled (fun _ => Technical.not_witness) fun i v r hi hr hfit => absurd ?_ hfit
    exact Quantity.fits_rescale? (by omega) (hv v (Operand.mem_of_value hi)) hr
  exact hends.not_fails (by simp [Fault.derivedUnfit])

end Emitter

namespace Program.Values

open Lowering

variable [Platform] {m node dest : Int} {bits : Nat} {w : Witness} {v v' : Values}

/-- From values that fit, a step derives one that does not. -/
def Overruns (m : Int) (bits : Nat) (dest : Int) (s : Step) : Prop :=
  ∃ v : Values, v.Fit m ∧ s.derived = true ∧ s.instruction.dest? = some dest ∧
    ∃ value, s.instruction.exact v.cell = .ok value ∧ ¬Field.Fits m value ∧
      Emitter.bitLength value = bits

theorem Overruns.goes_up {s : Step} (h : Overruns m bits dest s) {d a shift : Int}
    (hi : s.instruction = .rescale d a shift) : shift < 0 := by
  obtain ⟨v, hv, -, -, value, hx, hfit, -⟩ := h
  rw [hi] at hx
  by_contra hs
  exact hfit (Quantity.fits_rescale? (by omega) (hv a) hx)

theorem step_overruns (hv : v.Fit m) {n : Int} {s : Step}
    (h : step m n v s = .error (.derivedUnfit node bits dest)) :
    n = node ∧ Overruns m bits dest s := by
  unfold step at h
  split at h
  · next d hd hi =>
      split at h
      · next f hf =>
          obtain ⟨-, a, shift, -, hfault⟩ := Instruction.exact_error hf
          exact absurd (Except.error.inj h) (Table.rescaleFault_plain hfault _)
      · next value hx =>
          split at h
          · exact absurd h (by simp)
          · next hfit =>
              simp only [Fault.derivedUnfit, Except.error.injEq, Fault.compile.injEq,
                CompileError.witness.injEq, WitnessGap.derivedUnfit.injEq] at h
              obtain ⟨rfl, hbits, rfl⟩ := h
              exact ⟨rfl, v, hv, hd, hi, value, hx, hfit, hbits⟩
  · exact absurd h (by simp)

theorem advance_overruns (hv : v.Fit m) {e : Event}
    (h : v.advance m w e = .error (.derivedUnfit node bits dest)) :
    ∃ ss, e = .emitted node ss ∧ ∃ s ∈ ss, Overruns m bits dest s := by
  cases e with
  | allocated b =>
    simp only [advance] at h
    split at h <;> exact absurd h (by simp)
  | emitted n ss =>
    obtain ⟨s, hs, u, hu, hstop⟩ := steps_error hv h
    obtain ⟨rfl, ho⟩ := step_overruns hu hstop
    exact ⟨ss, rfl, s, hs, ho⟩
  | dropped s =>
    obtain ⟨-, a, shift, -, hfault⟩ := Instruction.exact_error (Sequences.map_error h)
    exact absurd rfl (Table.rescaleFault_plain hfault _)
  | _ => exact absurd h (by simp [advance])

end Program.Values

namespace Program

open Lowering

/-- A lowering that is refused for a derived value has a step that brings it about. If that changes
a scale, it goes up. -/
theorem lower_overruns [Platform] {doc given : Json} {g : Circuit.Graph} {w : Witness}
    {name : String} {layout : Layout} {lookupBits : Json} {m node dest : Int} {bits : Nat}
    (hg : Circuit.read doc = .ok g) (hm : 0 < m) (hw : Witness.read m g given = .ok w)
    (h : (lower name g w layout lookupBits m).1 = .error (.derivedUnfit node bits dest)) :
    ∃ ss, .emitted node ss ∈ (Lowering.plan g layout lookupBits).2 ∧
      ∃ s ∈ ss, Values.Overruns m bits dest s ∧
        ∀ d a shift, s.instruction = .rescale d a shift → shift < 0 := by
  have hc := Witness.read_complete hw
  have hends := (plan_ends hc.measured (Circuit.read_wellFormed hg).ids layout lookupBits m).2
  rw [lower_eq_outlined hc, outlined] at h
  rcases hp : Lowering.plan g layout lookupBits with ⟨result, journal⟩
  rcases hf : Values.follow m w ⟨∅, ∅⟩ journal with ⟨values, done, stop⟩
  simp only [hp] at hends
  simp only [hp, hf] at h
  cases stop with
  | some f =>
    obtain rfl := Except.error.inj h
    have hstart : Values.Fit m ⟨∅, ∅⟩ := fun c => by
      simpa [Values.cell] using Field.fits_zero hm
    obtain ⟨e, he, u, hu, hstop⟩ := Values.follow_error (Witness.read_fitting hw) hstart hf
    obtain ⟨ss, rfl, s, hs, ho⟩ := Values.advance_overruns hu hstop
    exact ⟨ss, he, s, hs, ho, fun _ _ _ hi => ho.goes_up hi⟩
  | none =>
    -- without values there is no such refusal
    cases result with
    | ok p => exact absurd h (by simp)
    | error f =>
      obtain rfl := Except.error.inj h
      rcases hends with ⟨e, he, -, hgap⟩ | he | ⟨he, -⟩
      · exact absurd (Fault.compile.inj he).symm (hgap _)
      · exact absurd rfl (he.plain _)
      · simp [Fault.derivedUnfit] at he

end Program

/-- A change of scale is carried out if there is room for it. Going down leads to the nearest
integer, a half away from zero. Any change keeps signs and order, what went up comes down again, and
what went down comes up again if no bit was lost. Going down, a value stays in the range of the
field: no value of a witness that is brought down is refused, and no lowering for one. -/
theorem Quantity.rescale_rounds [Platform] :
    (∀ v s, Shiftable v s ∧ rescale? v s = .ok (rescale v s) ∨
      ¬Shiftable v s ∧ (rescale? v s = .error .overflow ∨ rescale? v s = .error .outOfMemory)) ∧
    (∀ v s q, 0 < s → (Nearest v (2 ^ s.toNat) q ↔ q = rescale v s)) ∧
    (∀ v s, rescale (-v) s = -rescale v s) ∧
    (∀ v w s, v ≤ w → rescale v s ≤ rescale w s) ∧
    (∀ v s, rescale (rescale v (-s)) s = v ↔ 0 ≤ s ∨ 2 ^ (-s).toNat ∣ v) ∧
    (∀ m v s, 0 < s → Field.Fits m v → Field.Fits m (rescale v s)) ∧
    ∀ m g given w, 3 ≤ m → Witness.read m g given = .ok w →
      (∀ (s : Emitter.Setting) o id a e₀ e₁ target purpose e e' node bits dest,
        s.witness = w → s.modulus = m → (Emitter.operand s id).Yields e₀ a e₁ → target ≤ a.scale →
        ¬(Emitter.rescaled s o a target purpose).Fails e (.derivedUnfit node bits dest) e') ∧
      ∀ doc, Circuit.read doc = .ok g → ∀ name layout lookupBits node bits dest,
        (Program.lower name g w layout lookupBits m).1 = .error (.derivedUnfit node bits dest) →
        ∃ ss, .emitted node ss ∈ (Lowering.plan g layout lookupBits).2 ∧
          ∃ s ∈ ss, Program.Values.Overruns m bits dest s ∧
            ∀ d a shift, s.instruction = .rescale d a shift → shift < 0 := by
  refine ⟨fun v s => ?_, fun v s q h => ?_, rescale_neg, fun _ _ s h => rescale_mono s h,
    rescale_rescale_neg_iff, fun _ _ _ hs h => fits_rescale hs.le h, ?_⟩
  · by_cases h : Shiftable v s
    · exact .inl ⟨h, rescale?_of_shiftable h⟩
    · exact .inr ⟨h, rescale?_of_not_shiftable h⟩
  · rw [rescale_down h]
    exact nearest_iff (by positivity)
  · intro m g given w hm hw
    refine ⟨?_, fun doc hg name layout lookupBits node bits dest h =>
      Program.lower_overruns hg (by omega) hw h⟩
    rintro s o id a e₀ e₁ target purpose e e' node bits dest rfl rfl ha ht
    refine Emitter.rescaled_down (fun v hv => ?_) ht
    have hentry : s.witness.values? id = some a.values.values := by
      rw [Witness.values?, Emitter.operand_values ha]
      rfl
    exact Witness.read_fitting hw id _ hentry v hv

namespace Extreme

/-- The greatest value that fits modulo 31, brought down and up by one bit. -/
def graph : Circuit.Graph :=
  ⟨[⟨"x", [1], 1, .priv⟩, ⟨"k", [1], -1, .priv⟩, ⟨"y", [1], 0, .priv⟩],
    [⟨1, "add", ["x", "k"], "y", 0, []⟩], ["x", "k"], ["y"]⟩

def circuit : Json := graph.document

def values : Json := .obj [("x", .arr [.int 15]), ("k", .arr [.int 15]), ("y", .arr [.int 7])]

def witness : Witness := [("k", ⟨[1], #[15]⟩), ("x", ⟨[1], #[15]⟩), ("y", ⟨[1], #[7]⟩)]

theorem read_circuit : Circuit.read circuit = .ok graph := by
  cbv

theorem read_values : Witness.read 31 graph values = .ok witness := by
  cbv

def overrun? : Except Fault Program → Option (Int × Nat × Int)
  | .error (.compile (.witness (.derivedUnfit node bits dest))) => some (node, bits, dest)
  | _ => none

theorem refused : (Program.lower "extreme" graph witness default (.int 8) 31).1 =
    .error (.derivedUnfit 1 5 327697) := by
  have hrun : overrun? (Program.lower "extreme" graph witness default (.int 8) 31).1 =
      some (1, 5, 327697) := by
    decide +kernel
  generalize (Program.lower "extreme" graph witness default (.int 8) 31).1 = r at hrun ⊢
  unfold overrun? at hrun
  split at hrun
  · next node bits dest =>
      obtain ⟨rfl, rfl, rfl⟩ : node = 1 ∧ bits = 5 ∧ dest = 327697 := by simpa using hrun
      rfl
  · exact absurd hrun (by simp)

end Extreme

/-- Minus five halves and fifteen halves, and a lowering that gets through the second of them. -/
theorem Quantity.halves_rounded :
    (∀ q, Nearest (-5) (2 ^ (1 : Int).toNat) q ↔ q = -3) ∧ rescale? (-5) 1 = .ok (-3) ∧
      rescale (rescale (-5) (-70)) 70 = -5 ∧ rescale (-5) 1 ≤ rescale 15 1 ∧
      Field.Fits 31 (rescale 15 1) ∧
      ∃ ss, .emitted 1 ss ∈ (Lowering.plan Extreme.graph default (.int 8)).2 ∧
        ∃ s ∈ ss, Program.Values.Overruns 31 5 327697 s ∧
          ∀ d a shift, s.instruction = .rescale d a shift → shift < 0 := by
  obtain ⟨hreach, hnear, -, hmono, hback, hfits, hrange⟩ := rescale_rounds
  obtain ⟨-, hrefused⟩ :=
    hrange 31 Extreme.graph Extreme.values Extreme.witness (by decide) Extreme.read_values
  have hthree : rescale (-5) 1 = -3 := by decide
  refine ⟨hthree ▸ fun q => hnear (-5) 1 q (by decide), ?_, (hback (-5) 70).2 (.inl (by decide)),
    hmono (-5) 15 1 (by decide), hfits 31 15 1 (by decide) (by decide),
    hrefused Extreme.circuit Extreme.read_circuit "extreme" default (.int 8) 1 5 327697
      Extreme.refused⟩
  rcases hreach (-5) 1 with ⟨-, h⟩ | ⟨h, -⟩
  · rw [h, hthree]
  · exact absurd (rescaleFault?_eq_none_iff.1 rfl) h

/-- There is no power of two with so many bits to divide by, and a bit that was lost does not come
back. -/
theorem Quantity.far_shift_refused :
    rescale 1 (2 ^ 70) = 0 ∧ rescale? 1 (2 ^ 70) = .error .overflow ∧
      rescale? 1 1 = .ok 1 ∧ rescale? 1 (-1) = .ok 2 :=
  ⟨rescale_eq_zero (by decide), rfl, rfl, rfl⟩

end TensorAsm
