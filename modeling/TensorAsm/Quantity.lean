import TensorAsm.Fault
import TensorAsm.Platform
/-!
Quantized values and the change of their scale. Going down rounds to nearest, a half away from
zero; going up multiplies.
-/

namespace TensorAsm.Quantity

def roundHalfAway (n d : Int) : Int :=
  let a : Int := n.natAbs
  let q := if d ≤ 2 * (a % d) then a / d + 1 else a / d
  if 0 ≤ n then q else -q

/-- Down by `shift` bits, up when it is negative. -/
def rescale (v shift : Int) : Int :=
  if shift = 0 then v
  else if shift < 0 then v * Nat.pow 2 (-shift).toNat
  else roundHalfAway v (Nat.pow 2 shift.toNat)

def divide? (n d : Int) : Except Fault Int :=
  if d ≤ 0 then .error (.invalid .denominator) else .ok (roundHalfAway n d)

def digitCount (n : Nat) : Nat := if n = 0 then 0 else n.log2 / 30 + 1

/-- The digits that are reserved for `n` when it is moved up by `bits` bits. -/
def movedDigits (n bits : Nat) : Nat :=
  digitCount n + bits / 30 + (if bits % 30 = 0 then 0 else 1)

def digitLimit : Nat := 0x1ffffffffffffff9

/-- Why `n` cannot be moved up by `bits` bits. Nothing stands in the way of zero. -/
def moveFault? (room n bits : Nat) : Option Fault :=
  if n = 0 then none
  else if digitLimit < movedDigits n bits then some .overflow
  else if room ≤ bits then some .outOfMemory
  else none

theorem moveFault?_cases {room n bits : Nat} {f : Fault} (h : moveFault? room n bits = some f) :
    f = .overflow ∨ f = .outOfMemory := by
  unfold moveFault? at h
  split at h
  · exact absurd h (by simp)
  split at h
  · exact .inl (Option.some.inj h).symm
  split at h
  · exact .inr (Option.some.inj h).symm
  · exact absurd h (by simp)

def vanishes (v shift : Int) : Bool := decide (v = 0) || decide ((v.natAbs.log2 : Int) + 1 < shift)

theorem roundHalfAway_eq_zero {n d : Int} (h : 2 * (n.natAbs : Int) < d) :
    roundHalfAway n d = 0 := by
  have hm : (n.natAbs : Int) % d = n.natAbs := Int.emod_eq_of_lt (by omega) (by omega)
  have hd : (n.natAbs : Int) / d = 0 := Int.ediv_eq_zero_of_lt (by omega) (by omega)
  have hq : ¬ d ≤ 2 * (n.natAbs : Int) := by omega
  simp only [roundHalfAway, hm, hd, if_neg hq]
  split <;> rfl

theorem rescale_eq_zero {v shift : Int} (h : vanishes v shift = true) : rescale v shift = 0 := by
  simp only [vanishes, Bool.or_eq_true, decide_eq_true_eq] at h
  unfold rescale
  split
  · omega
  split
  · have hv : v = 0 := by omega
    rw [hv, Int.zero_mul]
  · apply roundHalfAway_eq_zero
    obtain ⟨k, hk⟩ : ∃ k, shift.toNat = k + 1 := ⟨shift.toNat - 1, by omega⟩
    have hpos : 0 < Nat.pow 2 k := Nat.pow_pos (by decide)
    have hstep : Nat.pow 2 (k + 1) = Nat.pow 2 k * 2 := rfl
    rw [hk, hstep]
    rcases h with h | h
    · have hz : v.natAbs = 0 := by omega
      omega
    · have hlog : v.natAbs < Nat.pow 2 (v.natAbs.log2 + 1) := Nat.lt_log2_self
      have hle : Nat.pow 2 (v.natAbs.log2 + 1) ≤ Nat.pow 2 k :=
        Nat.pow_le_pow_right (by decide) (by omega)
      omega

variable [Platform]

def powerFault? (bits : Nat) : Option Fault := moveFault? Platform.powerRoom 1 bits

/-- Why a value cannot be rescaled: going down, it is divided by a power of two. -/
def rescaleFault? (v shift : Int) : Option Fault :=
  if shift = 0 then none
  else if shift < 0 then moveFault? Platform.valueRoom v.natAbs (-shift).toNat
  else powerFault? shift.toNat

def rescale? (v shift : Int) : Except Fault Int :=
  match rescaleFault? v shift with
  | some f => .error f
  | none => .ok (if vanishes v shift then 0 else rescale v shift)

theorem rescaleFault?_cases {v shift : Int} {f : Fault} (h : rescaleFault? v shift = some f) :
    f = .overflow ∨ f = .outOfMemory := by
  unfold rescaleFault? at h
  split at h
  · exact absurd h (by simp)
  split at h
  · exact moveFault?_cases h
  · exact moveFault?_cases h

theorem rescale?_eq (v shift : Int) :
    rescale? v shift =
      match rescaleFault? v shift with
      | some f => .error f
      | none => .ok (rescale v shift) := by
  unfold rescale?
  cases rescaleFault? v shift with
  | some f => rfl
  | none =>
    simp only [Except.ok.injEq]
    split
    · next h => exact (rescale_eq_zero h).symm
    · rfl

theorem rescale?_error {v shift : Int} {f : Fault} (h : rescale? v shift = .error f) :
    f = .overflow ∨ f = .outOfMemory := by
  rw [rescale?_eq] at h
  split at h
  · next hf => exact rescaleFault?_cases (Except.error.inj h ▸ hf)
  · exact absurd h (by simp)

end TensorAsm.Quantity
