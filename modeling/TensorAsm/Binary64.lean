/-!
Doubles as exact numbers: the parts of a double, the double nearest to a ratio, and comparison
and rounding to integers by integer arithmetic.
-/

namespace TensorAsm.Binary64

inductive Parts where
  | finite (negative : Bool) (mantissa : Nat) (exponent : Int)
  | infinite (negative : Bool)
  | nan

def signBit : Nat := 0x8000000000000000

def fractionCount : Nat := 0x10000000000000

/-- A finite double is its mantissa times two to its exponent. -/
def parts (x : Float) : Parts :=
  let bits := x.toBits.toNat
  let negative := signBit ≤ bits
  let field : Nat := bits / fractionCount % 2048
  let fraction : Nat := bits % fractionCount
  if field = 2047 then if fraction = 0 then .infinite negative else .nan
  else if field = 0 then .finite negative fraction (-1074)
  else .finite negative (fraction + fractionCount) ((field : Int) - 1075)

def infinityBits : Nat := 2047 * fractionCount

def ofMagnitude (negative : Bool) (bits : Nat) : Float :=
  Float.ofBits (UInt64.ofNat ((if negative then signBit else 0) + min bits infinityBits))

def roundHalfEven (num den : Nat) : Nat :=
  let q := num / den
  let r := num % den
  if den < 2 * r ∨ (2 * r = den ∧ q % 2 = 1) then q + 1 else q

/-- The greatest power of two, as its exponent, that is at most `num / den`. -/
def log2Ratio (num den : Nat) : Int :=
  let a := num.log2
  let b := den.log2
  if den * Nat.pow 2 (a - b) ≤ num * Nat.pow 2 (b - a) then (a : Int) - b else (a : Int) - b - 1

/-- The bits, but for the sign, of the double nearest to `num / den`, a tie going to the even
mantissa and too great a ratio to infinity. -/
def nearestBits (num den : Nat) : Nat :=
  if num = 0 then 0
  else
    let k := log2Ratio num den
    if 1024 ≤ k then infinityBits
    else if k < -1080 then 0
    else
      let q := max (k - 52) (-1074)
      let m := roundHalfEven (num * Nat.pow 2 (-q).toNat) (den * Nat.pow 2 q.toNat)
      min ((q + 1074).toNat * fractionCount + m) infinityBits

def ofRatio (negative : Bool) (num den : Nat) : Float :=
  ofMagnitude negative (nearestBits num den)

def ofInt? (n : Int) : Option Float :=
  let bits := nearestBits n.natAbs 1
  if bits = infinityBits then none else some (ofMagnitude (n < 0) bits)

def divInt? (n : Int) (d : Nat) : Option Float :=
  let bits := nearestBits n.natAbs d
  if bits = infinityBits then none else some (ofMagnitude (n < 0) bits)

def floorMagnitude (mantissa : Nat) (exponent : Int) : Nat :=
  mantissa * Nat.pow 2 exponent.toNat / Nat.pow 2 (-exponent).toNat

def intLe (n : Int) (x : Float) : Bool :=
  match parts x with
  | .nan => false
  | .infinite negative => !negative
  | .finite negative m e =>
    let v : Int := m * Nat.pow 2 e.toNat
    decide (n * Nat.pow 2 (-e).toNat ≤ if negative then -v else v)

end TensorAsm.Binary64
