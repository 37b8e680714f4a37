import Mathlib.Data.Int.ModEq
import TensorAsm.Proofs.Templates
/-!
What operations mean, apart from how they are lowered. There is one definition for exact integers
and for the field: the two differ in how results are reduced and in the signed integer that a value
stands for.
-/

namespace TensorAsm

/-- How results are reduced, and which signed integer a value stands for. -/
structure Semantics where
  wrap : Int → Int
  signed : Int → Int
  wrap_add : ∀ x y, wrap (wrap x + y) = wrap (x + y)
  wrap_signed : ∀ x, wrap (signed x) = wrap x

namespace Field

theorem encode_add_mul (m x y : Int) : encode m (x + m * y) = encode m x :=
  Int.add_mul_fmod_self_left x m y

theorem encode_eq (m x : Int) : encode m x = x + m * -x.fdiv m := by
  rw [encode, Int.fmod_def]
  ring

theorem encode_encode (m x : Int) : encode m (encode m x) = encode m x := by
  conv_lhs => rw [encode_eq m x]
  exact encode_add_mul m x _

theorem encode_centre (m x : Int) : encode m (centre m x) = encode m x := by
  unfold centre
  change encode m (if half m < encode m x then encode m x - m else encode m x) = _
  split
  · rw [show encode m x - m = encode m x + m * -1 by ring, encode_add_mul, encode_encode]
  · exact encode_encode m x

theorem centre_encode_self (m x : Int) : centre m (encode m x) = centre m x := by
  have h := encode_encode m x
  unfold encode at h
  rw [centre, centre, encode, h]

theorem encode_add (m x y : Int) : encode m (encode m x + y) = encode m (x + y) := by
  rw [encode_eq m x, add_right_comm, encode_add_mul]

theorem encode_sub (m x y : Int) : encode m (x - encode m y) = encode m (x - y) := by
  rw [encode_eq m y, show x - (y + m * -y.fdiv m) = x - y + m * y.fdiv m by ring, encode_add_mul]

theorem encode_mul (m x y : Int) : encode m (encode m x * y) = encode m (x * y) := by
  rw [encode_eq m x, add_mul, mul_assoc, encode_add_mul]

theorem half_eq (m : Int) : half m = m / 2 := Int.fdiv_eq_ediv_of_nonneg m (by decide)

theorem centre_encode {m x : Int} (hl : -m < 2 * x) (hu : 2 * x ≤ m) :
    centre m (encode m x) = x := by
  have hm : 0 < m := by omega
  have he : encode m x = x % m := Int.fmod_eq_emod_of_nonneg x hm.le
  have hee : (x % m).fmod m = x % m := by
    rw [Int.fmod_eq_emod_of_nonneg _ hm.le, Int.emod_emod_of_dvd x (dvd_refl m)]
  have hh := half_eq m
  rw [he, centre, hee, hh]
  by_cases hx : 0 ≤ x
  · rw [Int.emod_eq_of_lt hx (by omega), if_neg (by omega)]
  · have hxm : x % m = x + m := by
      rw [← Int.add_emod_right, Int.emod_eq_of_lt (by omega) (by omega)]
    rw [hxm, if_pos (by omega)]
    omega

theorem Fits.centre_encode {m x : Int} (hm : m % 2 = 1) (h : Fits m x) :
    centre m (encode m x) = x := by
  have hh := half_eq m
  unfold Fits at h
  exact Field.centre_encode (by omega) (by omega)

theorem fits_zero {m : Int} (hm : 0 < m) : Fits m 0 := by
  have hh := half_eq m
  rw [Fits, hh]
  omega

theorem encode_eq_iff {m x y : Int} (hm : 0 < m) : encode m x = encode m y ↔ x ≡ y [ZMOD m] := by
  rw [encode, encode, Int.fmod_eq_emod_of_nonneg x hm.le, Int.fmod_eq_emod_of_nonneg y hm.le]
  rfl

end Field

namespace Semantics

/-- Integers without bounds. -/
def exact : Semantics := ⟨id, id, fun _ _ => rfl, fun _ => rfl⟩

/-- Remainders by a modulus, which stand for their centred values. -/
def field (m : Int) : Semantics :=
  ⟨Field.encode m, Field.centre m, Field.encode_add m, Field.encode_centre m⟩

/-- A tensor as operations see it. -/
structure Source where
  shape : List Nat
  scale : Int
  entry : List Nat → Int

namespace Source

def ofTensor (v : String → Nat → Int) (t : Circuit.Tensor) : Source :=
  ⟨t.shape, t.scale, fun index => v t.id (Shape.flat t.shape index)⟩

def stretched (x : Source) (index : List Nat) : Int := x.entry (Shape.project x.shape index)

def padded (x : Source) (channel : Nat) (y z : Int) : Int :=
  match x.shape with
  | [_, height, width] =>
    if 0 ≤ y ∧ y < height ∧ 0 ≤ z ∧ z < width then x.entry [channel, y.toNat, z.toNat] else 0
  | _ => 0

def window (stride pad : Int × Int) (x w : Source) (index : List Nat) : List Int :=
  match w.shape, index with
  | [_, channels, height, width], [filter, i, j] =>
    (Shape.indices [channels, height, width]).map fun
      | [c, di, dj] =>
        x.padded c (i * stride.1 + di - pad.1) (j * stride.2 + dj - pad.2)
          * w.entry [filter, c, di, dj]
      | _ => 0
  | _, _ => []

end Source

variable (S : Semantics)

/-- A value `shift` bits further down, or up, unless it cannot be moved so far. -/
def moved [Platform] (shift x : Int) : Option Int :=
  match Quantity.rescaleFault? (S.signed x) shift with
  | some _ => none
  | none => some (S.wrap (Quantity.rescale (S.signed x) shift))

def linear [Platform] (f : Int → Int → Int) (scale : Int) (x y : Source) (index : List Nat) :
    Option Int := do
  let a ← S.moved (x.scale - scale) (x.stretched index)
  let b ← S.moved (y.scale - scale) (y.stretched index)
  return S.wrap (f a b)

/-- A sum of the natural scale at another one. -/
def summed [Platform] (natural scale : Int) (terms : List Int) : Option Int :=
  S.moved (natural - scale) (S.wrap terms.sum)

def convolved [Platform] (o : Circuit.Operation) (x w : Source) (bias : List Int)
    (index : List Nat) : Option Int := do
  let stride ← Lowering.pair? ((o.param? "stride").getD (.int 1))
  let pad ← Lowering.pair? ((o.param? "padding").getD (.int 0))
  S.summed (x.scale + w.scale) o.scale (bias ++ Source.window stride pad x w index)

def lookedUp [Platform] (o : Circuit.Operation) (lookupBits : Json) (x : Source)
    (index : List Nat) : Option Int := do
  let spec ← (Table.specFor o x.scale lookupBits).toOption
  let rows ← (Table.fold spec).toOption
  let key := S.signed (x.entry index)
  if -spec.half ≤ key ∧ key < spec.half then (rows.find? (·.x == key)).map fun row => S.wrap row.y
  else none

def clamped (lo hi x : Int) : Int := S.wrap (min (max (S.signed x) lo) hi)

/-- An element of the output of an operation on its inputs, if it is defined. -/
def result [Platform] (lookupBits : Json) (o : Circuit.Operation) (index : List Nat) :
    Circuit.Kind → List Source → Option Int
  | .add, [x, y] => S.linear (· + ·) o.scale x y index
  | .sub, [x, y] => S.linear (· - ·) o.scale x y index
  | .mul, [x, y] => S.summed (x.scale + y.scale) o.scale [x.stretched index * y.stretched index]
  | .neg, [x] => (S.moved (x.scale - o.scale) (x.entry index)).map fun a => S.wrap (-a)
  | .identity, [x] => S.moved (x.scale - o.scale) (x.entry index)
  | .matmul, [x, y] => S.summed (x.scale + y.scale) o.scale <|
    (List.range (x.shape.getLastD 0)).map fun r =>
      x.entry (index.dropLast ++ [r]) * y.entry [r, index.getLastD 0]
  | .dot, [x, y] => S.summed (x.scale + y.scale) o.scale <|
    (Shape.indices x.shape).map fun j => x.entry j * y.entry j
  | .sum, [x] => S.summed x.scale o.scale ((Shape.indices x.shape).map x.entry)
  | .conv, [x, w] => S.convolved o x w [] index
  | .conv, [x, w, b] => do
    let c ← S.moved (b.scale - (x.scale + w.scale)) (b.entry [index.headD 0])
    S.convolved o x w [c] index
  | .rescale, [x] =>
    match Lowering.bounds? o with
    | none => none
    | some none => S.moved (x.scale - o.scale) (x.entry index)
    | some (some (lo, hi)) => (S.moved (x.scale - o.scale) (x.entry index)).map (S.clamped lo hi)
  | kind, [x] => if kind.category = .nonlinearity then S.lookedUp o lookupBits x index else none
  | _, _ => none

/-- The same from the values of all tensors, each row by row. -/
def reference [Platform] (g : Circuit.Graph) (lookupBits : Json) (v : String → Nat → Int)
    (o : Circuit.Operation) (index : List Nat) : Option Int := do
  let kind ← o.kind?
  let inputs ← o.inputs.mapM g.tensor?
  S.result lookupBits o index kind (inputs.map (Source.ofTensor v))

/-- Operation by operation, in the given order. -/
def evaluate [Platform] (g : Circuit.Graph) (lookupBits : Json) :
    List Circuit.Operation → (String → Nat → Int) → Option (String → Nat → Int)
  | [], v => some v
  | o :: rest, v => do
    let t ← g.tensor? o.output
    let values ← (Shape.indices t.shape).mapM (S.reference g lookupBits v o)
    evaluate g lookupBits rest (Function.update v o.output fun i => values.getD i 0)

variable {S} {x : Int}

theorem wrap_wrap (S : Semantics) (x : Int) : S.wrap (S.wrap x) = S.wrap x := by
  simpa using S.wrap_add x 0

theorem moved_eq_some [Platform] {shift y : Int} :
    S.moved shift x = some y ↔ Quantity.rescaleFault? (S.signed x) shift = none ∧
      S.wrap (Quantity.rescale (S.signed x) shift) = y := by
  unfold moved
  cases Quantity.rescaleFault? (S.signed x) shift <;> simp

theorem moved_eq_none [Platform] {shift : Int} :
    S.moved shift x = none ↔ Quantity.rescaleFault? (S.signed x) shift ≠ none := by
  unfold moved
  cases Quantity.rescaleFault? (S.signed x) shift <;> simp

theorem moved_zero [Platform] (h : S.wrap x = x) : S.moved 0 x = some x := by
  have hf : Quantity.rescaleFault? (S.signed x) 0 = none := rfl
  rw [moved, hf, Quantity.rescale, if_pos rfl, S.wrap_signed, h]

end Semantics

end TensorAsm
