import TensorAsm.Circuit.Basic
import TensorAsm.Quantity
import TensorAsm.Table.Breakpoints
/-!
Lookup tables for nonlinearities: a row for every quantized input of the given width, with the
quantized value of the function there. Rectification is exact, the others go through doubles.
-/

namespace TensorAsm.Table

variable [Platform]

structure Spec where
  function : String
  inScale : Int
  outScale : Int
  bits : Int
  alpha : Option Parameter
  breakpoints : Option (List Point)

namespace Spec

def samePoints : List Point → List Point → Bool
  | [], [] => true
  | p :: ps, q :: qs => p.same q && samePoints ps qs
  | _, _ => false

def sameAlpha : Option Parameter → Option Parameter → Bool
  | none, none => true
  | some x, some y => x.same y
  | _, _ => false

def sameBreakpoints : Option (List Point) → Option (List Point) → Bool
  | none, none => true
  | some ps, some qs => samePoints ps qs
  | _, _ => false

/-- Specs with equal parts share a table; numbers are compared by value. -/
def same (s t : Spec) : Bool :=
  s.function == t.function && s.inScale == t.inScale && s.outScale == t.outScale
    && s.bits == t.bits && sameAlpha s.alpha t.alpha && sameBreakpoints s.breakpoints t.breakpoints

def rows (s : Spec) : Int := Nat.pow 2 s.bits.toNat

def half (s : Spec) : Int := Nat.pow 2 (s.bits - 1).toNat

def describe (s : Spec) : String :=
  s.function ++ " s" ++ Numeral.write s.inScale ++ "->s" ++ Numeral.write s.outScale ++ " bits="
    ++ Numeral.write s.bits
    ++ (match s.alpha with | some x => " alpha=" ++ Decimal.write x.value | none => "")
    ++ (match s.breakpoints with
        | some ps => " breakpoints=" ++ Point.listText ps
        | none => "")

def numbers (s : Spec) : List Int := [s.inScale, s.outScale, s.bits]

def describe? (s : Spec) : Except Fault String := written s.numbers s.describe

end Spec

/-- Two to an integer power as a double; too small a power is zero. -/
def pow2 (n : Int) : Except Fault Float :=
  if (Binary64.ofInt? n).isNone ∨ 1024 ≤ n then .error .overflow
  else if n < -1074 then .ok 0.0
  else .ok (Binary64.ofRatio false (Nat.pow 2 n.toNat) (Nat.pow 2 (-n).toNat))

def sigmoid (v : Float) : Float :=
  if 0.0 ≤ v then 1.0 / (1.0 + (-v).exp)
  else v.exp / (1.0 + v.exp)

def interpolate (v : Float) : Float × Float → List (Float × Float) → Float
  | p, [] => p.2
  | p, q :: rest =>
    if v ≤ q.1 then
      if q.1 == p.1 then q.2
      else p.2 + (q.2 - p.2) * (v - p.1) / (q.1 - p.1)
    else interpolate v q rest

def piecewise (ps : List (Float × Float)) (v : Float) : Except Fault Float :=
  match ps with
  | [] => .error .outOfRange
  | p :: rest => .ok (if v ≤ p.1 then p.2 else interpolate v p rest)

def function? (name : String) (alpha : Option Float) (points : Option (List (Float × Float))) :
    Option (Float → Except Fault Float) :=
  match name with
  | "leaky_relu" => some fun v =>
    if 0.0 ≤ v then .ok v
    else match alpha with
      | some x => .ok (x * v)
      | none => .error .wrongKind
  | "sigmoid" => some fun v => .ok (sigmoid v)
  | "tanh" => some fun v => .ok v.tanh
  | "piecewise_linear" => some fun v =>
    match points with
    | some ps => piecewise ps v
    | none => .error .wrongKind
  | _ => none

def realFunction? (s : Spec) : Option (Float → Except Fault Float) :=
  function? s.function (s.alpha.map Parameter.number)
    (s.breakpoints.map fun ps => ps.map Point.numbers)

def quantize (x : Float) : Except Fault Int :=
  match Binary64.parts (x.abs + 0.5) with
  | .nan => .error (.invalid .notANumber)
  | .infinite _ => .error .overflow
  | .finite _ m e =>
    let q : Int := Binary64.floorMagnitude m e
    .ok (if 0.0 ≤ x then q else -q)

structure Row where
  x : Int
  y : Int
  deriving DecidableEq, Repr

/-- The rows of `count` inputs from `x` on, behind those that are `done`, last first. -/
def rowsFrom (f : Int → Except Fault Int) : Nat → Int → List Row → Except Fault (List Row)
  | 0, _, done => .ok done.reverse
  | count + 1, x, done =>
    match f x with
    | .error e => .error e
    | .ok y => rowsFrom f count (x + 1) (⟨x, y⟩ :: done)

def rowsOf (s : Spec) (f : Int → Except Fault Int) : Except Fault (List Row) :=
  rowsFrom f s.rows.toNat (-s.half) []

def reluRow (s : Spec) (x : Int) : Except Fault Int :=
  Quantity.rescale? (max x 0) (s.inScale - s.outScale)

def realRow (f : Float → Except Fault Float) (unit scale : Float) (x : Int) : Except Fault Int :=
  match Json.floatOfInt x with
  | .error e => .error e
  | .ok v =>
    if unit == 0.0 then .error .divisionByZero
    else
      match f (v / unit) with
      | .error e => .error e
      | .ok r => quantize (r * scale)

/-- The first input of a wider table is no double. -/
def doubleBits : Int := 1024

def foldReal (s : Spec) : Except Fault (List Row) :=
  match realFunction? s with
  | none => .error (.invalid (.noTableFunction s.function))
  | some f =>
    match pow2 s.inScale, pow2 s.outScale with
    | .ok unit, .ok scale =>
      if doubleBits < s.bits then .error .overflow else rowsOf s (realRow f unit scale)
    | .error e, _ => .error e
    | _, .error e => .error e

def fold (s : Spec) : Except Fault (List Row) :=
  if s.bits < 1 then .error (.invalid .negativeShift)
  else
    match Quantity.powerFault? (s.bits - 1).toNat with
    | some f => .error f
    | none => if s.function == "relu" then rowsOf s (reluRow s) else foldReal s

def maxBits : Int := 24

def defaultBits : Int := 8

def readBits (o : Circuit.Operation) (default : Json) : Except Fault Int :=
  let given := (o.param? "bits").getD default
  match given.int? with
  | some n =>
    if 1 ≤ n ∧ n ≤ maxBits then .ok n else .error (.compile (.circuit (.lookupBits o.id given)))
  | none => .error (.compile (.circuit (.lookupBits o.id given)))

def readBreakpoints (o : Circuit.Operation) : Except Fault (List Point) :=
  match o.param? "breakpoints" with
  | some (.arr (p :: q :: rest)) =>
    match Point.readAll (p :: q :: rest) with
    | .error f => .error f
    | .ok none => .error (.compile (.circuit (.badBreakpoints o.id)))
    | .ok (some ps) => .ok (Point.sort ps)
  | _ => .error (.compile (.circuit (.fewBreakpoints o.id)))

def specFor (o : Circuit.Operation) (inScale : Int) (default : Json) : Except Fault Spec :=
  match readBits o default with
  | .error f => .error f
  | .ok bits =>
    let plain : Spec := ⟨o.kind, inScale, o.scale, bits, none, none⟩
    match o.kind? with
    | some .leakyRelu =>
      (Parameter.read ((o.param? "alpha").getD (.float 0.01))).map fun x =>
        { plain with alpha := some x }
    | some .piecewiseLinear =>
      (readBreakpoints o).map fun ps => { plain with breakpoints := some ps }
    | _ => .ok plain

end TensorAsm.Table
