import TensorAsm.Fault
/-!
The numbers that values stand for: truth values are one and zero, a text is read, and a double is
cut to its integer part.
-/

namespace TensorAsm.Json

def toInt : Json → Except Fault Int
  | .int n => .ok n
  | .bool b => .ok (if b then 1 else 0)
  | .str s =>
    match Numeral.read .decimal s with
    | .ok n => .ok n
    | .error d => .error (.invalid (.numeral d))
  | .float x =>
    match Binary64.parts x with
    | .nan => .error (.invalid .notANumber)
    | .infinite _ => .error .overflow
    | .finite negative m e =>
      let v : Int := Binary64.floorMagnitude m e
      .ok (if negative then -v else v)
  | _ => .error .wrongKind

def floatOfInt (n : Int) : Except Fault Float :=
  match Binary64.ofInt? n with
  | some x => .ok x
  | none => .error .overflow

def toFloat : Json → Except Fault Float
  | .int n => floatOfInt n
  | .bool b => .ok (if b then 1.0 else 0.0)
  | .float x => .ok x
  | .str s =>
    match Decimal.read? s with
    | some x => .ok x
    | none => .error (.invalid (.decimal s))
  | _ => .error .wrongKind

end TensorAsm.Json
