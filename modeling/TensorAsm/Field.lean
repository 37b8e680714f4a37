import TensorAsm.Fault
/-!
Field elements and the signed integers they stand for. An element is the remainder of an integer
by the modulus; its centred value is the one around zero.
-/

namespace TensorAsm.Field

def defaultModulus : Int :=
  21888242871839275222246405745257275088548364400416034343698204186575808495617

def half (m : Int) : Int := m.fdiv 2

/-- In the range in which an integer and its element determine each other. -/
def Fits (m v : Int) : Prop := -half m ≤ v ∧ v ≤ half m

instance (m v : Int) : Decidable (Fits m v) := inferInstanceAs (Decidable (_ ∧ _))

def fitsDouble (m : Int) (x : Float) : Bool :=
  Binary64.intLe (-half m) x && Binary64.intLe (-half m) (-x)

def encode (m v : Int) : Int := v.fmod m

def centre (m e : Int) : Int :=
  if half m < e.fmod m then e.fmod m - m else e.fmod m

def nonzero (m : Int) (v : Int) : Except Fault Int :=
  if m = 0 then .error .divisionByZero else .ok v

def encode? (m v : Int) : Except Fault Int := nonzero m (encode m v)

def centre? (m e : Int) : Except Fault Int := nonzero m (centre m e)

def hasHexMark : List Char → Bool
  | '0' :: c :: _ => c == 'x' || c == 'X'
  | _ => false

def liftNumeral {α : Type} : Except Numeral.Defect α → Except Fault α
  | .ok a => .ok a
  | .error d => .error (.invalid (.numeral d))

/-- A value of the witness: an integer, a decimal numeral, or an element in hexadecimal. -/
def parse (m : Int) : Json → Except Fault Int
  | .bool b => .error (.invalid (.booleanValue b))
  | .int n => .ok n
  | .str s =>
    let t := Text.trim s.toList
    if hasHexMark t then
      match liftNumeral (Numeral.read .hexadecimal (String.ofList t)) with
      | .ok e => centre? m e
      | .error f => .error f
    else liftNumeral (Numeral.read .decimal (String.ofList t))
  | j => .error (.invalid (.notInteger j))

end TensorAsm.Field
