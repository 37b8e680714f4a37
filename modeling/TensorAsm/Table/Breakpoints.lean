import TensorAsm.Json.Number
import TensorAsm.Runs
/-!
Real parameters of tables, and the breakpoints of a piecewise linear function, which are sorted by
runs.
-/

namespace TensorAsm.Table

/-- A real parameter. A NaN that stands in a document as a number is one value, equal to itself; a
NaN that was read from a text equals nothing. -/
structure Parameter where
  value : Float
  fromText : Bool

namespace Parameter

def isNaN (p : Parameter) : Bool :=
  match Binary64.parts p.value with
  | .nan => true
  | _ => false

def number (p : Parameter) : Float := if p.value == 0.0 then 0.0 else p.value

def same (p q : Parameter) : Bool :=
  p.number.toBits == q.number.toBits && !(p.isNaN && (p.fromText || q.fromText))

def read (j : Json) : Except Fault Parameter :=
  match j with
  | .str _ => j.toFloat.map (⟨·, true⟩)
  | _ => j.toFloat.map (⟨·, false⟩)

end Parameter

structure Point where
  x : Parameter
  y : Parameter

namespace Point

def lt (p q : Point) : Bool :=
  if p.x.same q.x then decide (p.y.value < q.y.value) else decide (p.x.value < q.x.value)

def sort (ps : List Point) : List Point := Runs.sort lt ps

def same (p q : Point) : Bool := p.x.same q.x && p.y.same q.y

def numbers (p : Point) : Float × Float := (p.x.number, p.y.number)

def coordinates? : Json → Option (Json × Json)
  | .arr [x, y] => some (x, y)
  | .obj [(x, _), (y, _)] => some (.str x, .str y)
  | .str s =>
    match Text.symbols s with
    | [x, y] => some (.str x, .str y)
    | _ => none
  | _ => none

def coordinate (j : Json) : Except Fault (Option Parameter) :=
  match Parameter.read j with
  | .ok p => .ok (some p)
  | .error .overflow => .error .overflow
  | .error _ => .ok none

def read (j : Json) : Except Fault (Option Point) :=
  match coordinates? j with
  | none => .ok none
  | some (x, y) =>
    match coordinate x with
    | .error f => .error f
    | .ok none => .ok none
    | .ok (some a) => (coordinate y).map fun b => b.map (⟨a, ·⟩)

def readAll : List Json → Except Fault (Option (List Point))
  | [] => .ok (some [])
  | j :: js =>
    match read j with
    | .error f => .error f
    | .ok none => .ok none
    | .ok (some p) => (readAll js).map fun r => r.map (p :: ·)

def text (p : Point) : String :=
  "(" ++ Decimal.write p.x.value ++ ", " ++ Decimal.write p.y.value ++ ")"

def listText : List Point → String
  | [p] => "(" ++ p.text ++ ",)"
  | ps => Json.bracketed "(" (ps.map text) ")"

end Point

end TensorAsm.Table
