import TensorAsm.Field
import TensorAsm.Layout
/-!
The compile configuration: options of the passes, the memory layout and the field.
-/

namespace TensorAsm.Config

variable [Platform]

def section? (config : Json) (key : String) : Except Fault (Option Json) :=
  match config with
  | .obj fields => .ok (Ordered.get? key fields)
  | _ => .error .noMember

def readModulus : Json → Except Fault Int
  | .str s => Field.liftNumeral (Numeral.read .marked s)
  | j => j.toInt

/-- The modulus of the field; two and below cannot be one. -/
def checkModulus (m : Int) : Except Fault Int :=
  if m < 3 then .error (.invalid (.modulus m)) else .ok m

def modulus (config : Json) : Except Fault Int :=
  match section? config "field" with
  | .error f => .error f
  | .ok given =>
    let field := given.getD .null
    match section? (if field.truthy then field else .obj []) "modulus" with
    | .error f => .error f
    | .ok none => .ok Field.defaultModulus
    | .ok (some j) =>
      match readModulus j with
      | .error f => .error f
      | .ok m => checkModulus m

def layout (config : Json) : Except Fault Layout :=
  match section? config "memory" with
  | .error f => .error f
  | .ok given => Layout.read (given.getD .null)

def passEntry (options : List (String × Json)) : Json :=
  .obj [("enabled", .bool true), ("options", .obj options)]

def packaged : Json :=
  .obj [
    ("passes", .obj [
      ("lowering", passEntry [("lookup_bits", .int 8)]),
      ("memory-layout", passEntry []),
      ("replay-check", passEntry [("check_mode", .str "safe"), ("tolerance", .float 0.0)]),
      ("assemble", passEntry [("skeleton", .null)])]),
    ("memory", .obj [
      ("capacity", .int Layout.defaultCapacity),
      ("namespaces", .obj (Region.all.map fun r => (r.name, .int (Layout.defaultSize r))))]),
    ("field", .obj [("modulus", .str (Numeral.write Field.defaultModulus))])]

end TensorAsm.Config
