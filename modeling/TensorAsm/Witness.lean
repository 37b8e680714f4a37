import TensorAsm.Circuit.Basic
import TensorAsm.Field
/-!
Witnesses: for each tensor in use its values, row by row.
-/

namespace TensorAsm

structure Witness.Entry where
  shape : List Nat
  values : Array Int

abbrev Witness := List (String × Witness.Entry)

namespace Witness

variable [Platform]

/-- An element of a tensor; with too many dimensions none can be read. -/
def Entry.get? (e : Entry) (i : Nat) : Except Fault (Option Int) :=
  match e.values[i]? with
  | none => .ok none
  | some v =>
    if e.shape.length ≤ Platform.axisLimit then .ok (some v)
    else .error (.tooManyAxes Platform.axisLimit e.shape.length)

def Entry.toList? (e : Entry) : Except Fault (List Int) :=
  if e.shape.length ≤ Platform.axisLimit then .ok e.values.toList
  else .error (.tooManyAxes Platform.axisLimit e.shape.length)

def values? (w : Witness) (tensor : String) : Option (Array Int) :=
  (Ordered.get? tensor w).map (·.values)

def drop (w : Witness) (tensor : String) : Witness := w.filter (·.1 != tensor)

def readValue (m : Int) (tensor : String) (leaf : Json) : Except Fault Int :=
  match Field.parse m leaf with
  | .error (.invalid why) => .error (.compile (.witness (.value tensor why.reported)))
  | .error f => .error f
  | .ok v => if Field.Fits m v then .ok v else .error (.compile (.witness (.unfit tensor)))

def readValues (m : Int) (tensor : String) (leaves : List Json) : Except Fault (List Int) :=
  leaves.mapM (readValue m tensor)

/-- Why values cannot take a shape although their number is the size of the tensor. -/
def shapeRefusal? (count : Nat) (shape : List Nat) : Option Invalid :=
  if Platform.rankLimit < shape.length then
    some (.tooManyDimensions Platform.rankLimit shape.length)
  else if shape.any (Shape.wordHalf ≤ ·) then some .dimensionTooGreat
  else if Shape.wordProduct? shape ≠ some count then some (.reshape count shape)
  else if Shape.wordHalf ≤ 8 * Shape.volume (shape.filter (· ≠ 0)) then some .arrayTooBig
  else none

def readEntry (m : Int) (t : Circuit.Tensor) (given : Json) : Except Fault Entry :=
  let leaves := given.leaves
  match t.size? with
  | .error f => .error f
  | .ok size =>
    if (leaves.length : Int) ≠ size then
      .error (.compile (.witness (.count t.id leaves.length t.shape size)))
    else
      match readValues m t.id leaves with
      | .error f => .error f
      | .ok values =>
        match shapeRefusal? values.length t.shape with
        | some why => .error (.invalid why)
        | none => .ok ⟨t.shape, values.toArray⟩

def readEntries (m : Int) (g : Circuit.Graph) (given : List (String × Json)) :
    List String → Except Fault Witness
  | [] => .ok []
  | id :: rest =>
    match g.tensor? id with
    | none => .error .missingKey
    | some t =>
      match Ordered.get? id given with
      | none => .error (.compile (.witness (.missing id)))
      | some j =>
        match readEntry m t j with
        | .error f => .error f
        | .ok e => (readEntries m g given rest).map ((id, e) :: ·)

/-- The values may stand under a key of their own. -/
def fields? : Json → Option (List (String × Json))
  | .obj fields =>
    match Ordered.get? "values" fields with
    | some (.obj inner) => some inner
    | _ => some fields
  | _ => none

def read (m : Int) (g : Circuit.Graph) (given : Json) : Except Fault Witness :=
  match fields? given with
  | none => .error (.compile (.witness .notObject))
  | some fields => readEntries m g fields g.required

end Witness

end TensorAsm
