import TensorAsm.Circuit.Order
/-!
Reading a circuit from its description. Entries are read in order and the first defect is
reported; then the references of the whole graph are checked, operations by ascending id.
-/

namespace TensorAsm.Circuit

variable [Platform]

def dims? : List Json → Option (List Nat)
  | [] => some []
  | .int n :: js => if 0 ≤ n then (dims? js).map (n.toNat :: ·) else none
  | _ :: _ => none

def shape? : Json → Option (List Nat)
  | .arr items => dims? items
  | _ => none

def visibility? : Json → Option Visibility
  | .str s => Visibility.ofName? s
  | _ => none

def refusal (d : CircuitDefect) : Fault := .compile (.circuit d)

def readTensor (entry : Json) : Except Fault Tensor :=
  match entry.get? "id" with
  | none => .error (refusal (.tensorWithoutId entry))
  | some id => do
    let id ← id.text?
    let shape := (entry.get? "shape").getD (.arr [])
    let some dims := shape? shape | throw (refusal (.invalidShape id shape))
    let scale := (entry.get? "scale").getD (.int 0)
    let some s := scale.int? | throw (refusal (.invalidScale id scale))
    let visibility := (entry.get? "visibility").getD (.str "private")
    let some v := visibility? visibility | throw (refusal (.unknownVisibility id visibility))
    return ⟨id, dims, s, v⟩

def readTensors (done : List Tensor) : List Json → Except Fault (List Tensor)
  | [] => .ok done
  | entry :: rest =>
    match readTensor entry with
    | .error f => .error f
    | .ok t =>
      if done.any (·.id == t.id) then .error (refusal (.tensorTwice t.id))
      else readTensors (done ++ [t]) rest

/-- The scale of an operation; it may be left out and is then that of the output. -/
def readScale (tensors : List Tensor) (node : Int) (output : String) :
    Option Json → Except Fault Int
  | none | some .null => .ok (((tensors.find? (·.id == output)).map (·.scale)).getD 0)
  | some j =>
    match j.int? with
    | some s => .ok s
    | none => .error (refusal (.nodeScale node j))

def readOperation (tensors : List Tensor) (entry : Json) : Except Fault Operation := do
  let some node := (entry.get? "id").bind Json.int?
    | throw (refusal (.operationWithoutId entry))
  let some (.str kind) := entry.get? "kind" | throw (refusal (.noKind node))
  let .arr inputs := (entry.get? "inputs").getD (.arr [])
    | throw (refusal (.inputsNotList node))
  let some output := entry.get? "output" | throw (refusal (.noOutput node))
  let output ← output.text?
  let scale ← readScale tensors node output (entry.get? "scale")
  let .obj params := (entry.get? "params").getD (.obj [])
    | throw (refusal (.paramsNotObject node))
  return ⟨node, kind, ← inputs.mapM Json.text?, output, scale, params⟩

def readOperations (tensors : List Tensor) (done : List Operation) :
    List Json → Except Fault (List Operation)
  | [] => .ok done
  | entry :: rest =>
    match readOperation tensors entry with
    | .error f => .error f
    | .ok o =>
      if done.any (·.id == o.id) then .error (refusal (.nodeTwice o.id))
      else readOperations tensors (done ++ [o]) rest

def readIds (doc : Json) (key : String) : Except Fault (List String) :=
  match (doc.get? key).getD (.arr []) with
  | .arr items => items.mapM Json.text?
  | _ => .error (refusal (.idList key))

namespace Graph

def defines (g : Graph) (id : String) : Bool := (g.tensor? id).isSome

/-- What is wrong with an operation when `before` are the operations with smaller ids. -/
def operationDefect? (g : Graph) (before : List Operation) (o : Operation) : Option CircuitDefect :=
  match (o.inputs ++ [o.output]).find? fun t => !g.defines t with
  | some t => some (.undefinedTensor o.id t)
  | none =>
    match before.find? (·.output == o.output) with
    | some p => some (.producedTwice o.output p.id o.id)
    | none =>
      match g.tensor? o.output with
      | some t =>
        if o.scale = t.scale then none
        else some (.scaleDisagrees o.id o.scale o.output t.scale)
      | none => none

def operationsDefect? (g : Graph) (before : List Operation) : List Operation → Option CircuitDefect
  | [] => none
  | o :: rest =>
    match g.operationDefect? before o with
    | some d => some d
    | none => g.operationsDefect? (before ++ [o]) rest

def declaredDefect? (g : Graph) : Option CircuitDefect :=
  match (g.inputs ++ g.outputs).find? fun t => !g.defines t with
  | some t => some (.undefinedDeclared t)
  | none => g.inputs.findSome? fun t => (g.producer? t).map fun o => .producedInput t o.id

/-- A tensor in use is produced, a declared input, or a constant. -/
def hasOrigin (g : Graph) (id : String) : Bool :=
  (g.producer? id).isSome || g.inputs.contains id
    || (g.tensor? id).any (·.visibility == .fixed)

def originDefect? (g : Graph) : Option CircuitDefect :=
  (g.required.find? fun t => !g.hasOrigin t).map .noProducer

def defect? (g : Graph) : Option CircuitDefect :=
  match g.operationsDefect? [] (g.operations.mergeSort fun a b => decide (a.id ≤ b.id)) with
  | some d => some d
  | none =>
    match g.declaredDefect? with
    | some d => some d
    | none => g.originDefect?

end Graph

def sections? (doc : Json) : Except Fault (List Json × List Json) :=
  match doc with
  | .obj _ =>
    match doc.get? "tensors" with
    | some (.arr tensors) =>
      match doc.get? "operations" with
      | some (.arr operations) => .ok (tensors, operations)
      | _ => .error (refusal (.missingSection "operations"))
    | _ => .error (refusal (.missingSection "tensors"))
  | _ => .error (refusal .notObject)

def readParts (doc : Json) : Except Fault Graph := do
  let (tensors, operations) ← sections? doc
  let tensors ← readTensors [] tensors
  let operations ← readOperations tensors [] operations
  let inputs ← readIds doc "inputs"
  let outputs ← readIds doc "outputs"
  return ⟨tensors, operations, inputs, outputs⟩

def read (doc : Json) : Except Fault Graph :=
  match readParts doc with
  | .error f => .error f
  | .ok g =>
    match g.defect? with
    | some d => .error (refusal d)
    | none =>
      match g.order with
      | .error d => .error (refusal d)
      | .ok _ => .ok g

end TensorAsm.Circuit
