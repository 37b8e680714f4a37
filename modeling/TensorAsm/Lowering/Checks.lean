import TensorAsm.Lowering.Plan
/-!
What is asked of an operation before it is lowered: the number of its inputs, the shapes of its
operands and its output, and its parameters. Each complaint ends the lowering.
-/

namespace TensorAsm.Lowering

structure Setting where
  graph : Circuit.Graph
  lookupBits : Json
  zero : Int

section

variable [Platform] {m : Type → Type} [Monad m] [MonadExceptOf Fault m] {α : Type}

def refuse (d : CircuitDefect) : m α := throw (.compile (.circuit d))

def wrongCount (o : Circuit.Operation) (allowed : List Nat) : m α :=
  refuse (.inputCount o.id o.kind allowed o.inputs.length)

def mismatch (o : Circuit.Operation) (operands : List (List Nat)) (output : List Nat)
    (complaint : ShapeComplaint) : m α :=
  throw (.compile (.shape ⟨o.id, o.kind, operands, output, complaint⟩))

/-- Ends the lowering if one of the integers is not written. -/
def checkWritten (numbers : List Int) : m Unit := do
  if !numbers.all Numeral.isWritable then throw (.invalid .unwritable)

def Setting.tensor (s : Setting) (id : String) : m Circuit.Tensor :=
  match s.graph.tensor? id with
  | some t => return t
  | none => throw .missingKey

def Setting.checkOutput (s : Setting) (o : Circuit.Operation) (operands : List (List Nat))
    (expected : List Nat) : m Unit := do
  let declared := (← s.tensor o.output).shape
  if declared ≠ expected then mismatch o operands declared (.expected expected)

def size (t : Circuit.Tensor) : m Int := MonadExcept.ofExcept t.size?

def checkAxes (shape : List Nat) : m Unit := do
  if Platform.axisLimit < shape.length then throw (.tooManyAxes Platform.axisLimit shape.length)

def checkCountable (shape : List Nat) : m Unit := do
  if !Shape.isCountable shape then throw .outOfMemory

def scalarShape (s : Setting) (o : Circuit.Operation) (operands : List (List Nat)) :
    m (List Nat) := do
  let declared := (← s.tensor o.output).shape
  if declared = [] ∨ declared = [1] then return declared
  mismatch o operands declared .scalarOutput

end

def product? : List Nat → List Nat → Option (Nat × Nat × List Nat)
  | [k], [k', n] => if k = k' then some (k, n, [n]) else none
  | [m, k], [k', n] => if k = k' then some (k, n, [m, n]) else none
  | _, _ => none

def count? : Json → Option Int
  | .int n => some n
  | .bool b => some (if b then 1 else 0)
  | _ => none

/-- Vertical and horizontal parameter: one integer for both, or one for each. -/
def pair? : Json → Option (Int × Int)
  | .int n => some (n, n)
  | .arr [x, y] =>
    match count? x, count? y with
    | some a, some b => some (a, b)
    | _, _ => none
  | _ => none

def window? (x w : List Nat) (stride pad : Int × Int) : Option Window :=
  match x, w with
  | [c, h, v], [f, _, kh, kv] => some ⟨c, h, v, f, kh, kv, stride.1, stride.2, pad.1, pad.2⟩
  | _, _ => none

def channelsAgree : List Nat → List Nat → Bool
  | [c, _, _], [_, c', _, _] => c == c'
  | _, _ => false

section

variable [Platform] {m : Type → Type} [Monad m] [MonadExceptOf Fault m]

def convPair (o : Circuit.Operation) (name : String) (default : Int) : m (Int × Int) :=
  match pair? ((o.param? name).getD (.int default)) with
  | some p => return p
  | none => refuse (.convPair o.id name)

/-- The output has to be counted through, and if it has elements, also the kernel. -/
def checkWindow (c : Window) : m Unit := do
  checkCountable c.outShape
  if Shape.volume c.outShape ≠ 0 then
    checkCountable [c.channels, c.kernelHeight, c.kernelWidth]

def clampBounds (o : Circuit.Operation) : m (Option (Immediate × Immediate)) :=
  match o.param? "clamp" with
  | none | some .null => return none
  | some (.arr [x, y]) =>
    match bound? x, bound? y with
    | some lo, some hi =>
      if hi.value < lo.value then refuse (.clampBounds o.id) else return some (lo, hi)
    | _, _ => refuse (.clampBounds o.id)
  | _ => refuse (.clampBounds o.id)
where
  bound? : Json → Option Immediate
    | .int n => some (.int n)
    | .bool b => some (.flag b)
    | _ => none

end

end TensorAsm.Lowering
