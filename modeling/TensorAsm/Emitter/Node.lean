import TensorAsm.Circuit.Order
import TensorAsm.Emitter.State
/-!
Lowering one operation: its operands are placed, shapes are checked, temporaries and the output
are placed, and the steps are put out one by one. Where a step writes a cell of the compiler's own,
the value that belongs there is computed beside it from the values of the operands.
-/

namespace TensorAsm.Emitter

open Lowering

variable [Platform]

def rescaled (s : Setting) (o : Circuit.Operation) (a : Operand) (target : Int)
    (purpose : String) : Emitter Operand := do
  if a.scale = target then return a
  let n ← size a.tensor
  let base ← scratch o purpose n
  let values ← (List.range n.toNat).mapM fun i => do
    let value ← MonadExcept.ofExcept (a.value? i)
    let value ← MonadExcept.ofExcept (Quantity.rescale? value (a.scale - target))
    emit o [a.scale, target] (requantStep o a.toOperand target base i)
    record s o (base + i) value
    return value
  return ⟨⟨a.tensor, base, target⟩, ⟨a.shape, values.toArray⟩⟩

/-- The steps for an index of the broadcast shape. What is rescaled afterwards is a product. -/
def element (s : Setting) (o : Circuit.Operation) (op : Arithmetic) (a b : Operand)
    (shape : List Nat) (t : Target) (index : List Nat) : Emitter Unit := do
  let i := Shape.flat shape index
  emit o [] (binaryStep o op a.toOperand b.toOperand shape t index)
  if t.rescales then
    let x ← MonadExcept.ofExcept (a.value? (Shape.flatProject a.shape index))
    let y ← MonadExcept.ofExcept (b.value? (Shape.flatProject b.shape index))
    record s o (t.landing + i) (x * y)
    emit o [t.natural, t.scale] (t.finishStep (elementLabel o index) i (t.landing + i))

def lowerBinary (s : Setting) (o : Circuit.Operation) (op : Arithmetic) : Emitter Unit := do
  let [ia, ib] := o.inputs | wrongCount o [2]
  let a ← operand s ia
  let b ← operand s ib
  let declared ← s.tensor o.output
  checkAxes a.shape
  checkAxes b.shape
  let some shape := Shape.broadcast? a.shape b.shape
    | mismatch o [a.shape, b.shape] declared.shape .notBroadcastable
  s.checkOutput o [a.shape, b.shape] shape
  match op with
  | .mul =>
    let output ← output s o
    let natural := a.scale + b.scale
    let landing ← if natural = o.scale then pure output
      else do scratch o "product" (← size declared)
    checkCountable shape
    (Shape.indices shape).forM (element s o .mul a b shape ⟨output, landing, natural, o.scale⟩)
  | _ =>
    let a ← rescaled s o a o.scale "lhs"
    let b ← rescaled s o b o.scale "rhs"
    let output ← output s o
    checkCountable shape
    (Shape.indices shape).forM (element s o op a b shape ⟨output, output, o.scale, o.scale⟩)

def lowerUnary (s : Setting) (o : Circuit.Operation) (negate : Bool) : Emitter Unit := do
  let [ia] := o.inputs | wrongCount o [1]
  let a ← operand s ia
  s.checkOutput o [a.shape] a.shape
  let a ← rescaled s o a o.scale "src"
  let output ← output s o
  (unarySteps o negate a.toOperand s.zero output (← size a.tensor).toNat).forM (emit o [])

structure Term extends Lowering.Term where
  x : Int
  y : Int

def Operand.term (a : Operand) (i : Nat) : Except Fault Term := do
  let x ← a.value? i
  return ⟨⟨a.cell i, none⟩, x, 1⟩

def Operand.times (a : Operand) (i : Nat) (b : Operand) (j : Nat) : Except Fault Term := do
  let x ← a.value? i
  let y ← b.value? j
  return ⟨⟨a.cell i, some (b.cell j)⟩, x, y⟩

def chain (s : Setting) (o : Circuit.Operation) (r : Reduction) (label : String) (i k : Nat)
    (cell sum : Int) : List Term → Emitter Int
  | [] => return cell
  | t :: ts => do
    emit o [] (r.step label i k cell t.toTerm)
    let sum := sum + t.x * t.y
    if r.keeps k then record s o (r.dest i k) sum
    chain s o r label i (k + 1) (r.dest i k) sum ts

def elements (s : Setting) (o : Circuit.Operation) (r : Reduction) (i : Nat) :
    List (List Nat) → List (List Term) → Emitter Unit
  | index :: rest, terms :: more => do
    let label := elementLabel o index
    let cell ← chain s o r label i 0 r.zero 0 terms
    if r.target.rescales then
      emit o [r.target.natural, r.target.scale] (r.target.finishStep label i cell)
    elements s o r (i + 1) rest more
  | _, _ => return

/-- One chain of steps for each element. An output without elements needs none; an element
without summands is refused. -/
def lowerReduction (s : Setting) (o : Circuit.Operation) (shape : List Nat)
    (terms : List (List Term)) (natural : Int) : Emitter Unit := do
  match terms with
  | [] => let _ ← output s o
  | first :: _ =>
    let steps := first.length
    if steps = 0 then
      mismatch o (← o.inputs.mapM fun t => do return (← s.tensor t).shape) shape .emptyReduction
    let output ← output s o
    let count : Int := terms.length
    let partials ← if 1 < steps then scratch o "partial" (count * ((steps : Int) - 1)) else pure 0
    let landing ← if natural = o.scale then pure output else scratch o "acc" count
    elements s o ⟨s.zero, partials, steps, ⟨output, landing, natural, o.scale⟩⟩ 0
      (Shape.indices shape) terms

/-- Rows of `a` by columns of `b`; an operand of one dimension is a single row. -/
def matmulTerms (a b : Operand) (k n : Nat) (shape : List Nat) :
    Except Fault (List (List Term)) :=
  (Shape.indices shape).mapM fun index =>
    let column := index.getLastD 0
    let row := if a.shape.length = 2 then index.headD 0 else 0
    (List.range k).mapM fun r => a.times (row * k + r) b (r * n + column)

def lowerMatmul (s : Setting) (o : Circuit.Operation) : Emitter Unit := do
  let [ia, ib] := o.inputs | wrongCount o [2]
  let a ← operand s ia
  let b ← operand s ib
  let declared ← s.tensor o.output
  let some (k, n, shape) := product? a.shape b.shape
    | mismatch o [a.shape, b.shape] declared.shape .innerDimensions
  s.checkOutput o [a.shape, b.shape] shape
  checkCountable shape
  let terms ← MonadExcept.ofExcept (matmulTerms a b k n shape)
  lowerReduction s o shape terms (a.scale + b.scale)

def lowerDot (s : Setting) (o : Circuit.Operation) : Emitter Unit := do
  let [ia, ib] := o.inputs | wrongCount o [2]
  let a ← operand s ia
  let b ← operand s ib
  if a.shape.length ≠ 1 ∨ a.shape ≠ b.shape then
    mismatch o [a.shape, b.shape] (← s.tensor o.output).shape .unexplained
  let shape ← scalarShape s.toSetting o [a.shape, b.shape]
  let count := (← size a.tensor).toNat
  let terms ← MonadExcept.ofExcept ((List.range count).mapM fun i => a.times i b i)
  lowerReduction s o shape [terms] (a.scale + b.scale)

def lowerSum (s : Setting) (o : Circuit.Operation) : Emitter Unit := do
  let [ia] := o.inputs | wrongCount o [1]
  let a ← operand s ia
  let shape ← scalarShape s.toSetting o [a.shape]
  let count := (← size a.tensor).toNat
  let terms ← MonadExcept.ofExcept ((List.range count).mapM a.term)
  lowerReduction s o shape [terms] a.scale

/-- A tap of the kernel; outside the input it multiplies the zero cell. -/
def tap (c : Window) (zero : Int) (x w : Operand) (o i j ch di dj : Nat) : Except Fault Term :=
  let y : Int := i * c.strideH + di - c.padH
  let z : Int := j * c.strideW + dj - c.padW
  let place := Shape.flat c.kernelShape [o, ch, di, dj]
  if 0 ≤ y ∧ y < c.height ∧ 0 ≤ z ∧ z < c.width then
    x.times (Shape.flat c.inputShape [ch, y.toNat, z.toNat]) w place
  else do
    let v ← w.value? place
    return ⟨⟨zero, some (w.cell place)⟩, 0, v⟩

def windowTerms (c : Window) (zero : Int) (x w : Operand) (bias : Option Operand) :
    List Nat → Except Fault (List Term)
  | [o, i, j] => do
    let first ← bias.toList.mapM (·.term o)
    let taps ← (Shape.indices [c.channels, c.kernelHeight, c.kernelWidth]).mapM fun tapped =>
      tap c zero x w o i j (tapped.getD 0 0) (tapped.getD 1 0) (tapped.getD 2 0)
    return first ++ taps
  | _ => .ok []

def lowerConv (s : Setting) (o : Circuit.Operation) : Emitter Unit := do
  let ix :: iw :: others := o.inputs | wrongCount o [2, 3]
  if 1 < others.length then wrongCount o [2, 3]
  let x ← operand s ix
  let w ← operand s iw
  let declared := (← s.tensor o.output).shape
  if !channelsAgree x.shape w.shape then mismatch o [x.shape, w.shape] declared .channels
  let stride ← convPair o "stride" 1
  let pad ← convPair o "padding" 0
  if stride.1 < 1 ∨ stride.2 < 1 ∨ pad.1 < 0 ∨ pad.2 < 0 then refuse (.convRange o.id)
  let some c := window? x.shape w.shape stride pad
    | mismatch o [x.shape, w.shape] declared .channels
  if c.outHeight < 1 ∨ c.outWidth < 1 then
    mismatch o [x.shape, w.shape] declared .kernelTooLarge
  let natural := x.scale + w.scale
  match others with
  | [] =>
    s.checkOutput o [x.shape, w.shape] c.outShape
    checkWindow c
    let terms ← MonadExcept.ofExcept
      ((Shape.indices c.outShape).mapM (windowTerms c s.zero x w none))
    lowerReduction s o c.outShape terms natural
  | ib :: _ =>
    let b ← operand s ib
    let shapes := [x.shape, w.shape, b.shape]
    if b.shape ≠ [c.filters] then mismatch o shapes declared .bias
    let b ← rescaled s o b natural "bias"
    s.checkOutput o shapes c.outShape
    checkWindow c
    let terms ← MonadExcept.ofExcept
      ((Shape.indices c.outShape).mapM (windowTerms c s.zero x w (some b)))
    lowerReduction s o c.outShape terms natural

def lowerLookup (s : Setting) (o : Circuit.Operation) : Emitter Unit := do
  let [ia] := o.inputs | wrongCount o [1]
  let a ← operand s ia
  s.checkOutput o [a.shape] a.shape
  let spec ← MonadExcept.ofExcept (Table.specFor o a.scale s.lookupBits)
  let table ← table spec
  let output ← output s o
  (lookupSteps o a.toOperand table.address.absolute spec.rows output
    (← size a.tensor).toNat).forM (emit o [])

def lowerRescale (s : Setting) (o : Circuit.Operation) : Emitter Unit := do
  let [ia] := o.inputs | wrongCount o [1]
  let a ← operand s ia
  s.checkOutput o [a.shape] a.shape
  let bounds ← clampBounds o
  let output ← output s o
  let count := (← size a.tensor).toNat
  match bounds with
  | none => (rescaleSteps o a.toOperand output count).forM (emit o [a.scale, o.scale])
  | some (lo, hi) =>
    let source ← rescaled s o a o.scale "shifted"
    (clampSteps o source.toOperand lo hi output count).forM (emit o [])

def lowerKind (s : Setting) (o : Circuit.Operation) : Circuit.Kind → Emitter Unit
  | .add => lowerBinary s o .add
  | .sub => lowerBinary s o .sub
  | .mul => lowerBinary s o .mul
  | .neg => lowerUnary s o true
  | .identity => lowerUnary s o false
  | .matmul => lowerMatmul s o
  | .dot => lowerDot s o
  | .conv => lowerConv s o
  | .sum => lowerSum s o
  | .relu | .leakyRelu | .sigmoid | .tanh | .piecewiseLinear => lowerLookup s o
  | .rescale => lowerRescale s o

def lowerNode (s : Setting) (o : Circuit.Operation) : Emitter Unit := do
  match o.kind? with
  | none => throw (.compile (.unsupported o.kind o.id))
  | some kind =>
    start
    lowerKind s o kind
    finish o

/-- Lowers every operation in order; then outputs that no operation produces get their cells.
Returns the zero cell. -/
def lowerGraph (g : Circuit.Graph) (w : Witness) (lookupBits : Json) (modulus : Int) :
    Emitter Int := do
  let zero ← request (·.control zeroName)
  let s : Setting := ⟨⟨g, lookupBits, zero.absolute⟩, w, modulus⟩
  match g.order with
  | .error d => refuse d
  | .ok order =>
    order.forM (lowerNode s)
    g.outputs.forM fun id => do
      let _ ← tensor (← s.tensor id)
    return zero.absolute

def State.empty (g : Circuit.Graph) (layout : Layout) : State :=
  ⟨Allocator.start g layout, [], [], #[], ∅, []⟩

end TensorAsm.Emitter
