import TensorAsm.Program
import TensorAsm.Proofs.OutlineSteps
/-!
The outline of a lowering: blocks, tables and steps of the whole circuit, made without a look at the
witness, with a journal of all this. Going through the journal with a witness gives the derived
values.
-/

namespace TensorAsm

variable [Platform]

def Instruction.exact (cell : Int → Int) : Instruction → Except Fault Int
  | .add _ a b => .ok (cell a + cell b)
  | .sub _ a b => .ok (cell a - cell b)
  | .mul _ a b => .ok (cell a * cell b)
  | .mac _ c a b => .ok (cell c + cell a * cell b)
  | .rescale _ a shift => Quantity.rescale? (cell a) shift
  | .clamp _ a lo hi => .ok (min (max (cell a) lo.value) hi.value)
  | .lookup _ _ _ _ | .halt => .ok 0

namespace Lowering

/-- What happens in a lowering. A step whose comment is not written has its value computed and is
then dropped. -/
inductive Event where
  | allocated (b : Allocation)
  | folded (t : FoldedTable)
  | emitted (node : Int) (steps : List Step)
  | dropped (s : Step)
  | lowered (b : Block)

def Event.entry? : Event → Option Log.Entry
  | .allocated b => some (allocatedEntry b)
  | .folded t => some (foldedEntry t)
  | .emitted _ _ | .dropped _ => none
  | .lowered b => some (loweredEntry b)

structure Draft where
  allocator : Allocator
  tables : List FoldedTable
  blocks : List Block
  current : List Step
  journal : List Event

abbrev Emit := Stateful Draft

namespace Emit

def note (e : Event) : Emit Unit := modify fun d => { d with journal := d.journal ++ [e] }

def request (ask : Allocator → Allocator.Reply) : Emit Address := do
  let d ← get
  let (reply, a) := ask d.allocator
  set { d with
    allocator := a
    journal := d.journal ++
      (a.allocations.drop d.allocator.allocations.length).map Event.allocated }
  match reply with
  | .ok address => return address
  | .error f => throw f

def tensor (t : Circuit.Tensor) : Emit Address := request (·.allocate t)

def scratch (o : Circuit.Operation) (purpose : String) (size : Int) : Emit Int := do
  checkWritten [o.id]
  let address ← request
    (·.scratch ("n" ++ Numeral.write o.id ++ "." ++ purpose) size .intermediate .scratch)
  return address.absolute

def table (s : Table.Spec) : Emit FoldedTable := do
  match (← get).tables.find? (·.spec.same s) with
  | some t => return t
  | none =>
    let rows ← MonadExcept.ofExcept (Table.fold s)
    let address ← request
      (·.scratch ("table." ++ s.function) (2 * (rows.length : Int)) .fixed .table)
    let t : FoldedTable := ⟨s, address, rows.toArray⟩
    modify fun d => { d with tables := d.tables ++ [t] }
    checkWritten s.numbers
    note (.folded t)
    return t

def steps (o : Circuit.Operation) (steps : List Step) : Emit Unit := do
  modify fun d => { d with current := d.current ++ steps }
  note (.emitted o.id steps)

/-- Steps with the node and the given integers in their comments. -/
def commented (o : Circuit.Operation) (numbers : List Int) (steps : List Step) : Emit Unit := do
  if !steps.isEmpty then checkWritten (o.id :: numbers)
  Emit.steps o steps

def start : Emit Unit := modify fun d => { d with current := [] }

def finish (o : Circuit.Operation) : Emit Unit := do
  let b : Block := ⟨o, (← get).current⟩
  modify fun d => { d with blocks := d.blocks ++ [b] }
  note (.lowered b)

end Emit

namespace Setting

def operand (s : Setting) (id : String) : Emit Operand := do
  let t ← s.tensor id
  let address ← Emit.tensor t
  return ⟨t, address.absolute, t.scale⟩

def output (s : Setting) (o : Circuit.Operation) : Emit Int := do
  let address ← Emit.tensor (← s.tensor o.output)
  return address.absolute

end Setting

/-- The steps of a first element, behind which the change of scale cannot be written: there the
lowering ends, unless there is no element. -/
def breakOff (o : Circuit.Operation) (t : Target) (start : List Step) : Emit Unit := do
  Emit.commented o [] start
  if !start.isEmpty then checkWritten [t.natural, t.scale]

def rescaled (o : Circuit.Operation) (a : Operand) (target : Int) (purpose : String) :
    Emit Operand := do
  if a.scale = target then return a
  let n ← size a.tensor
  let base ← Emit.scratch o purpose n
  let steps := requantSteps o a target base n.toNat
  match steps with
  | [] => return ⟨a.tensor, base, target⟩
  | first :: _ =>
    checkAxes a.shape
    if !([a.scale, target].all Numeral.isWritable) then Emit.note (.dropped first)
    Emit.commented o [a.scale, target] steps
    return ⟨a.tensor, base, target⟩

def lowerBinary (s : Setting) (o : Circuit.Operation) (op : Arithmetic) : Emit Unit := do
  let [ia, ib] := o.inputs | wrongCount o [2]
  let a ← s.operand ia
  let b ← s.operand ib
  let declared ← s.tensor o.output
  checkAxes a.shape
  checkAxes b.shape
  let some shape := Shape.broadcast? a.shape b.shape
    | mismatch o [a.shape, b.shape] declared.shape .notBroadcastable
  s.checkOutput o [a.shape, b.shape] shape
  match op with
  | .mul =>
    let output ← s.output o
    let natural := a.scale + b.scale
    let landing ← if natural = o.scale then pure output
      else do Emit.scratch o "product" (← size declared)
    checkCountable shape
    let t : Target := ⟨output, landing, natural, o.scale⟩
    if t.isWritten then Emit.commented o [] (binarySteps o .mul a b shape t)
    else breakOff o t (binaryStart o .mul a b shape t)
  | _ =>
    let a ← rescaled o a o.scale "lhs"
    let b ← rescaled o b o.scale "rhs"
    let output ← s.output o
    checkCountable shape
    Emit.commented o [] (binarySteps o op a b shape ⟨output, output, o.scale, o.scale⟩)

def lowerUnary (s : Setting) (o : Circuit.Operation) (negate : Bool) : Emit Unit := do
  let [ia] := o.inputs | wrongCount o [1]
  let a ← s.operand ia
  s.checkOutput o [a.shape] a.shape
  let a ← rescaled o a o.scale "src"
  let output ← s.output o
  Emit.commented o [] (unarySteps o negate a s.zero output (← size a.tensor).toNat)

def lowerReduction (s : Setting) (o : Circuit.Operation) (shape : List Nat)
    (terms : List (List Term)) (natural : Int) : Emit Unit := do
  match terms with
  | [] => let _ ← s.output o
  | first :: _ =>
    let steps := first.length
    if steps = 0 then
      mismatch o (← o.inputs.mapM fun t => do return (← s.tensor t).shape) shape .emptyReduction
    let output ← s.output o
    let count : Int := terms.length
    let partials ← if 1 < steps then Emit.scratch o "partial" (count * ((steps : Int) - 1))
      else pure 0
    let landing ← if natural = o.scale then pure output else Emit.scratch o "acc" count
    let r : Reduction := ⟨s.zero, partials, steps, ⟨output, landing, natural, o.scale⟩⟩
    if r.target.isWritten then Emit.commented o [] (reductionSteps o r shape terms)
    else breakOff o r.target (reductionStart o r shape terms)

def lowerMatmul (s : Setting) (o : Circuit.Operation) : Emit Unit := do
  let [ia, ib] := o.inputs | wrongCount o [2]
  let a ← s.operand ia
  let b ← s.operand ib
  let declared ← s.tensor o.output
  let some (k, n, shape) := product? a.shape b.shape
    | mismatch o [a.shape, b.shape] declared.shape .innerDimensions
  s.checkOutput o [a.shape, b.shape] shape
  checkCountable shape
  lowerReduction s o shape (matmulTerms a b k n shape) (a.scale + b.scale)

def lowerDot (s : Setting) (o : Circuit.Operation) : Emit Unit := do
  let [ia, ib] := o.inputs | wrongCount o [2]
  let a ← s.operand ia
  let b ← s.operand ib
  if a.shape.length ≠ 1 ∨ a.shape ≠ b.shape then
    mismatch o [a.shape, b.shape] (← s.tensor o.output).shape .unexplained
  let shape ← scalarShape s o [a.shape, b.shape]
  lowerReduction s o shape (dotTerms a b (← size a.tensor).toNat) (a.scale + b.scale)

def lowerSum (s : Setting) (o : Circuit.Operation) : Emit Unit := do
  let [ia] := o.inputs | wrongCount o [1]
  let a ← s.operand ia
  let shape ← scalarShape s o [a.shape]
  let count := (← size a.tensor).toNat
  if 0 < count then checkAxes a.shape
  lowerReduction s o shape (sumTerms a count) a.scale

def lowerConv (s : Setting) (o : Circuit.Operation) : Emit Unit := do
  let ix :: iw :: others := o.inputs | wrongCount o [2, 3]
  if 1 < others.length then wrongCount o [2, 3]
  let x ← s.operand ix
  let w ← s.operand iw
  let declared := (← s.tensor o.output).shape
  if !channelsAgree x.shape w.shape then mismatch o [x.shape, w.shape] declared .channels
  let stride ← convPair o "stride" 1
  let pad ← convPair o "padding" 0
  if stride.1 < 1 ∨ stride.2 < 1 ∨ pad.1 < 0 ∨ pad.2 < 0 then refuse (.convRange o.id)
  let some c := window? x.shape w.shape stride pad
    | mismatch o [x.shape, w.shape] declared .channels
  if c.outHeight < 1 ∨ c.outWidth < 1 then
    mismatch o [x.shape, w.shape] declared .kernelTooLarge
  let natural := x.scale + w.scale
  match others with
  | [] =>
    s.checkOutput o [x.shape, w.shape] c.outShape
    checkWindow c
    lowerReduction s o c.outShape (c.terms s.zero x w none) natural
  | ib :: _ =>
    let b ← s.operand ib
    let shapes := [x.shape, w.shape, b.shape]
    if b.shape ≠ [c.filters] then mismatch o shapes declared .bias
    let b ← rescaled o b natural "bias"
    s.checkOutput o shapes c.outShape
    checkWindow c
    lowerReduction s o c.outShape (c.terms s.zero x w (some b)) natural

def lowerLookup (s : Setting) (o : Circuit.Operation) : Emit Unit := do
  let [ia] := o.inputs | wrongCount o [1]
  let a ← s.operand ia
  s.checkOutput o [a.shape] a.shape
  let spec ← MonadExcept.ofExcept (Table.specFor o a.scale s.lookupBits)
  let table ← Emit.table spec
  let output ← s.output o
  Emit.commented o []
    (lookupSteps o a table.address.absolute spec.rows output (← size a.tensor).toNat)

def lowerRescale (s : Setting) (o : Circuit.Operation) : Emit Unit := do
  let [ia] := o.inputs | wrongCount o [1]
  let a ← s.operand ia
  s.checkOutput o [a.shape] a.shape
  let bounds ← clampBounds o
  let output ← s.output o
  let count := (← size a.tensor).toNat
  match bounds with
  | none => Emit.commented o [a.scale, o.scale] (rescaleSteps o a output count)
  | some (lo, hi) =>
    let source ← rescaled o a o.scale "shifted"
    Emit.commented o [] (clampSteps o source lo hi output count)

def lowerKind (s : Setting) (o : Circuit.Operation) : Circuit.Kind → Emit Unit
  | .add => lowerBinary s o .add
  | .sub => lowerBinary s o .sub
  | .mul => lowerBinary s o .mul
  | .neg => lowerUnary s o true
  | .identity => lowerUnary s o false
  | .matmul => lowerMatmul s o
  | .dot => lowerDot s o
  | .conv => lowerConv s o
  | .sum => lowerSum s o
  | .relu | .leakyRelu | .sigmoid | .tanh | .piecewiseLinear => lowerLookup s o
  | .rescale => lowerRescale s o

def lowerNode (s : Setting) (o : Circuit.Operation) : Emit Unit := do
  match o.kind? with
  | none => throw (.compile (.unsupported o.kind o.id))
  | some kind =>
    Emit.start
    lowerKind s o kind
    Emit.finish o

/-- Lowers every operation in order; then outputs that no operation produces get their cells. -/
def lowerGraph (g : Circuit.Graph) (lookupBits : Json) : Emit Int := do
  let zero ← Emit.request (·.control zeroName)
  let s : Setting := ⟨g, lookupBits, zero.absolute⟩
  match g.order with
  | .error d => refuse d
  | .ok order =>
    order.forM (lowerNode s)
    g.outputs.forM fun id => do
      let _ ← Emit.tensor (← s.tensor id)
    return zero.absolute

def emptyDraft (g : Circuit.Graph) (layout : Layout) : Draft :=
  ⟨Allocator.start g layout, [], [], [], []⟩

/-- The plan, or why there is none, with the journal up to there. -/
def plan (g : Circuit.Graph) (layout : Layout) (lookupBits : Json) :
    Except Fault Plan × List Event :=
  let (zero, d) := (lowerGraph g lookupBits).run (emptyDraft g layout)
  (zero.map fun z => ⟨d.allocator, d.blocks, d.tables, z⟩, d.journal)

end Lowering

namespace Program

/-- The values known so far: those of the witness, by address, and those derived. -/
structure Values where
  known : Std.TreeMap Int Int
  derived : Std.TreeMap Int Int

namespace Values

def cell (v : Values) (address : Int) : Int := v.known.getD address 0

def record (v : Values) (address value : Int) : Values :=
  ⟨v.known.insert address value, v.derived.insert address value⟩

def step (m node : Int) (v : Values) (s : Lowering.Step) : Except Fault Values :=
  match s.derived, s.instruction.dest? with
  | true, some dest =>
    match s.instruction.exact v.cell with
    | .error f => .error f
    | .ok value =>
      if Field.Fits m value then .ok (v.record dest value)
      else .error (.compile (.witness (.derivedUnfit node (Emitter.bitLength value) dest)))
  | _, _ => .ok v

def place (v : Values) (base : Int) (values : Array Int) : Values :=
  { v with
    known := (values.foldl (fun (p : Std.TreeMap Int Int × Int) x =>
      (p.1.insert p.2 x, p.2 + 1)) (v.known, base)).1 }

def advance (m : Int) (w : Witness) (v : Values) : Lowering.Event → Except Fault Values
  | .allocated b =>
    match b.kind, w.values? b.name with
    | .tensor, some values => .ok (v.place b.address.absolute values)
    | _, _ => .ok v
  | .emitted node steps => steps.foldlM (step m node) v
  | .dropped s => (s.instruction.exact v.cell).map fun _ => v
  | _ => .ok v

/-- Goes through a journal. Returns the values, the events that went well and what stopped it. -/
def follow (m : Int) (w : Witness) (v : Values) :
    List Lowering.Event → Values × List Lowering.Event × Option Fault
  | [] => (v, [], none)
  | e :: rest =>
    match v.advance m w e with
    | .error f => (v, [], some f)
    | .ok next =>
      let (last, done, stop) := follow m w next rest
      (last, e :: done, stop)

end Values

/-- The program of an outline and a witness. Of two faults the one that comes first in the journal
is reported. -/
def outlined (name : String) (g : Circuit.Graph) (w : Witness) (layout : Layout) (lookupBits : Json)
    (m : Int) : Except Fault Program × List Log.Entry :=
  let (plan, journal) := Lowering.plan g layout lookupBits
  let (values, done, stop) := Values.follow m w ⟨∅, ∅⟩ journal
  let log := done.filterMap Lowering.Event.entry?
  match stop, plan with
  | some f, _ => (.error f, log)
  | none, .error f => (.error f, log)
  | none, .ok p => (.ok ⟨name, g, w, p, values.derived, m, []⟩, log ++ [emittedEntry p])

end Program

end TensorAsm
