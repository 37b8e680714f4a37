import TensorAsm.Assembly
import TensorAsm.FileTree
import TensorAsm.Machine
import TensorAsm.Pipeline.Options
import TensorAsm.Pipeline.Work
import TensorAsm.Text.Lower
/-!
The passes of a compilation: lowering, the memory table, the replay of the program over its own
table, and the assembly of the texts.
-/

namespace TensorAsm.Pipeline

variable [Platform]

structure Metrics where
  before : Nat
  after : Nat
  custom : List (String × Json)
  messages : List String

def Metrics.empty : Metrics := ⟨0, 0, [], []⟩

def Metrics.customText? (m : Metrics) : Except Fault String :=
  written (Json.obj m.custom).numbers (Json.obj m.custom).shown

structure Session where
  printed : String
  log : List Log.Entry
  metrics : Option Metrics

def Session.start : Session := ⟨"", [], none⟩

abbrev Act := ExceptT Fault (StateM Session)

namespace Act

def say (text : String) : Act Unit := modify fun s => { s with printed := s.printed ++ text }

def line (text : String) : Act Unit := say (text ++ "\n")

def note (entries : List Log.Entry) : Act Unit := modify fun s => { s with log := s.log ++ entries }

def resetMetrics : Act Unit := modify fun s => { s with metrics := some Metrics.empty }

/-- Metrics are only kept by passes that have started to. -/
def updateMetrics (f : Metrics → Metrics) : Act Unit :=
  modify fun s => { s with metrics := s.metrics.map f }

def line? (text : Except Fault String) : Act Unit :=
  match text with
  | .ok text => line text
  | .error f => throw f

def report (r : Report) : Act Unit := do
  say r.text
  match r.stop with
  | some f => throw f
  | none => return

def ofExcept {α : Type} : Except Fault α → Act α
  | .ok a => return a
  | .error f => throw f

def demand {α : Type} : Option α → Act α
  | some a => return a
  | none => throw .noMember

end Act

inductive Action where
  | lowering (layout : Layout) (modulus : Int)
  | memoryLayout
  | replayCheck
  | assemble
  | remark (keepsMetrics : Bool) (messages : List String)

structure Pass where
  name : String
  input : Stage
  output : Stage
  action : Action

namespace Pass

def lowering (layout : Layout) (modulus : Int) : Pass :=
  ⟨"lowering", .graph, .program, .lowering layout modulus⟩

def memoryLayout : Pass := ⟨"memory-layout", .program, .program, .memoryLayout⟩

def replayCheck : Pass := ⟨"replay-check", .program, .program, .replayCheck⟩

def assemble : Pass := ⟨"assemble", .program, .artifact, .assemble⟩

end Pass

def lookupBits (o : Options) : Except Fault Json :=
  let given := o.getD "lookup_bits" (.int Table.defaultBits)
  match given.int? with
  | some n =>
    if 1 ≤ n ∧ n ≤ Table.maxBits then .ok given else .error (.invalid (.lookupBits given))
  | none => .error (.invalid (.lookupBits given))

def number (n : Nat) : Json := .int n

def runLowering (layout : Layout) (modulus : Int) (o : Options) (w : Work) : Act Work := do
  Act.resetMetrics
  let bits ← Act.ofExcept (lookupBits o)
  let c ← Act.demand w.circuit?
  let (result, log) := Program.lower c.name c.graph c.witness layout bits modulus
  Act.note log
  let p ← Act.ofExcept result
  Act.updateMetrics fun m => { m with custom := [
    ("blocks", number p.plan.blocks.length), ("tables", number p.plan.tables.length),
    ("cells", .int p.plan.allocator.totalUsed), ("derived", number p.derived.size)] }
  return .program p

def writeMemory (p : Program) : Act (List Cell) := do
  let (result, log) := MemoryTable.write p
  Act.note log
  Act.ofExcept result

def runMemoryLayout (w : Work) : Act Work := do
  Act.resetMetrics
  let p ← Act.demand w.program?
  let cells ← writeMemory p
  Act.updateMetrics fun m => { m with custom := [
    ("cells", number cells.length), ("nonzero", number (cells.countP (·.value != 0)))] }
  return .program { p with memory := cells }

def memoryOf (p : Program) : Act (List Cell) :=
  if p.memory.isEmpty then writeMemory p else return p.memory

inductive CheckMode where
  | safe | unchecked
  deriving DecidableEq, Repr

def checkMode (o : Options) : Except Fault CheckMode :=
  match (o.getD "check_mode" (.str "safe")).text? with
  | .error f => .error f
  | .ok given =>
    match Text.lower given with
    | "safe" => .ok .safe
    | "unsafe" => .ok .unchecked
    | mode => .error (.invalid (.checkMode mode))

def tolerance (o : Options) : Except Fault Float :=
  match (o.getD "tolerance" (.float 0.0)).toFloat with
  | .error f => .error f
  | .ok x => if x < 0.0 then .error (.invalid (.tolerance x)) else .ok x

/-- The strict machine that replays a program; its outputs may be off by the tolerance. -/
def replaySettings (p : Program) (tolerance : Float) : Machine.Settings :=
  ⟨p.modulus, true, some tolerance, MemoryTable.addresses p.plan.allocator .output⟩

def replay (p : Program) (tolerance : Float) (cells : List Cell) : Machine.State × Option Fault :=
  Machine.run (replaySettings p tolerance) p.instructions
    (.start (MemoryTable.cellMap (cells.map fun c => (c.address, c.value))))

def checkedEntry (s : Machine.State) : Log.Entry :=
  Log.info "zkasm.passes.replay_check"
    ("replay check passed: " ++ natText s.steps ++ " instructions")

def runReplayCheck (o : Options) (w : Work) : Act Work := do
  Act.resetMetrics
  let mode ← Act.ofExcept (checkMode o)
  let slack ← Act.ofExcept (tolerance o)
  if mode = .unchecked then
    Act.updateMetrics fun m =>
      { m with messages := m.messages ++ ["check mode unsafe: replay skipped"] }
    return w
  let p ← Act.demand w.program?
  let cells ← memoryOf p
  match replay p slack cells with
  | (_, some f) => throw f
  | (s, none) =>
    Act.note [Machine.ranEntry s, checkedEntry s]
    Act.updateMetrics fun m =>
      { m with custom := [("replayed", number s.steps), ("tolerance", .float slack)] }
    return w

def descriptorLimit : Int := 0x80000000

/-- Why a value that is no path cannot be read from. A number would name an open file, and none is
open. -/
def sourceFault (given : Json) : Fault :=
  match given with
  | .bool _ => .host .notOpen
  | .int n =>
    if descriptorLimit ≤ n ∨ n < -descriptorLimit then .wrongKind
    else if n < 0 then .invalid .negativeDescriptor
    else .host .notOpen
  | _ => .wrongKind

def skeleton (files : FileTree) (o : Options) : Except Fault (List Skeleton.Segment) :=
  let given := o.getD "skeleton" .null
  if given.truthy then
    match given with
    | .str path =>
      match files.read path with
      | .error f => .error f
      | .ok text => (Skeleton.read Slot.all text).mapError fun d => .compile (.skeleton d)
    | _ => .error (sourceFault given)
  else .ok Skeleton.packaged

def runAssemble (files : FileTree) (o : Options) (w : Work) : Act Work := do
  Act.resetMetrics
  let segments ← Act.ofExcept (skeleton files o)
  let p ← Act.demand w.program?
  let cells ← memoryOf p
  let text ← Act.ofExcept (Assembly.render? p segments)
  Act.updateMetrics fun m => { m with custom := [
    ("lines", number (countBreaks text)), ("slots", number (Skeleton.slots segments).length)] }
  let memory ← Act.ofExcept (MemoryTable.render? cells)
  return .artifact ⟨p.name, text, memory, p.instructionCount, cells.length⟩

def runRemark (keepsMetrics : Bool) (messages : List String) (w : Work) : Act Work := do
  if keepsMetrics then Act.resetMetrics
  Act.updateMetrics fun m => { m with messages := m.messages ++ messages }
  return w

def Action.run (files : FileTree) (o : Options) (w : Work) : Action → Act Work
  | .lowering layout modulus => runLowering layout modulus o w
  | .memoryLayout => runMemoryLayout w
  | .replayCheck => runReplayCheck o w
  | .assemble => runAssemble files o w
  | .remark keepsMetrics messages => runRemark keepsMetrics messages w

end TensorAsm.Pipeline
