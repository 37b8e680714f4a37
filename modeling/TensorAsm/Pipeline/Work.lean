import TensorAsm.Circuit.Order
import TensorAsm.MemoryTable
/-!
What a compilation works on, from the circuit to the finished texts, with its size and its printed
form. A value can stand where another stage was announced; it then lacks what is asked of it.
-/

namespace TensorAsm

variable [Platform]

structure Circuit.Loaded where
  name : String
  graph : Circuit.Graph
  witness : Witness

structure Artifact where
  name : String
  program : String
  memory : String
  instructions : Nat
  cells : Nat
  deriving DecidableEq, Repr

namespace Pipeline

inductive Stage where
  | graph | program | artifact
  deriving DecidableEq, Repr

namespace Stage

def all : List Stage := [.graph, .program, .artifact]

def name : Stage → String
  | .graph => "graph"
  | .program => "program"
  | .artifact => "artifact"

def ofName? (s : String) : Option Stage := all.find? (·.name == s)

end Stage

inductive Work where
  | circuit (c : Circuit.Loaded)
  | program (p : Program)
  | artifact (a : Artifact)

def countBreaks (s : String) : Nat := s.toList.count '\n'

namespace Work

def circuit? : Work → Option Circuit.Loaded
  | .circuit c => some c
  | .program p => some ⟨p.name, p.graph, p.witness⟩
  | .artifact _ => none

def program? : Work → Option Program
  | .program p => some p
  | _ => none

def artifact? : Work → Option Artifact
  | .artifact a => some a
  | _ => none

def instructionCount? : Work → Option Nat
  | .circuit _ => none
  | .program p => some p.instructionCount
  | .artifact a => some a.instructions

def size? (w : Work) : Stage → Option Nat
  | .graph => w.circuit?.map (·.graph.operations.length)
  | .program => w.instructionCount?
  | .artifact => w.artifact?.map fun a => countBreaks a.program

end Work

/-- A report as far as it could be written, and what ended it. -/
structure Report where
  text : String
  stop : Option Fault

namespace Report

def splitLines : List (Except Fault String) → List String × Option Fault
  | [] => ([], none)
  | .error f :: _ => ([], some f)
  | .ok line :: rest =>
    let (lines, stop) := splitLines rest
    (line :: lines, stop)

def ofLines (lines : List (Except Fault String)) : Report :=
  let (done, stop) := splitLines lines
  ⟨String.join (done.map (· ++ "\n")), stop⟩

def listText (names : List String) : String :=
  if names.isEmpty ∨ names = [""] then "-" else String.intercalate ", " names

def graphHeader (c : Circuit.Loaded) : List String :=
  ["=== Graph: " ++ c.name ++ " (" ++ natText c.graph.tensors.length ++ " tensors, "
      ++ natText c.graph.operations.length ++ " ops) ===",
    "inputs:  " ++ listText c.graph.inputs,
    "outputs: " ++ listText c.graph.outputs]

def sources (g : Circuit.Graph) : List Circuit.Tensor :=
  (((g.tensors.map (·.id)).mergeSort Text.le).filter fun t => (g.producer? t).isNone).filterMap
    g.tensor?

def graph (c : Circuit.Loaded) : Report :=
  let order := match c.graph.order with
    | .ok order => order
    | .error _ => []
  ofLines (
    (graphHeader c).map .ok
    ++ (sources c.graph).map (fun t => t.text?.map ("  " ++ ·))
    ++ order.map (fun o => o.text?.map ("  " ++ ·))
    ++ [.ok ""])

def cellLine (c : Cell) : Except Fault String :=
  written [c.address, c.value]
    ("  [" ++ Text.padStart 8 (Numeral.write c.address) ++ "] " ++ Numeral.write c.value)

def moreLine (n : Int) : Except Fault String := written [n] ("  ... " ++ Numeral.write n ++ " more")

/-- The first cells of a table; a negative limit counts from its end. -/
def memoryLines (cells : List Cell) (limit : Int) : List (Except Fault String) :=
  let count : Int := cells.length
  let shown := if 0 ≤ limit then limit else max 0 (count + limit)
  [.ok ("=== Memory (" ++ Numeral.write count ++ " cells) ===")]
    ++ (cells.take (min shown count).toNat).map cellLine
    ++ (if limit < count then [moreLine (count - limit)] else [])

def memory (cells : List Cell) (limit : Int) : Report := ofLines (memoryLines cells limit)

def memoryLimit : Int := 32

def programHeader (p : Program) : Except Fault String :=
  let cells := p.plan.allocator.totalUsed
  written [cells] ("=== Program: " ++ p.name ++ " (" ++ natText p.instructionCount
    ++ " instructions, " ++ Numeral.write cells ++ " cells) ===")

def regionLine (a : Allocator) (r : Region) : Except Fault String :=
  written [a.layout.base r, a.used r]
    ("  " ++ Text.padEnd 12 r.name ++ " base=" ++ Text.padEnd 8 (Numeral.write (a.layout.base r))
      ++ " used=" ++ Numeral.write (a.used r))

def blockLines (b : Lowering.Block) : List (Except Fault String) :=
  b.op.text?.map ("\n" ++ ·)
    :: b.steps.map fun s => (s.instruction.form.render? s.comment).map ("  " ++ ·)

def program (p : Program) : Report :=
  let a := p.plan.allocator
  ofLines (
    programHeader p :: Region.all.map (regionLine a)
    ++ p.plan.tables.map (fun t => t.text?.map ("  table " ++ ·))
    ++ p.plan.blocks.flatMap blockLines
    ++ (if p.memory.isEmpty then [] else .ok "" :: memoryLines p.memory memoryLimit)
    ++ [.ok ""])

def artifact (a : Artifact) : Report :=
  ⟨"=== Artifact: " ++ a.name ++ " (" ++ natText a.instructions ++ " instructions, "
    ++ natText a.cells ++ " cells) ===\n" ++ a.program, none⟩

def work? (w : Work) : Stage → Option Report
  | .graph => w.circuit?.map graph
  | .program => w.program?.map program
  | .artifact => w.artifact?.map artifact

end Report

end Pipeline

end TensorAsm
