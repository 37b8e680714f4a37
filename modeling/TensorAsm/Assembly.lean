import TensorAsm.Program
import TensorAsm.Skeleton
/-!
The text of a program: a skeleton with the lines of each slot put in.
-/

namespace TensorAsm.Assembly

def layoutLines (p : Program) : List String :=
  let a := p.plan.allocator
  [".program " ++ p.name, ".capacity " ++ Numeral.write a.layout.capacity]
    ++ Region.all.map (fun r =>
      ".namespace " ++ Text.padEnd 12 r.name ++ " "
        ++ Text.padStart 8 (Numeral.write (a.layout.base r)) ++ " "
        ++ Text.padStart 8 (Numeral.write (a.layout.size r)) ++ " "
        ++ Text.padStart 8 (Numeral.write (a.used r)))
    ++ [".zero " ++ Numeral.write p.plan.zero]

def isPublic (g : Circuit.Graph) (b : Allocation) : Bool :=
  b.kind == .tensor && (g.tensor? b.name).any (·.visibility == .pub)

def publicLines (p : Program) : List String :=
  (p.plan.allocator.sorted.filter (isPublic p.graph)).map fun b =>
    ".public " ++ Numeral.write b.address.absolute ++ " " ++ Numeral.write b.size ++ " " ++ b.name

def tableLines (p : Program) : List String :=
  p.plan.tables.map fun t =>
    ".table " ++ Numeral.write t.address.absolute ++ " " ++ Numeral.write t.spec.rows ++ " "
      ++ t.spec.describe

def outputLine? (p : Program) (id : String) : Option String := do
  let t ← p.graph.tensor? id
  let b ← p.plan.allocator.bound? .tensor id
  return ".output " ++ Numeral.write b.address.absolute ++ " " ++ Numeral.write b.size ++ " " ++ id
    ++ " s" ++ Numeral.write t.scale

def outputLines (p : Program) : List String := p.graph.outputs.filterMap (outputLine? p)

def indent : String := "    "

def blockLines (b : Lowering.Block) : List String :=
  (indent ++ "; " ++ nodeText b.op.id ++ ": " ++ b.op.output ++ " = " ++ b.op.kind ++ "("
      ++ String.intercalate ", " b.op.inputs ++ ")")
    :: b.steps.map fun s => indent ++ s.instruction.render s.comment

def bodyLines (p : Program) : List String := p.plan.blocks.flatMap blockLines

def slotLines (p : Program) : Slot → List String
  | .layout => layoutLines p
  | .pub => publicLines p
  | .tables => tableLines p
  | .outputs => outputLines p
  | .body => bodyLines p

def segmentLines (p : Program) : Skeleton.Segment → List String
  | .line text => [text]
  | .slot s => slotLines p s

def render (p : Program) (skeleton : List Skeleton.Segment) : String :=
  String.intercalate "\n" (skeleton.flatMap (segmentLines p)) ++ "\n"

def layoutNumbers (p : Program) : List Int :=
  let a := p.plan.allocator
  a.layout.capacity :: p.plan.zero
    :: Region.all.flatMap fun r => [a.layout.base r, a.layout.size r, a.used r]

def outputNumbers (p : Program) (id : String) : List Int :=
  (p.graph.tensor? id).toList.map (·.scale)
    ++ (p.plan.allocator.bound? .tensor id).toList.flatMap fun b => [b.address.absolute, b.size]

def slotNumbers (p : Program) : Slot → List Int
  | .layout => layoutNumbers p
  | .pub => (p.plan.allocator.sorted.filter (isPublic p.graph)).flatMap fun b =>
    [b.address.absolute, b.size]
  | .tables => p.plan.tables.flatMap fun t => t.address.absolute :: t.spec.rows :: t.spec.numbers
  | .outputs => p.graph.outputs.flatMap (outputNumbers p)
  | .body => p.plan.blocks.flatMap fun b =>
    b.op.id :: b.steps.flatMap fun s => s.instruction.form.numbers

def segmentNumbers (p : Program) : Skeleton.Segment → List Int
  | .line _ => []
  | .slot s => slotNumbers p s

/-- The text of a program, unless it has an integer that is not written. -/
def render? (p : Program) (skeleton : List Skeleton.Segment) : Except Fault String :=
  written (skeleton.flatMap (segmentNumbers p)) (render p skeleton)

end TensorAsm.Assembly
