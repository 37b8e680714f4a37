import TensorAsm.Circuit.Basic
import TensorAsm.Instruction
import TensorAsm.Quantity
import TensorAsm.Shape
/-!
The instructions for the elements of each kind of operation, once the addresses of its blocks are
known. A step that writes a cell of the compiler's own is marked: its value is recorded.
-/

namespace TensorAsm.Lowering

structure Step where
  instruction : Instruction
  comment : String
  derived : Bool
  deriving DecidableEq, Repr

/-- A tensor, or a copy of it at another scale, as operand of an instruction. -/
structure Operand where
  tensor : Circuit.Tensor
  base : Int
  scale : Int

namespace Operand

def shape (a : Operand) : List Nat := a.tensor.shape

def cell (a : Operand) (i : Nat) : Int := a.base + i

end Operand

def nodeLabel (o : Circuit.Operation) : String := "n" ++ Numeral.write o.id ++ " "

def indexText (index : List Nat) : String :=
  "[" ++ String.intercalate "," (index.map natText) ++ "]"

def elementLabel (o : Circuit.Operation) (index : List Nat) : String :=
  nodeLabel o ++ o.kind ++ " " ++ o.output ++ indexText index

def scaleText (source target : Int) : String :=
  " s" ++ Numeral.write source ++ "->s" ++ Numeral.write target

def requantStep (o : Circuit.Operation) (a : Operand) (target base : Int) (i : Nat) : Step :=
  ⟨.rescale (base + i) (a.cell i) (a.scale - target),
    nodeLabel o ++ "requant " ++ a.tensor.id ++ indexText [i] ++ scaleText a.scale target, true⟩

inductive Arithmetic where
  | add | sub | mul
  deriving DecidableEq, Repr

def Arithmetic.instruction : Arithmetic → Int → Int → Int → Instruction
  | .add => .add
  | .sub => .sub
  | .mul => .mul

/-- Where results go: straight to the output, or to a block from which they are rescaled. -/
structure Target where
  output : Int
  landing : Int
  natural : Int
  scale : Int

namespace Target

def rescales (t : Target) : Bool := t.natural != t.scale

def finishStep (t : Target) (label : String) (i : Nat) (source : Int) : Step :=
  ⟨.rescale (t.output + i) source (t.natural - t.scale), label ++ scaleText t.natural t.scale,
    false⟩

end Target

def binaryStep (o : Circuit.Operation) (op : Arithmetic) (a b : Operand) (shape : List Nat)
    (t : Target) (index : List Nat) : Step :=
  ⟨op.instruction (t.landing + Shape.flat shape index) (a.cell (Shape.flatProject a.shape index))
      (b.cell (Shape.flatProject b.shape index)), elementLabel o index, t.rescales⟩

def unarySteps (o : Circuit.Operation) (negate : Bool) (a : Operand) (zero output : Int)
    (count : Nat) : List Step :=
  (List.range count).map fun (i : Nat) =>
    ⟨if negate then .sub (output + i) zero (a.cell i) else .add (output + i) (a.cell i) zero,
      elementLabel o [i], false⟩

structure Term where
  a : Int
  b : Option Int
  deriving DecidableEq, Repr

def Term.instruction (t : Term) (dest acc : Int) : Instruction :=
  match t.b with
  | none => .add dest acc t.a
  | some b => .mac dest acc t.a b

/-- The blocks of a reduction in `steps` steps: each sum starts from the zero cell, goes through
cells of its own and ends in the landing block. -/
structure Reduction where
  zero : Int
  partials : Int
  steps : Nat
  target : Target

namespace Reduction

def dest (r : Reduction) (i k : Nat) : Int :=
  if k + 1 = r.steps then r.target.landing + i
  else r.partials + i * ((r.steps : Int) - 1) + k

/-- Whether the sum up to a summand stands in a cell of the compiler's own. -/
def keeps (r : Reduction) (k : Nat) : Bool := k + 1 ≠ r.steps || r.target.rescales

def step (r : Reduction) (label : String) (i k : Nat) (acc : Int) (t : Term) : Step :=
  ⟨t.instruction (r.dest i k) acc, label ++ " k=" ++ natText k, r.keeps k⟩

end Reduction

structure Window where
  channels : Nat
  height : Nat
  width : Nat
  filters : Nat
  kernelHeight : Nat
  kernelWidth : Nat
  strideH : Int
  strideW : Int
  padH : Int
  padW : Int

namespace Window

def outHeight (c : Window) : Int := (c.height + 2 * c.padH - c.kernelHeight) / c.strideH + 1

def outWidth (c : Window) : Int := (c.width + 2 * c.padW - c.kernelWidth) / c.strideW + 1

def inputShape (c : Window) : List Nat := [c.channels, c.height, c.width]

def kernelShape (c : Window) : List Nat := [c.filters, c.channels, c.kernelHeight, c.kernelWidth]

def outShape (c : Window) : List Nat := [c.filters, c.outHeight.toNat, c.outWidth.toNat]

end Window

def lookupSteps (o : Circuit.Operation) (a : Operand) (table rows output : Int) (count : Nat) :
    List Step :=
  (List.range count).map fun (i : Nat) =>
    ⟨.lookup (output + i) (a.cell i) table rows, elementLabel o [i], false⟩

def rescaleSteps (o : Circuit.Operation) (a : Operand) (output : Int) (count : Nat) : List Step :=
  (List.range count).map fun (i : Nat) =>
    ⟨.rescale (output + i) (a.cell i) (a.scale - o.scale),
      nodeLabel o ++ "rescale " ++ o.output ++ indexText [i] ++ scaleText a.scale o.scale, false⟩

def clampSteps (o : Circuit.Operation) (a : Operand) (lo hi : Immediate) (output : Int)
    (count : Nat) : List Step :=
  (List.range count).map fun (i : Nat) =>
    ⟨.clamp (output + i) (a.cell i) lo hi,
      nodeLabel o ++ "clamp " ++ o.output ++ indexText [i], false⟩

end TensorAsm.Lowering
