import TensorAsm.Lowering.Step
/-!
All steps of an operation at once, without the values. This is what the emitter puts out one step
after the other.
-/

namespace TensorAsm.Lowering

section

variable (o : Circuit.Operation) (a : Operand) (target base : Int) (t : Target) (label : String)
  (i k : Nat) (source : Int) (r : Reduction) (u : Term)

@[simp] theorem requantStep_instruction :
    (requantStep o a target base i).instruction =
      .rescale (base + i) (a.cell i) (a.scale - target) := rfl

@[simp] theorem requantStep_derived : (requantStep o a target base i).derived = true := rfl

@[simp] theorem Target.finishStep_instruction :
    (t.finishStep label i source).instruction =
      .rescale (t.output + i) source (t.natural - t.scale) := rfl

@[simp] theorem Target.finishStep_derived : (t.finishStep label i source).derived = false := rfl

@[simp] theorem Reduction.step_instruction :
    (r.step label i k source u).instruction = u.instruction (r.dest i k) source := rfl

@[simp] theorem Reduction.step_derived :
    (r.step label i k source u).derived = (k + 1 ≠ r.steps || r.target.rescales) := rfl

end

def requantSteps (o : Circuit.Operation) (a : Operand) (target base : Int) (count : Nat) :
    List Step :=
  (List.range count).map (requantStep o a target base)

namespace Target

/-- Whether the change of scale, if there is one, can be written in a comment. -/
def isWritten (t : Target) : Bool := !t.rescales || [t.natural, t.scale].all Numeral.isWritable

def finish (t : Target) (label : String) (i : Nat) : List Step :=
  if t.rescales then [t.finishStep label i (t.landing + i)] else []

end Target

/-- One instruction for each index of the broadcast shape, and what finishes the element. -/
def binarySteps (o : Circuit.Operation) (op : Arithmetic) (a b : Operand) (shape : List Nat)
    (t : Target) : List Step :=
  (Shape.indices shape).flatMap fun index =>
    binaryStep o op a b shape t index :: t.finish (elementLabel o index) (Shape.flat shape index)

/-- The steps for the first element up to the one that finishes it. -/
def binaryStart (o : Circuit.Operation) (op : Arithmetic) (a b : Operand) (shape : List Nat)
    (t : Target) : List Step :=
  ((Shape.indices shape).take 1).map (binaryStep o op a b shape t)

namespace Reduction

def chain (r : Reduction) (label : String) (i k : Nat) (acc : Int) : List Term → List Step
  | [] => []
  | t :: ts => r.step label i k acc t :: r.chain label i (k + 1) (r.dest i k) ts

def elements (r : Reduction) (o : Circuit.Operation) (i : Nat) :
    List (List Nat) → List (List Term) → List Step
  | index :: rest, terms :: more =>
    let label := elementLabel o index
    r.chain label i 0 r.zero terms ++ r.target.finish label i ++ r.elements o (i + 1) rest more
  | _, _ => []

end Reduction

def reductionSteps (o : Circuit.Operation) (r : Reduction) (shape : List Nat)
    (terms : List (List Term)) : List Step :=
  r.elements o 0 (Shape.indices shape) terms

def reductionStart (o : Circuit.Operation) (r : Reduction) (shape : List Nat)
    (terms : List (List Term)) : List Step :=
  match Shape.indices shape, terms with
  | index :: _, first :: _ => r.chain (elementLabel o index) 0 0 r.zero first
  | _, _ => []

def matmulTerms (a b : Operand) (k n : Nat) (shape : List Nat) : List (List Term) :=
  (Shape.indices shape).map fun index =>
    let column := index.getLastD 0
    let row := if a.shape.length = 2 then index.headD 0 else 0
    (List.range k).map fun r => ⟨a.cell (row * k + r), some (b.cell (r * n + column))⟩

def dotTerms (a b : Operand) (count : Nat) : List (List Term) :=
  [(List.range count).map fun (i : Nat) => ⟨a.cell i, some (b.cell i)⟩]

def sumTerms (a : Operand) (count : Nat) : List (List Term) :=
  [(List.range count).map fun (i : Nat) => ⟨a.cell i, none⟩]

namespace Window

def tap (c : Window) (zero : Int) (x w : Operand) (o i j ch di dj : Nat) : Term :=
  let y : Int := i * c.strideH + di - c.padH
  let z : Int := j * c.strideW + dj - c.padW
  let inside := 0 ≤ y ∧ y < c.height ∧ 0 ≤ z ∧ z < c.width
  ⟨if inside then x.cell (Shape.flat c.inputShape [ch, y.toNat, z.toNat]) else zero,
    some (w.cell (Shape.flat c.kernelShape [o, ch, di, dj]))⟩

def taps (c : Window) (zero : Int) (x w : Operand) (o i j : Nat) : List Term :=
  (Shape.indices [c.channels, c.kernelHeight, c.kernelWidth]).filterMap fun
    | [ch, di, dj] => some (c.tap zero x w o i j ch di dj)
    | _ => none

def terms (c : Window) (zero : Int) (x w : Operand) (bias : Option Operand) : List (List Term) :=
  (Shape.indices c.outShape).filterMap fun
    | [o, i, j] =>
      some ((bias.toList.map fun b => ⟨b.cell o, none⟩) ++ c.taps zero x w o i j)
    | _ => none

end Window

end TensorAsm.Lowering
