import TensorAsm.Fault
import TensorAsm.Shape
/-!
Circuits: tensors with shapes, scales and visibilities, and operations that produce them.
-/

namespace TensorAsm.Circuit

inductive Visibility where
  | pub | priv | fixed
  deriving DecidableEq, Repr

namespace Visibility

def name : Visibility → String
  | .pub => "public"
  | .priv => "private"
  | .fixed => "fixed"

def ofName? : String → Option Visibility
  | "public" => some .pub
  | "private" => some .priv
  | "fixed" => some .fixed
  | _ => none

end Visibility

inductive Category where
  | elementwise | contraction | nonlinearity | requant
  deriving DecidableEq, Repr

def Category.name : Category → String
  | .elementwise => "elementwise"
  | .contraction => "contraction"
  | .nonlinearity => "nonlinearity"
  | .requant => "requant"

inductive Kind where
  | add | sub | mul | neg | identity
  | matmul | dot | conv | sum
  | relu | leakyRelu | sigmoid | tanh | piecewiseLinear
  | rescale
  deriving DecidableEq, Repr

namespace Kind

def all : List Kind := [
  .add, .sub, .mul, .neg, .identity, .matmul, .dot, .conv, .sum, .relu, .leakyRelu, .sigmoid,
  .tanh, .piecewiseLinear, .rescale]

def name : Kind → String
  | .add => "add"
  | .sub => "sub"
  | .mul => "mul"
  | .neg => "neg"
  | .identity => "identity"
  | .matmul => "matmul"
  | .dot => "dot"
  | .conv => "conv"
  | .sum => "sum"
  | .relu => "relu"
  | .leakyRelu => "leaky_relu"
  | .sigmoid => "sigmoid"
  | .tanh => "tanh"
  | .piecewiseLinear => "piecewise_linear"
  | .rescale => "rescale"

def ofName? (s : String) : Option Kind := all.find? (·.name == s)

def category : Kind → Category
  | .add | .sub | .mul | .neg | .identity => .elementwise
  | .matmul | .dot | .conv | .sum => .contraction
  | .relu | .leakyRelu | .sigmoid | .tanh | .piecewiseLinear => .nonlinearity
  | .rescale => .requant

end Kind

structure Tensor where
  id : String
  shape : List Nat
  scale : Int
  visibility : Visibility
  deriving DecidableEq, Repr

namespace Tensor

def size? (t : Tensor) : Except Fault Int :=
  match Shape.wordSize? (t.shape.map Int.ofNat) with
  | some n => .ok n
  | none => .error .overflow

def text (t : Tensor) : String :=
  let dims := if t.shape.isEmpty then "scalar" else String.intercalate "x" (t.shape.map natText)
  "%" ++ t.id ++ "<" ++ dims ++ ", s" ++ Numeral.write t.scale ++ ", " ++ t.visibility.name ++ ">"

def text? (t : Tensor) : Except Fault String :=
  written (t.scale :: t.shape.map Int.ofNat) t.text

end Tensor

/-- A node of the graph. Its kind is kept as written, so that an unknown one is reported when the
node is lowered. -/
structure Operation where
  id : Int
  kind : String
  inputs : List String
  output : String
  scale : Int
  params : List (String × Json)

namespace Operation

def kind? (o : Operation) : Option Kind := Kind.ofName? o.kind

def param? (o : Operation) (key : String) : Option Json := Ordered.get? key o.params

def text (o : Operation) : String :=
  "n" ++ Numeral.write o.id ++ ": %" ++ o.output ++ " = " ++ o.kind ++ "("
    ++ String.intercalate ", " (o.inputs.map ("%" ++ ·)) ++ ") [s" ++ Numeral.write o.scale ++ "]"

def text? (o : Operation) : Except Fault String := written [o.id, o.scale] o.text

end Operation

structure Graph where
  tensors : List Tensor
  operations : List Operation
  inputs : List String
  outputs : List String

def sortedNames (names : List String) : List String :=
  names.eraseDups.mergeSort Text.le

namespace Graph

def tensor? (g : Graph) (id : String) : Option Tensor := g.tensors.find? (·.id == id)

def producer? (g : Graph) (id : String) : Option Operation :=
  g.operations.reverse.find? (·.output == id)

/-- The tensors that an operation reads or writes or that are declared outputs, sorted. -/
def required (g : Graph) : List String :=
  sortedNames (g.outputs ++ g.operations.flatMap fun o => o.inputs ++ [o.output])

end Graph

end TensorAsm.Circuit
