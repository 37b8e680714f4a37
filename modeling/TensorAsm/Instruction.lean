import TensorAsm.Fault
/-!
The instruction set of the machine, and the written form of an instruction: a mnemonic, the cell
written, the cells read and the immediates.
-/

namespace TensorAsm

inductive Opcode where
  | add | sub | mul | mac | rescale | clamp | lookup | halt
  deriving DecidableEq, Repr

namespace Opcode

def all : List Opcode := [.add, .sub, .mul, .mac, .rescale, .clamp, .lookup, .halt]

def mnemonic : Opcode → String
  | .add => "add"
  | .sub => "sub"
  | .mul => "mul"
  | .mac => "mac"
  | .rescale => "rescale"
  | .clamp => "clamp"
  | .lookup => "lookup"
  | .halt => "halt"

def ofMnemonic? (s : String) : Option Opcode := all.find? (·.mnemonic == s)

end Opcode

/-- A number in an instruction; a bound may have been given as a truth value. -/
inductive Immediate where
  | int (n : Int)
  | flag (b : Bool)
  deriving DecidableEq, Repr

namespace Immediate

def value : Immediate → Int
  | .int n => n
  | .flag b => if b then 1 else 0

def text : Immediate → String
  | .int n => Numeral.write n
  | .flag b => Json.boolText b

end Immediate

inductive Instruction where
  | add (dest a b : Int)
  | sub (dest a b : Int)
  | mul (dest a b : Int)
  | mac (dest acc a b : Int)
  | rescale (dest a shift : Int)
  | clamp (dest a : Int) (lo hi : Immediate)
  | lookup (dest a table rows : Int)
  | halt
  deriving DecidableEq, Repr

namespace Instruction

structure Form where
  opcode : Opcode
  dest : Option Int
  operands : List Int
  immediates : List Immediate
  deriving DecidableEq, Repr

def form : Instruction → Form
  | .add d a b => ⟨.add, some d, [a, b], []⟩
  | .sub d a b => ⟨.sub, some d, [a, b], []⟩
  | .mul d a b => ⟨.mul, some d, [a, b], []⟩
  | .mac d c a b => ⟨.mac, some d, [c, a, b], []⟩
  | .rescale d a s => ⟨.rescale, some d, [a], [.int s]⟩
  | .clamp d a lo hi => ⟨.clamp, some d, [a], [lo, hi]⟩
  | .lookup d a t n => ⟨.lookup, some d, [a, t], [.int n]⟩
  | .halt => ⟨.halt, none, [], []⟩

/-- The instruction of a mnemonic with the cells and the integers behind it, the cell written
first; `none` when there are too many or too few. -/
def ofArguments? : Opcode → List Int → List Int → Option Instruction
  | .add, [d, a, b], [] => some (.add d a b)
  | .sub, [d, a, b], [] => some (.sub d a b)
  | .mul, [d, a, b], [] => some (.mul d a b)
  | .mac, [d, c, a, b], [] => some (.mac d c a b)
  | .rescale, [d, a], [s] => some (.rescale d a s)
  | .clamp, [d, a], [lo, hi] => some (.clamp d a (.int lo) (.int hi))
  | .lookup, [d, a, t], [n] => some (.lookup d a t n)
  | .halt, [], [] => some .halt
  | _, _, _ => none

def dest? (i : Instruction) : Option Int := i.form.dest

def reads (i : Instruction) : List Int := i.form.operands

def cellText (a : Int) : String := "[" ++ Numeral.write a ++ "]"

def Form.arguments (f : Form) : List String :=
  (f.dest.toList ++ f.operands).map cellText ++ f.immediates.map fun v => "#" ++ v.text

/-- The line of an instruction: the mnemonic in eight columns, its arguments, and from column 45
on the comment if there is one. -/
def Form.render (f : Form) (comment : String) : String :=
  let line :=
    if f.arguments.isEmpty then f.opcode.mnemonic
    else Text.padEnd 8 f.opcode.mnemonic ++ " " ++ String.intercalate ", " f.arguments
  if comment.isEmpty then line else Text.padEnd 44 line ++ " ; " ++ comment

def Form.numbers (f : Form) : List Int :=
  f.dest.toList ++ f.operands ++ f.immediates.map Immediate.value

def Form.render? (f : Form) (comment : String) : Except Fault String :=
  written f.numbers (f.render comment)

def render (i : Instruction) (comment : String) : String := i.form.render comment

end Instruction

end TensorAsm
