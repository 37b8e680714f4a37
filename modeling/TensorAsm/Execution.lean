import TensorAsm.Machine
import TensorAsm.MemoryTable
import TensorAsm.ProgramText
/-!
Running program text over the text of a memory table.
-/

namespace TensorAsm.Execution

variable [Platform]

structure Loaded where
  program : ProgramText
  memory : Machine.Memory

def load (program memory : String) : Except Fault Loaded := do
  let text ← ProgramText.read program
  let rows ← MemoryTable.readRows memory
  return ⟨text, MemoryTable.cellMap rows⟩

def lenient (modulus : Int) : Machine.Settings := ⟨modulus, false, some 0.0, []⟩

def execute (program memory : String) (modulus : Int) : Except Fault Machine.State := do
  let loaded ← load program memory
  match Machine.run (lenient modulus) loaded.program.instructions (.start loaded.memory) with
  | (s, none) => return s
  | (_, some f) => throw f

end TensorAsm.Execution
