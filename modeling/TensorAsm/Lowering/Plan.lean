import TensorAsm.Allocator
import TensorAsm.Log
import TensorAsm.Lowering.Step
import TensorAsm.Table.Basic
/-!
What comes of a lowering: the blocks of all operations, the tables and the allocated cells.
-/

namespace TensorAsm.Lowering

structure FoldedTable where
  spec : Table.Spec
  address : Address
  rows : Array Table.Row

def FoldedTable.text? (t : FoldedTable) : Except Fault String :=
  written (t.spec.numbers ++ t.address.numbers) (t.spec.describe ++ " @ " ++ t.address.text)

structure Block where
  op : Circuit.Operation
  steps : List Step

structure Plan where
  allocator : Allocator
  blocks : List Block
  tables : List FoldedTable
  zero : Int

def Plan.steps (p : Plan) : List Step := p.blocks.flatMap (·.steps)

def Plan.instructions (p : Plan) : List Instruction := p.steps.map (·.instruction)

def zeroName : String := "zero"

def allocatedEntry (b : Allocation) : Log.Entry :=
  Log.debug "zkasm.allocator" <|
    "allocated " ++ b.kind.name ++ " " ++ b.name ++ ": " ++ Numeral.write b.size ++ " cells at "
      ++ b.address.text

def foldedEntry (t : FoldedTable) : Log.Entry :=
  Log.debug "zkasm.emitter" <|
    "folded " ++ t.spec.describe ++ " into " ++ natText t.rows.size ++ " rows at " ++ t.address.text

def loweredEntry (b : Block) : Log.Entry :=
  Log.debug "zkasm.emitter" <|
    "lowered " ++ nodeText b.op.id ++ " (" ++ b.op.kind ++ "): " ++ natText b.steps.length
      ++ " instructions"

end TensorAsm.Lowering
