import TensorAsm.Lowering.Checks
import TensorAsm.Witness
/-!
The emitter and what it can do: ask for cells, fold tables, put out steps, and record the values of
the compiler's own cells. Its operands carry their values next to their addresses.
-/

namespace TensorAsm

open Lowering (FoldedTable Block Step checkWritten)

namespace Emitter

structure State where
  allocator : Allocator
  tables : List FoldedTable
  blocks : List Block
  current : Array Step
  derived : Std.TreeMap Int Int
  log : List Log.Entry

end Emitter

abbrev Emitter := Stateful Emitter.State

namespace Emitter

variable [Platform]

structure Setting extends Lowering.Setting where
  witness : Witness
  modulus : Int

structure Operand extends Lowering.Operand where
  values : Witness.Entry

def Operand.value? (a : Operand) (i : Nat) : Except Fault Int :=
  match a.values.get? i with
  | .ok (some v) => .ok v
  | .ok none => .error .outOfRange
  | .error f => .error f

def request (ask : Allocator → Allocator.Reply) : Emitter Address := do
  let d ← get
  let (reply, a) := ask d.allocator
  let placed := a.allocations.drop d.allocator.allocations.length
  set { d with allocator := a, log := d.log ++ placed.map Lowering.allocatedEntry }
  MonadExcept.ofExcept reply

def tensor (t : Circuit.Tensor) : Emitter Address := request (·.allocate t)

def operand (s : Setting) (id : String) : Emitter Operand := do
  let t ← s.tensor id
  let address ← tensor t
  match Ordered.get? id s.witness with
  | some values => return ⟨⟨t, address.absolute, t.scale⟩, values⟩
  | none => throw .missingKey

def output (s : Setting) (o : Circuit.Operation) : Emitter Int := do
  let address ← tensor (← s.tensor o.output)
  return address.absolute

def scratch (o : Circuit.Operation) (purpose : String) (size : Int) : Emitter Int := do
  checkWritten [o.id]
  let address ← request
    (·.scratch ("n" ++ Numeral.write o.id ++ "." ++ purpose) size .intermediate .scratch)
  return address.absolute

/-- The table of a spec, folded and placed at its first use. -/
def table (s : Table.Spec) : Emitter FoldedTable := do
  match (← get).tables.find? (·.spec.same s) with
  | some t => return t
  | none =>
    let rows ← MonadExcept.ofExcept (Table.fold s)
    let address ← request
      (·.scratch ("table." ++ s.function) (2 * (rows.length : Int)) .fixed .table)
    let t : FoldedTable := ⟨s, address, rows.toArray⟩
    modify fun d => { d with tables := d.tables ++ [t] }
    checkWritten s.numbers
    modify fun d => { d with log := d.log ++ [Lowering.foldedEntry t] }
    return t

/-- Puts out a step with the node and the given integers in its comment. -/
def emit (o : Circuit.Operation) (numbers : List Int) (step : Step) : Emitter Unit := do
  checkWritten (o.id :: numbers)
  modify fun d => { d with current := d.current.push step }

def bitLength (v : Int) : Nat := if v = 0 then 0 else v.natAbs.log2 + 1

/-- Remembers the value of a cell of the compiler's own, which has to fit the field. -/
def record (s : Setting) (o : Circuit.Operation) (address value : Int) : Emitter Unit := do
  if ¬Field.Fits s.modulus value then
    throw (.compile (.witness (.derivedUnfit o.id (bitLength value) address)))
  modify fun d => { d with derived := d.derived.insert address value }

def start : Emitter Unit := modify fun d => { d with current := #[] }

def finish (o : Circuit.Operation) : Emitter Unit := do
  let b : Block := ⟨o, (← get).current.toList⟩
  modify fun d => { d with blocks := d.blocks ++ [b], log := d.log ++ [Lowering.loweredEntry b] }

end Emitter

end TensorAsm
