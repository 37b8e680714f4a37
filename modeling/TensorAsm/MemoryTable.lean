import TensorAsm.Program
import TensorAsm.Text.Lines
/-!
The memory table of a program, one cell for each address in use by ascending address, and its
text: a header and one row for each cell.
-/

namespace TensorAsm.MemoryTable

variable [Platform]

def rowValue (r : Table.Row) (index : Nat) : Int := if index % 2 = 0 then r.x else r.y

def resolve (p : Program) (address : Int) (owner : Allocator.Owner) : Except Fault Int :=
  let b := owner.block
  match b.kind with
  | .control => .ok 0
  | .table =>
    match p.plan.tables.reverse.find? (·.address.absolute == b.address.absolute) with
    | none => .error .missingKey
    | some t =>
      match t.rows[owner.index / 2]? with
      | none => .error .outOfRange
      | some r => .ok (rowValue r owner.index)
  | .scratch =>
    match p.derived[address]? with
    | some v => .ok v
    | none => .error (.compile (.witness (.notDerived address b.name)))
  | .tensor =>
    match Ordered.get? b.name p.witness with
    | none => .error (.compile (.witness (.noElement b.name owner.index address)))
    | some e =>
      match e.get? owner.index with
      | .error f => .error f
      | .ok none => .error (.compile (.witness (.noElement b.name owner.index address)))
      | .ok (some v) => .ok v

def cell (p : Program) (owners : Std.TreeMap Int Allocator.Owner) (address : Int) :
    Except Fault Cell :=
  let value := match owners[address]? with
    | some owner => resolve p address owner
    | none => .ok 0
  match value with
  | .error f => .error f
  | .ok v => (Field.encode? p.modulus v).map (⟨address, ·⟩)

def addresses (a : Allocator) (r : Region) : List Int :=
  (List.range (a.used r).toNat).map fun (i : Nat) => a.layout.base r + i

def regionEntry (a : Allocator) (r : Region) : Log.Entry :=
  Log.debug "zkasm.memory" <|
    "namespace " ++ r.name ++ ": " ++ Numeral.write (a.used r) ++ " cells from "
      ++ Numeral.write (a.layout.base r)

def writeRegions (p : Program) (owners : Std.TreeMap Int Allocator.Owner) :
    List Region → Except Fault (List Cell) × List Log.Entry
  | [] => (.ok [], [])
  | r :: rest =>
    match (addresses p.plan.allocator r).mapM (cell p owners) with
    | .error f => (.error f, [])
    | .ok cells =>
      let (more, log) := writeRegions p owners rest
      (more.map (cells ++ ·), regionEntry p.plan.allocator r :: log)

def write (p : Program) : Except Fault (List Cell) × List Log.Entry :=
  writeRegions p p.plan.allocator.owners Region.all

def header : String := "address,value"

def renderRow (c : Cell) : String := Numeral.write c.address ++ "," ++ Numeral.write c.value

def render (cells : List Cell) : String :=
  String.intercalate "\n" (header :: cells.map renderRow) ++ "\n"

def numbers (cells : List Cell) : List Int := cells.flatMap fun c => [c.address, c.value]

def render? (cells : List Cell) : Except Fault String := written (numbers cells) (render cells)

def readNumber (s : List Char) : Except Fault Int :=
  Field.liftNumeral (Numeral.read .decimal (String.ofList s))

/-- An address and a value; of two that cannot be read the value is reported. -/
def readRow (line : List Char) : Except Fault (Int × Int) :=
  match Text.splitOn ',' line with
  | [a, v] =>
    match readNumber v with
    | .error f => .error f
    | .ok value => (readNumber a).map ((·, value))
  | fields => .error (.invalid (.rowFields fields.length))

def readRows (text : String) : Except Fault (List (Int × Int)) :=
  match Text.lines (Text.trim text.toList) with
  | [] => .error (.invalid .tableHeader)
  | first :: rows =>
    if String.ofList (Text.trim first) = header then rows.mapM readRow
    else .error (.invalid .tableHeader)

/-- Rows in order; an address that comes again keeps its place and takes the new value. -/
def read (text : String) : Except Fault (List (Int × Int)) := (readRows text).map Ordered.ofList

def cellMap (rows : List (Int × Int)) : Std.TreeMap Int Int :=
  rows.foldl (fun m r => m.insert r.1 r.2) ∅

end TensorAsm.MemoryTable
