import TensorAsm.Circuit.Basic
import TensorAsm.Layout
import Std.Data.TreeMap
/-!
Placing blocks of cells. In each region blocks follow one another and are never given back, so the
order of the requests fixes every address.
-/

namespace TensorAsm

structure Address where
  region : Region
  offset : Int
  absolute : Int
  deriving DecidableEq, Repr

def Address.text (a : Address) : String :=
  a.region.name ++ "+" ++ Numeral.write a.offset ++ "@" ++ Numeral.write a.absolute

def Address.numbers (a : Address) : List Int := [a.offset, a.absolute]

def Address.text? (a : Address) : Except Fault String := written a.numbers a.text

inductive BlockKind where
  | tensor | table | scratch | control
  deriving DecidableEq, Repr

def BlockKind.name : BlockKind → String
  | .tensor => "tensor"
  | .table => "table"
  | .scratch => "scratch"
  | .control => "control"

structure Allocation where
  name : String
  kind : BlockKind
  address : Address
  size : Int
  deriving DecidableEq, Repr

def Allocation.text? (b : Allocation) : Except Fault String :=
  written (b.size :: b.address.numbers)
    (b.name ++ "|" ++ b.kind.name ++ "|" ++ b.address.text ++ "|" ++ Numeral.write b.size)

def Allocation.cells (b : Allocation) : List Int :=
  (List.range b.size.toNat).map fun (i : Nat) => b.address.absolute + i

/-- Which tensors are declared inputs and outputs, how many cells of each region are in use, the
blocks that tensors and named cells are bound to, all blocks, oldest first, and the number of
scratch requests. -/
structure Allocator where
  layout : Layout
  inputs : String → Bool
  outputs : String → Bool
  used : Region → Int
  tensors : List (String × Allocation)
  controls : List (String × Allocation)
  allocations : List Allocation
  scratchCount : Nat

namespace Allocator

def start (g : Circuit.Graph) (layout : Layout) : Allocator :=
  ⟨layout, g.inputs.contains, g.outputs.contains, fun _ => 0, [], [], [], 0⟩

def totalUsed (a : Allocator) : Int := Region.total a.used

def regionOf (a : Allocator) (id : String) (visibility : Circuit.Visibility) : Region :=
  if visibility = .fixed then .fixed
  else if a.inputs id then .input
  else if a.outputs id then .output
  else .intermediate

def next (a : Allocator) (r : Region) (size : Int) (name : String) (kind : BlockKind) :
    Allocation :=
  ⟨name, kind, ⟨r, a.used r, a.layout.base r + a.used r⟩, size⟩

def push (a : Allocator) (b : Allocation) : Allocator :=
  { a with
    used := fun r => if r = b.address.region then a.used r + b.size else a.used r
    allocations := a.allocations ++ [b] }

def bump (a : Allocator) (r : Region) (size : Int) (name : String) (kind : BlockKind) :
    Except Exhaustion (Allocation × Allocator) :=
  if a.layout.size r < a.used r + size then
    .error ⟨r.name, name, size, a.used r, a.layout.size r⟩
  else .ok (a.next r size name kind, a.push (a.next r size name kind))

def bound? (a : Allocator) : BlockKind → String → Option Allocation
  | .tensor, id => Ordered.get? id a.tensors
  | .control, name => Ordered.get? name a.controls
  | _, _ => none

def lookup? (a : Allocator) (tensor : String) : Option Address :=
  (a.bound? .tensor tensor).map (·.address)

def bindTensor (a : Allocator) (b : Allocation) : Allocator :=
  { a with tensors := Ordered.put b.name b a.tensors }

def bindControl (a : Allocator) (b : Allocation) : Allocator :=
  { a with controls := Ordered.put b.name b a.controls }

abbrev Reply := Except Fault Address × Allocator

/-- The reply to a request for a new block; `bind` says under which name it can be found. -/
def place (a : Allocator) (r : Region) (size : Int) (name : String) (kind : BlockKind)
    (bind : Allocator → Allocation → Allocator) : Reply :=
  match a.bump r size name kind with
  | .ok (b, c) => (.ok b.address, bind c b)
  | .error e => (.error (.compile (.exhausted e)), a)

def allocateSized (a : Allocator) (id : String) (visibility : Circuit.Visibility)
    (size? : Option Int) : Reply :=
  match a.lookup? id with
  | some address => (.ok address, a)
  | none =>
    match size? with
    | some size => a.place (a.regionOf id visibility) size id .tensor bindTensor
    | none => (.error .overflow, a)

def allocate (a : Allocator) (t : Circuit.Tensor) : Reply :=
  a.allocateSized t.id t.visibility t.size?.toOption

/-- A block of the compiler's own. Its name ends in the number of the request, and it is bound to
none. -/
def scratch (a : Allocator) (name : String) (size : Int) (r : Region) (kind : BlockKind) : Reply :=
  let b := { a with scratchCount := a.scratchCount + 1 }
  b.place r size (name ++ "#" ++ natText b.scratchCount) kind fun c _ => c

def control (a : Allocator) (name : String) : Reply :=
  match a.bound? .control name with
  | some b => (.ok b.address, a)
  | none => a.place .control 1 name .control bindControl

def sorted (a : Allocator) : List Allocation :=
  a.allocations.mergeSort fun b c =>
    b.address.absolute < c.address.absolute
      || (b.address.absolute == c.address.absolute && b.size ≤ c.size)

structure Owner where
  block : Allocation
  index : Nat

def claim (owners : Std.TreeMap Int Owner) (b : Allocation) : Std.TreeMap Int Owner :=
  (List.range b.size.toNat).foldl
    (fun m (i : Nat) => m.insert (b.address.absolute + i) ⟨b, i⟩) owners

def owners (a : Allocator) : Std.TreeMap Int Owner := a.allocations.foldl claim ∅

end Allocator

end TensorAsm
