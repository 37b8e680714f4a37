import TensorAsm.Json.Number
/-!
The address space: five regions behind one another, each with a size, inside a capacity.
-/

namespace TensorAsm

inductive Region where
  | control | input | fixed | intermediate | output
  deriving DecidableEq, Repr

namespace Region

def all : List Region := [.control, .input, .fixed, .intermediate, .output]

def name : Region → String
  | .control => "control"
  | .input => "input"
  | .fixed => "fixed"
  | .intermediate => "intermediate"
  | .output => "output"

def ofName? (s : String) : Option Region := all.find? (·.name == s)

theorem mem_all (r : Region) : r ∈ all := by cases r <;> decide

def total (f : Region → Int) : Int := all.foldr (fun r n => f r + n) 0

end Region

structure Layout where
  size : Region → Int
  capacity : Int
  size_nonneg : ∀ r, 0 ≤ size r
  total_le : Region.total size ≤ capacity

namespace Layout

def defaultSize : Region → Int
  | .control => 16
  | .input => 65536
  | .fixed => 262144
  | .intermediate => 655344
  | .output => 65536

def defaultCapacity : Int := 1048576

instance : Inhabited Layout where
  default := ⟨defaultSize, defaultCapacity, by intro r; cases r <;> decide, by decide⟩

def base (l : Layout) : Region → Int
  | .control => 0
  | .input => l.size .control
  | .fixed => l.size .control + l.size .input
  | .intermediate => l.size .control + l.size .input + l.size .fixed
  | .output => l.size .control + l.size .input + l.size .fixed + l.size .intermediate

def ofSizes (size : Region → Int) (capacity : Int) : Except Invalid Layout :=
  if hn : ∀ r ∈ Region.all, 0 ≤ size r then
    if ht : Region.total size ≤ capacity then
      .ok ⟨size, capacity, fun r => hn r r.mem_all, ht⟩
    else .error (.capacityExceeded (Region.total size) capacity)
  else .error .negativeRegion

def ofTable (sizes : List (Region × Int)) (capacity : Int) : Except Invalid Layout :=
  match Region.all.filter fun r => (Ordered.get? r sizes).isNone with
  | [] => ofSizes (fun r => (Ordered.get? r sizes).getD 0) capacity
  | missing => .error (.missingRegions (missing.map Region.name))

def readTable : List (String × Json) → Except Invalid (List (Region × Int))
  | [] => .ok []
  | (name, size) :: rest =>
    match Region.ofName? name with
    | none => .error (.unknownMember "Namespace" (.str name))
    | some r => (readTable rest).map ((r, (size.int?).getD 0) :: ·)

/-- Replaces the sizes that a description gives. A size or a name that cannot be read is reported
as an unknown region, but a size of the wrong kind as such. -/
def readSizes (size : Region → Int) : List (String × Json) → Except Fault (Region → Int)
  | [] => .ok size
  | (name, given) :: rest =>
    match given.toInt, Region.ofName? name with
    | .ok n, some r => readSizes (fun q => if q = r then n else size q) rest
    | .ok _, none | .error (.invalid _), _ => .error (.invalid (.unknownRegion name))
    | .error f, _ => .error f

def readFields (fields : List (String × Json)) : Except Fault Layout :=
  match (Ordered.get? "namespaces" fields).getD (.obj []) with
  | .obj given =>
    match readSizes defaultSize given with
    | .error f => .error f
    | .ok size =>
      match ((Ordered.get? "capacity" fields).getD (.int defaultCapacity)).toInt with
      | .error f => .error f
      | .ok capacity => (ofSizes size capacity).mapError .invalid
  | _ => .error .noMember

/-- The layout of a description; there is a default for every part that is left out. -/
def read (given : Json) : Except Fault Layout :=
  if given.truthy then
    match given with
    | .obj fields => readFields fields
    | _ => .error .noMember
  else .ok default

end Layout

end TensorAsm
