import TensorAsm.Field
import TensorAsm.Instruction
import TensorAsm.Json.Number
import TensorAsm.Log
import TensorAsm.Quantity
import Std.Data.TreeMap
/-!
The machine that replays programs over a table of cells. Arithmetic is modulo the field, rescaling
and clamping act on centred values. A strict machine refuses to overwrite a cell with another
value, but for some slack on cells that allow it.
-/

namespace TensorAsm.Machine

variable [Platform]

abbrev Memory := Std.TreeMap Int Int

/-- Without a number as tolerance the machine fails where it would need one. -/
structure Settings where
  modulus : Int
  strict : Bool
  tolerance : Option Float
  tolerant : List Int

/-- Tables are read from memory once and kept, by their first cell and number of rows. -/
structure State where
  memory : Memory
  tables : List ((Int × Int) × Memory)
  pc : Int
  steps : Nat
  halted : Bool

namespace State

def start (memory : Memory) : State := ⟨memory, [], 0, 0, false⟩

def inconsistent (s : State) (address : Int) (cause : InconsistencyCause) : Fault :=
  .compile (.replay ⟨address, s.pc, cause⟩)

def read (s : State) (address : Int) : Except Fault Int :=
  match s.memory[address]? with
  | some v => .ok v
  | none => .error (s.inconsistent address .absent)

def readSignedAfter (s : State) (m : Int) (done : List Int) (base : Int) :
    Nat → Except Fault (List Int)
  | 0 => .ok done.reverse
  | n + 1 =>
    match s.read base with
    | .error f => .error f
    | .ok e =>
      match Field.centre? m e with
      | .error f => .error f
      | .ok v => s.readSignedAfter m (v :: done) (base + 1) n

def readSigned (s : State) (m base : Int) (length : Nat) : Except Fault (List Int) :=
  s.readSignedAfter m [] base length

/-- Adds `n` rows from memory to a table; of two rows with one key the later counts. The first cell
that is not there ends it. -/
def addRows (s : State) (t : Memory) (base : Int) : Nat → Except Fault Memory
  | 0 => .ok t
  | n + 1 =>
    match s.read base with
    | .error f => .error f
    | .ok key =>
      match s.read (base + 1) with
      | .error f => .error f
      | .ok value => s.addRows (t.insert key value) (base + 2) n

def buildTable (s : State) (base rows : Int) : Except Fault Memory := s.addRows ∅ base rows.toNat

def table (s : State) (base rows : Int) : Except Fault Memory × State :=
  match s.tables.lookup (base, rows) with
  | some t => (.ok t, s)
  | none =>
    match s.buildTable base rows with
    | .ok t => (.ok t, { s with tables := ((base, rows), t) :: s.tables })
    | .error f => (.error f, s)

def search (s : State) (m : Int) (t : Memory) (cell table : Int) : Except Fault Int := do
  let key ← s.read cell
  match t[key]? with
  | some v => return v
  | none => throw (s.inconsistent cell (.outsideTable (← Field.centre? m key) table))

def compute (s : State) (m : Int) : Instruction → Except Fault Int × State
  | .add _ a b => (do Field.encode? m ((← s.read a) + (← s.read b)), s)
  | .sub _ a b => (do Field.encode? m ((← s.read a) - (← s.read b)), s)
  | .mul _ a b => (do Field.encode? m ((← s.read a) * (← s.read b)), s)
  | .mac _ c a b => (do Field.encode? m ((← s.read c) + (← s.read a) * (← s.read b)), s)
  | .rescale _ a shift =>
    (do Field.encode? m (← Quantity.rescale? (← Field.centre? m (← s.read a)) shift), s)
  | .clamp _ a lo hi =>
    (do Field.encode? m (min (max (← Field.centre? m (← s.read a)) lo.value) hi.value), s)
  | .lookup _ a base rows =>
    match s.table base rows with
    | (.ok t, next) => (next.search m t a base, next)
    | (.error f, next) => (.error f, next)
  | .halt => (.ok 0, s)

end State

def Settings.accepts (c : Settings) (address held value : Int) : Except Fault Bool :=
  if address ∉ c.tolerant then .ok false
  else
    match c.tolerance with
    | none => .error .wrongKind
    | some tolerance =>
      if tolerance ≤ 0.0 then .ok false
      else do
        let expected ← Field.centre? c.modulus held
        let actual ← Field.centre? c.modulus value
        let size ← Json.floatOfInt expected.natAbs
        return Binary64.intLe (actual - expected).natAbs (size * tolerance / 100.0)

def Settings.permits (c : Settings) (s : State) (address value : Int) : Except Fault Unit :=
  match c.strict, s.memory[address]? with
  | true, some held =>
    if held = value then .ok ()
    else do
      if ← c.accepts address held value then return
      else throw (s.inconsistent address (.mismatch held value))
  | _, _ => .ok ()

/-- One instruction; after a fault nothing has changed but the tables kept. -/
def step (c : Settings) (s : State) (i : Instruction) : State × Option Fault :=
  match i.dest? with
  | none => ({ s with halted := true }, none)
  | some dest =>
    match s.compute c.modulus i with
    | (.error f, next) => (next, some f)
    | (.ok value, next) =>
      match c.permits next dest value with
      | .error f => (next, some f)
      | .ok () =>
        ({ next with memory := next.memory.insert dest value, steps := next.steps + 1 }, none)

def runThrough (c : Settings) (s : State) : List Instruction → State × Option Fault
  | [] => (s, none)
  | i :: rest =>
    if s.halted then (s, none)
    else
      match step c s i with
      | (next, some f) => (next, some f)
      | (next, none) => runThrough c { next with pc := next.pc + 1 } rest

/-- The instructions from a counter on. A negative counter counts from the end, and after the end
the program comes once more from its start. -/
def codeFrom? (code : List Instruction) (pc : Int) : Option (List Instruction) :=
  if 0 ≤ pc then some (code.drop pc.toNat)
  else if -(code.length : Int) ≤ pc then some (code.drop (code.length + pc).toNat ++ code)
  else none

def run (c : Settings) (code : List Instruction) (s : State) : State × Option Fault :=
  match codeFrom? code s.pc with
  | some rest => runThrough c s rest
  | none => (s, if s.halted then none else some .outOfRange)

def ranEntry (s : State) : Log.Entry :=
  Log.debug "zkasm.vm" ("replayed " ++ natText s.steps ++ " instructions")

end TensorAsm.Machine
