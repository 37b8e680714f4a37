import TensorAsm.Arguments
import TensorAsm.CommandLine
import TensorAsm.Execution
/-!
The replay tool: runs a program file over a memory file and lists the outputs, as integers and as
the numbers that they stand for.
-/

namespace TensorAsm.ReplayTool

variable [Platform]

inductive Meaning where
  | help | strict | tolerance
  deriving DecidableEq, Repr

def flags : List (Arguments.Flag Meaning) := [
  ⟨["-h", "--help"], false, .help⟩,
  ⟨["--strict"], false, .strict⟩,
  ⟨["--tolerance"], true, .tolerance⟩]

/-- There may be no tolerance to compare with. -/
structure Wishes where
  paths : List Arguments.Value
  strict : Bool
  tolerance : Option Float

def Wishes.add (w : Wishes) : Arguments.Event Meaning → Except CommandLine.Ending Wishes
  | .positional path => .ok { w with paths := w.paths ++ [path] }
  | .flag .help _ => .error .help
  | .flag .strict _ => .ok { w with strict := true }
  | .flag .tolerance v =>
    match v with
    | some .nothing => .ok { w with tolerance := none }
    | some (.text s) =>
      match Decimal.read? s with
      | some x => .ok { w with tolerance := some x }
      | none => .error .usage
    | none => .error .usage

def read (args : List String) : Except CommandLine.Ending Wishes :=
  let (events, inOrder) := Arguments.parse flags 2 args
  match events.foldlM Wishes.add ⟨[], false, some 0.0⟩ with
  | .error e => .error e
  | .ok w => if inOrder then .ok w else .error .usage

def tidy (s : String) : String :=
  let parts := (WrittenPath.pieces s).filter fun c => c ≠ "" ∧ c ≠ "."
  (if s.toList.head? = some '/' then "/" else "")
    ++ (if parts.isEmpty then "." else String.intercalate "/" parts)

def readFile (files : FileTree) (path : String) : Except Fault String :=
  files.read (tidy path)

def load (files : FileTree) (program : String) (memory : Option String) :
    Except Fault Execution.Loaded := do
  let text ← ProgramText.read (← readFile files program)
  let some memory := memory | throw .wrongKind
  let rows ← MemoryTable.readRows (← readFile files memory)
  return ⟨text, MemoryTable.cellMap rows⟩

def outputCells (o : OutputRange) : List Int :=
  (List.range o.length.toNat).map fun (i : Nat) => o.base + i

def settings (t : ProgramText) (strict : Bool) (tolerance : Option Float) (modulus : Int) :
    Machine.Settings :=
  ⟨modulus, strict, tolerance, t.outputs.flatMap outputCells⟩

/-- The values of every output after the run; of two with one name the later counts. -/
def replay (l : Execution.Loaded) (c : Machine.Settings) :
    Except Fault (List (String × List Int)) :=
  match Machine.run c l.program.instructions (.start l.memory) with
  | (_, some f) => .error f
  | (s, none) => do
    let values ← l.program.outputs.mapM fun o => do
      return (o.name, ← s.readSigned c.modulus o.base o.length.toNat)
    return Ordered.ofList values

def powerLimit : Int := 0x100000000

/-- A value at a scale, as the nearest double. -/
def real (scale v : Int) : Except Fault Float :=
  if powerLimit ≤ scale then .error .outOfMemory
  else if 0 ≤ scale then
    match Binary64.divInt? v (Nat.pow 2 scale.toNat) with
    | some x => .ok x
    | none => .error .overflow
  else do
    let unit ← Table.pow2 scale
    let x ← Json.floatOfInt v
    if unit == 0.0 then throw .divisionByZero
    return x / unit

def scaleOf (t : ProgramText) (name : String) : Int :=
  ((t.outputs.filter (·.name == name)).getLast?.map (·.scale)).getD 0

def outputText (scale : Int) (name : String) (values : List Int) : Except Fault String := do
  let reals ← values.mapM (real scale)
  written (scale :: values) (name ++ " (s" ++ Numeral.write scale ++ "): " ++ intsText values
    ++ "\n  = " ++ Json.bracketed "[" (reals.map Decimal.write) "]" ++ "\n")

def outputTexts (t : ProgramText) : List (String × List Int) → String × Option Fault
  | [] => ("", none)
  | (name, values) :: rest =>
    match outputText (scaleOf t name) name values with
    | .error f => ("", some f)
    | .ok text =>
      let (more, stop) := outputTexts t rest
      (text ++ more, stop)

structure Outcome where
  ending : CommandLine.Ending
  printed : String

def endingOf (f : Fault) : CommandLine.Ending :=
  match f.reported with
  | .compile (.replay i) => .refused (.compile (.replay i))
  | f => .broken f

def report (t : ProgramText) (outputs : List (String × List Int)) : Outcome :=
  match outputTexts t outputs with
  | (text, none) => ⟨.done, text⟩
  | (text, some f) => ⟨endingOf f, text⟩

def Wishes.path? (w : Wishes) (i : Nat) : Option String := w.paths[i]?.bind (·.text?)

def replayFiles (files : FileTree) (w : Wishes) : Outcome :=
  match load files ((w.path? 0).getD "") (w.path? 1) with
  | .error f => ⟨endingOf f, ""⟩
  | .ok l =>
    match replay l (settings l.program w.strict w.tolerance Field.defaultModulus) with
    | .error f => ⟨endingOf f, ""⟩
    | .ok outputs => report l.program outputs

def run (files : FileTree) (args : List String) : Outcome :=
  match read args with
  | .error e => ⟨e, ""⟩
  | .ok w => replayFiles files w

end TensorAsm.ReplayTool
