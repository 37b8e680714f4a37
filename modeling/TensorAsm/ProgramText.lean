import TensorAsm.Field
import TensorAsm.Instruction
import TensorAsm.Text.Lines
/-!
Reading program text: one directive or instruction on a line, comments from a semicolon on, and
labels, which are skipped.
-/

namespace TensorAsm

structure OutputRange where
  name : String
  base : Int
  length : Int
  scale : Int
  deriving DecidableEq, Repr

structure RegionUse where
  base : Int
  size : Int
  used : Int
  deriving DecidableEq, Repr

structure ProgramText where
  instructions : List Instruction
  outputs : List OutputRange
  regions : List (String × RegionUse)
  zero : Option Int

namespace ProgramText

inductive Item where
  | nothing
  | instruction (i : Instruction)
  | output (o : OutputRange)
  | region (name : String) (use : RegionUse)
  | zero (cell : Int)
  deriving DecidableEq, Repr

def number (s : List Char) : Except Fault Int :=
  Field.liftNumeral (Numeral.read .decimal (String.ofList s))

def word (words : List (List Char)) (i : Nat) : Except Fault (List Char) :=
  match words[i]? with
  | some w => .ok w
  | none => .error .outOfRange

/-- The scale of an output is optional and marked by its first letter. -/
def outputScale (words : List (List Char)) : Except Fault Int :=
  match words[4]? with
  | some ('s' :: digits) => number digits
  | _ => .ok 0

def readOutput (words : List (List Char)) : Except Fault Item := do
  let scale ← outputScale words
  let name ← word words 3
  let base ← number (← word words 1)
  let length ← number (← word words 2)
  return .output ⟨String.ofList name, base, length, scale⟩

def readRegion (words : List (List Char)) : Except Fault Item := do
  let base ← number (← word words 2)
  let size ← number (← word words 3)
  let used ← number (← word words 4)
  let name ← word words 1
  return .region (String.ofList name) ⟨base, size, used⟩

def readDirective (line : List Char) : Except Fault Item :=
  let words := Text.words line
  match (words.head?).map String.ofList with
  | some ".output" => readOutput words
  | some ".namespace" => readRegion words
  | some ".zero" => do return .zero (← number (← word words 1))
  | _ => .ok .nothing

inductive Argument where
  | cell (digits : List Char)
  | immediate (digits : List Char)

def isNumber (s : List Char) : Bool := !s.isEmpty && s.all Text.isDigit

def cell? (s : List Char) : Option (List Char) :=
  match s.getLast? with
  | some ']' => if isNumber s.dropLast then some s.dropLast else none
  | _ => none

def immediate? : List Char → Option (List Char)
  | '-' :: s => if isNumber s then some ('-' :: s) else none
  | s => if isNumber s then some s else none

def argument? : List Char → Option Argument
  | '[' :: s => (cell? s).map .cell
  | '#' :: s => (immediate? s).map .immediate
  | _ => none

def readArguments (line : Nat) : List (List Char) → Except Fault (List Int × List Int)
  | [] => .ok ([], [])
  | token :: rest =>
    match argument? token with
    | none => .error (.invalid (.badOperand line (String.ofList token)))
    | some (.cell digits) => do
      let n ← number digits
      let (cells, immediates) ← readArguments line rest
      return (n :: cells, immediates)
    | some (.immediate digits) => do
      let n ← number digits
      let (cells, immediates) ← readArguments line rest
      return (cells, n :: immediates)

def tokens (s : List Char) : List (List Char) :=
  ((Text.splitOn ',' s).map Text.trim).filter (!·.isEmpty)

def readInstruction (line : Nat) (s : List Char) : Except Fault Item := do
  let (head, rest) := Text.cut ' ' s
  let mnemonic := String.ofList head
  match Opcode.ofMnemonic? mnemonic with
  | none => throw (.invalid (.unknownMnemonic line mnemonic))
  | some op =>
    let (cells, immediates) ← readArguments line (tokens rest)
    match Instruction.ofArguments? op cells immediates with
    | some i => return .instruction i
    | none => throw (.invalid (.operandCount line mnemonic))

def readLine (line : Nat) (raw : List Char) : Except Fault Item :=
  let s := Text.trim (Text.cut ';' raw).1
  if s.isEmpty ∨ s.getLast? = some ':' then .ok .nothing
  else if s.head? = some '.' then readDirective s
  else readInstruction line s

def Item.instruction? : Item → Option Instruction
  | .instruction i => some i
  | _ => none

def Item.output? : Item → Option OutputRange
  | .output o => some o
  | _ => none

def Item.region? : Item → Option (String × RegionUse)
  | .region name use => some (name, use)
  | _ => none

def Item.zero? : Item → Option Int
  | .zero cell => some cell
  | _ => none

/-- Of repeated directives the last one counts, but every output does. -/
def ofItems (items : List Item) : ProgramText :=
  ⟨items.filterMap Item.instruction?, items.filterMap Item.output?,
    Ordered.ofList (items.filterMap Item.region?), (items.filterMap Item.zero?).getLast?⟩

def read (text : String) : Except Fault ProgramText :=
  ((Text.numberedFrom 1 (Text.lines text.toList)).mapM fun (n, line) => readLine n line).map ofItems

end ProgramText

end TensorAsm
