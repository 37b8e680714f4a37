import TensorAsm.Text.Blank
import TensorAsm.Text.Digit
import TensorAsm.Text.Quoted
/-!
Integers as text. A numeral may stand between blanks and have a sign, its digits may come from
any script, and single underscores may divide them. Decimal numerals have a greatest length.
-/

namespace TensorAsm.Numeral

open Text

/-- How the base of a numeral is fixed: always ten, always sixteen with an optional mark `0x`, or
by the mark `0x`, `0o` or `0b` and ten without one. -/
inductive Radix where
  | decimal
  | hexadecimal
  | marked
  deriving DecidableEq, Repr

def Radix.name : Radix → String
  | .decimal => "10"
  | .hexadecimal => "16"
  | .marked => "0"

inductive Defect where
  | malformed (radix : Radix) (text : String)
  | tooLong (digits : Nat)
  deriving DecidableEq, Repr

def lengthLimit : Nat := 4300

def write (n : Int) : String := toString n

def writeLimit : Nat := Nat.pow 10 lengthLimit

def isWritable (n : Int) : Bool := n.natAbs < writeLimit

def Defect.message : Defect → String
  | .malformed radix text =>
    "invalid literal for int() with base " ++ radix.name ++ ": "
      ++ String.ofList ((quotedChars text.toList).take 200)
  | .tooLong digits =>
    "Exceeds the limit (4300 digits) for integer string conversion: value has "
      ++ write digits ++ " digits; use sys.set_int_max_str_digits() to increase the limit"

/-- The ASCII character that stands for a digit of any script or for a blank outside ASCII, and
a question mark for every other character there. -/
def plain (c : Char) : Char :=
  if c.toNat < 127 then c
  else if isBlank c then ' '
  else match digit? c with
    | some d => Nat.digitChar d
    | none => '?'

def isSpace (c : Char) : Bool := (9 ≤ c.toNat && c.toNat ≤ 13) || c == ' '

def digitValue? (base : Nat) (c : Char) : Option Nat :=
  let n := c.toNat
  let d := if 48 ≤ n ∧ n ≤ 57 then n - 48
    else if 97 ≤ n ∧ n ≤ 102 then n - 87
    else if 65 ≤ n ∧ n ≤ 70 then n - 55
    else 16
  if d < base then some d else none

def isRunChar (base : Nat) (c : Char) : Bool := c == '_' || (digitValue? base c).isSome

def hasDouble : List Char → Bool
  | '_' :: '_' :: _ => true
  | _ :: s => hasDouble s
  | [] => false

/-- Every underscore stands between two digits, and there is a digit. -/
def orderly (run : List Char) : Bool :=
  !run.isEmpty && run.head? != some '_' && run.getLast? != some '_' && !hasDouble run

def digitsOf (run : List Char) : List Char := run.filter (· != '_')

def valueOf (base : Nat) (digits : List Char) : Nat :=
  digits.foldl (fun v c => v * base + (digitValue? base c).getD 0) 0

/-- The base of the numeral, whether it has to be zero (a decimal that starts with a zero where
marks are in use), and the text behind the mark. -/
def splitMark : Radix → List Char → Nat × Bool × List Char
  | .decimal, s => (10, false, s)
  | .hexadecimal, '0' :: c :: s =>
    if c = 'x' ∨ c = 'X' then (16, false, behindMark s) else (16, false, '0' :: c :: s)
  | .hexadecimal, s => (16, false, s)
  | .marked, '0' :: c :: s =>
    if c = 'x' ∨ c = 'X' then (16, false, behindMark s)
    else if c = 'o' ∨ c = 'O' then (8, false, behindMark s)
    else if c = 'b' ∨ c = 'B' then (2, false, behindMark s)
    else (10, true, '0' :: c :: s)
  | .marked, s => (10, false, s)
where
  behindMark : List Char → List Char
    | '_' :: s => s
    | s => s

def splitSign : List Char → Bool × List Char
  | '-' :: s => (true, s)
  | '+' :: s => (false, s)
  | s => (false, s)

def readChars (radix : Radix) (text : String) (s : List Char) : Except Defect Int :=
  let (negative, s) := splitSign (s.dropWhile isSpace)
  let (base, zeroOnly, s) := splitMark radix s
  let run := s.takeWhile (isRunChar base)
  let digits := digitsOf run
  if !orderly run then .error (.malformed radix text)
  else if base = 10 ∧ lengthLimit < digits.length then .error (.tooLong digits.length)
  else
    let v := valueOf base digits
    if zeroOnly ∧ v ≠ 0 then .error (.malformed radix text)
    else if !((s.dropWhile (isRunChar base)).all isSpace) then .error (.malformed radix text)
    else .ok (if negative then -(v : Int) else v)

def read (radix : Radix) (text : String) : Except Defect Int :=
  readChars radix text (text.toList.map plain)

end TensorAsm.Numeral
