import TensorAsm.Json
import TensorAsm.Platform
/-!
Reading documents. Beside the standard grammar the words `NaN`, `Infinity` and `-Infinity` are
numbers. A key that comes twice keeps its first place and takes its last value. Lists and objects
are nested up to a limit.
-/

namespace TensorAsm.Json

inductive ReadError where
  | malformed
  | tooLong (digits : Nat)
  | listTooDeep
  | objectTooDeep
  deriving DecidableEq, Repr

abbrev Step (α : Type) := Except ReadError (α × List Char)

def isSpaceChar (c : Char) : Bool := c == ' ' || c == '\t' || c == '\n' || c == '\r'

def skipSpace (s : List Char) : List Char := s.dropWhile isSpaceChar

def afterWord : List Char → List Char → Option (List Char)
  | [], s => some s
  | _ :: _, [] => none
  | c :: w, d :: s => if c = d then afterWord w s else none

def hex4 : List Char → Option (Nat × List Char)
  | a :: b :: c :: d :: s => do
    let a ← Numeral.digitValue? 16 a
    let b ← Numeral.digitValue? 16 b
    let c ← Numeral.digitValue? 16 c
    let d ← Numeral.digitValue? 16 d
    return (((a * 16 + b) * 16 + c) * 16 + d, s)
  | _ => none

def simpleEscape : Char → Option Char
  | '"' => some '"'
  | '\\' => some '\\'
  | '/' => some '/'
  | 'b' => some (Char.ofNat 8)
  | 'f' => some (Char.ofNat 12)
  | 'n' => some '\n'
  | 'r' => some '\r'
  | 't' => some '\t'
  | _ => none

/-- The code point of a code unit and what follows it; the unit may be the first half of a pair, or
half of one that stands alone. -/
def unitCode (u : Nat) (s : List Char) : Nat × List Char :=
  if 0xd800 ≤ u ∧ u < 0xdc00 then
    match (afterWord ['\\', 'u'] s).bind hex4 with
    | some (v, rest) =>
      if 0xdc00 ≤ v ∧ v < 0xe000 then (0x10000 + (u - 0xd800) * 0x400 + (v - 0xdc00), rest)
      else (u, s)
    | none => (u, s)
  else (u, s)

def readStr : Nat → List Char → List Char → Step String
  | 0, _, _ => .error .malformed
  | _ + 1, _, [] => .error .malformed
  | fuel + 1, done, c :: s =>
    if c = '"' then .ok (String.ofList done.reverse, s)
    else if c = '\\' then
      match s with
      | [] => .error .malformed
      | 'u' :: s =>
        match hex4 s with
        | some (u, s) =>
          let (n, s) := unitCode u s
          readStr fuel ((Text.hold n).reverse ++ done) s
        | none => .error .malformed
      | d :: s =>
        match simpleEscape d with
        | some e => readStr fuel (e :: done) s
        | none => .error .malformed
    else if c.toNat < 0x20 then .error .malformed
    else readStr fuel (c :: done) s

def wholeDigits (s : List Char) : Option (List Char × List Char) :=
  match s with
  | '0' :: s => some (['0'], s)
  | s =>
    let (ds, rest) := Decimal.digitRun s
    if ds.isEmpty then none else some (ds, rest)

def fractionDigits : List Char → List Char × List Char
  | '.' :: s =>
    let (ds, rest) := Decimal.digitRun s
    if ds.isEmpty then ([], '.' :: s) else (ds, rest)
  | s => ([], s)

def exponentPart (s : List Char) : Option Int × List Char :=
  match s with
  | c :: r =>
    if c = 'e' ∨ c = 'E' then
      let (negative, r) := Numeral.splitSign r
      let (ds, rest) := Decimal.digitRun r
      if ds.isEmpty then (none, s)
      else (some (if negative then -(Decimal.natOf ds : Int) else Decimal.natOf ds), rest)
    else (none, s)
  | [] => (none, s)

def readNumber (negative : Bool) (s : List Char) : Step Json :=
  match wholeDigits s with
  | none => .error .malformed
  | some (whole, s) =>
    let (fraction, s) := fractionDigits s
    let (exponent, s) := exponentPart s
    if fraction.isEmpty ∧ exponent.isNone then
      if Numeral.lengthLimit < whole.length then .error (.tooLong whole.length)
      else
        let v := Decimal.natOf whole
        .ok (.int (if negative then -(v : Int) else v), s)
    else
      let digits := Decimal.natOf (whole ++ fraction)
      .ok (.float (Decimal.ofDigits negative digits (exponent.getD 0 - fraction.length)), s)

def wordValues : List (List Char × Json) := [
  ("null".toList, .null), ("true".toList, .bool true), ("false".toList, .bool false),
  ("NaN".toList, .float (Float.ofBits 0x7ff8000000000000)),
  ("Infinity".toList, .float (Binary64.ofMagnitude false Binary64.infinityBits)),
  ("-Infinity".toList, .float (Binary64.ofMagnitude true Binary64.infinityBits))]

def readWord (s : List Char) : Option (Json × List Char) :=
  wordValues.findSome? fun (w, j) => (afterWord w s).map fun rest => (j, rest)

mutual

/-- A value in at most `depth` further lists and objects. -/
def readValue : Nat → Nat → List Char → Step Json
  | 0, _, _ => .error .malformed
  | fuel + 1, depth, s =>
    match s with
    | '"' :: r =>
      match readStr fuel [] r with
      | .ok (t, rest) => .ok (.str t, rest)
      | .error e => .error e
    | '[' :: r =>
      match depth, skipSpace r with
      | 0, _ => .error .listTooDeep
      | _ + 1, ']' :: rest => .ok (.arr [], rest)
      | depth + 1, r => readItems fuel depth [] r
    | '\x7b' :: r =>
      match depth, skipSpace r with
      | 0, _ => .error .objectTooDeep
      | _ + 1, '\x7d' :: rest => .ok (.obj [], rest)
      | depth + 1, r => readFields fuel depth [] r
    | _ =>
      match readWord s with
      | some found => .ok found
      | none =>
        match s with
        | '-' :: r => readNumber true r
        | r => readNumber false r

/-- The items of a list from the next one on; `done` holds those read, last first. -/
def readItems : Nat → Nat → List Json → List Char → Step Json
  | 0, _, _, _ => .error .malformed
  | fuel + 1, depth, done, s =>
    match readValue fuel depth s with
    | .error e => .error e
    | .ok (j, s) =>
      match skipSpace s with
      | ',' :: s => readItems fuel depth (j :: done) (skipSpace s)
      | ']' :: s => .ok (.arr (j :: done).reverse, s)
      | _ => .error .malformed

def readFields : Nat → Nat → List (String × Json) → List Char → Step Json
  | 0, _, _, _ => .error .malformed
  | fuel + 1, depth, done, s =>
    match s with
    | '"' :: r =>
      match readStr fuel [] r with
      | .error e => .error e
      | .ok (k, s) =>
        match skipSpace s with
        | ':' :: s =>
          match readValue fuel depth (skipSpace s) with
          | .error e => .error e
          | .ok (j, s) =>
            match skipSpace s with
            | ',' :: s => readFields fuel depth (Ordered.put k j done) (skipSpace s)
            | '\x7d' :: s => .ok (.obj (Ordered.put k j done), s)
            | _ => .error .malformed
        | _ => .error .malformed
    | _ => .error .malformed

end

def read [Platform] (text : String) : Except ReadError Json :=
  let s := text.toList
  match readValue (2 * s.length + 2) Platform.depthLimit (skipSpace s) with
  | .error e => .error e
  | .ok (j, rest) => if (skipSpace rest).isEmpty then .ok j else .error .malformed

end TensorAsm.Json
