import TensorAsm.Fault
import TensorAsm.Text.Lines
/-!
Skeletons of program texts: lines kept as they are, and marked lines that name a slot for a part of
the program.
-/

namespace TensorAsm

inductive Slot where
  | layout | pub | tables | outputs | body
  deriving DecidableEq, Repr

namespace Slot

def all : List Slot := [.layout, .pub, .tables, .outputs, .body]

def name : Slot → String
  | .layout => "LAYOUT"
  | .pub => "PUBLIC"
  | .tables => "TABLES"
  | .outputs => "OUTPUTS"
  | .body => "BODY"

def ofName? (s : String) : Option Slot := all.find? (·.name == s)

end Slot

namespace Skeleton

inductive Segment where
  | line (text : String)
  | slot (s : Slot)
  deriving DecidableEq, Repr

def marker? (line : List Char) : Option (String × String) :=
  match Text.trimStart line with
  | ';' :: '@' :: s =>
    let directive := s.takeWhile (!Text.isBlank ·)
    some (String.ofList directive, String.ofList (Text.trim (s.drop directive.length)))
  | _ => none

def readMarker (expected : List Slot) (seen : List (Slot × Nat)) (n : Nat) (line : List Char)
    (directive name : String) : Except SkeletonDefect Slot :=
  if directive ≠ "slot" ∨ name.isEmpty then
    .error (.malformedMarker n (String.ofList (Text.trim line)))
  else
    match Slot.ofName? name with
    | none => .error (.unknownSlot n name)
    | some s =>
      match seen.lookup s with
      | some first => .error (.slotTwice name first n)
      | none => if s ∈ expected then .ok s else .error (.unexpectedSlot n name)

def readLines (expected : List Slot) (seen : List (Slot × Nat)) :
    List (Nat × List Char) → Except SkeletonDefect (List Segment)
  | [] =>
    match Slot.all.filter fun s => s ∈ expected ∧ (seen.lookup s).isNone with
    | [] => .ok []
    | missing =>
      .error (.missingSlots ((missing.map Slot.name).mergeSort fun a b => decide (a ≤ b)))
  | (n, line) :: rest =>
    match marker? line with
    | none => (readLines expected seen rest).map (.line (String.ofList line) :: ·)
    | some (directive, name) =>
      match readMarker expected seen n line directive name with
      | .error d => .error d
      | .ok s => (readLines expected ((s, n) :: seen) rest).map (.slot s :: ·)

/-- The segments of a text in which each expected slot is marked once, and no other. -/
def read (expected : List Slot) (text : String) : Except SkeletonDefect (List Segment) :=
  readLines expected [] (Text.numberedFrom 1 (Text.lines text.toList))

def slots (segments : List Segment) : List Slot :=
  segments.filterMap fun
    | .slot s => some s
    | .line _ => none

def packaged : List Segment := [
  .line "; zkasm program",
  .line "; Generated by the zkasm compiler. Do not edit.",
  .line ".dialect zkasm 1",
  .line "",
  .slot .layout,
  .line "",
  .slot .pub,
  .line "",
  .slot .tables,
  .line "",
  .slot .outputs,
  .line "",
  .line ".text",
  .line "main:",
  .slot .body,
  .line "    halt"]

end Skeleton

end TensorAsm
