import TensorAsm.Binary64
import TensorAsm.Platform
/-!
Shapes and multi-indices in row-major order, sizes in words of 64 bits, and broadcasting: shapes
are aligned at their last dimension, and a dimension of one is stretched.
-/

namespace TensorAsm.Shape

def volume (shape : List Nat) : Nat := shape.foldl (· * ·) 1

def wordCount : Nat := 0x10000000000000000

def wordHalf : Nat := 0x8000000000000000

def leastWord : Int := -(wordHalf : Int)

def isSigned (d : Int) : Bool := leastWord ≤ d && d < wordHalf

def isUnsigned (d : Int) : Bool := 0 ≤ d && d < wordCount

def isUpper (d : Int) : Bool := wordHalf ≤ d && d < wordCount

/-- The word for a dimension that goes through a double; what a word cannot hold becomes the least
one. -/
def roundedWord (d : Int) : Int :=
  match (Binary64.ofInt? d).map Binary64.parts with
  | some (.finite negative m e) =>
    let v : Int := Binary64.floorMagnitude m e
    let w := if negative then -v else v
    if isSigned w then w else leastWord
  | _ => leastWord

def wrap (n : Int) : Int := Int.bmod n wordCount

def product (dims : List Int) : Int := dims.foldl (· * ·) 1

/-- The size of a shape. Signed words and words of the upper half are multiplied as they are,
a mixture of both after rounding; the product wraps around. What is no word is refused. -/
def wordSize? (dims : List Int) : Option Int :=
  if dims.all isSigned || dims.all isUpper then some (wrap (product dims))
  else if dims.all fun d => isSigned d || isUnsigned d then
    some (wrap (product (dims.map roundedWord)))
  else none

/-- The product of dimensions, which may not leave the signed words on the way. -/
def wordProduct? (shape : List Nat) : Option Nat :=
  shape.foldlM (fun n d => if n * d < wordHalf then some (n * d) else none) 1

/-- All multi-indices of a shape, the last one running fastest. With a dimension of zero there is
none, however great the others. -/
def indices : List Nat → List (List Nat)
  | [] => [[]]
  | d :: shape =>
    if d = 0 then []
    else
      match indices shape with
      | [] => []
      | rest => (List.range d).flatMap fun i => rest.map (i :: ·)

def isCountable [Platform] (shape : List Nat) : Bool := shape.all (· < Platform.countLimit)

def flat (shape index : List Nat) : Nat :=
  (index.zip shape).foldl (fun n p => n * p.2 + p.1) 0

def join? (a b : Nat) : Option Nat :=
  if a = b ∨ b = 1 then some a else if a = 1 then some b else none

def broadcastReversed? : List Nat → List Nat → Option (List Nat)
  | [], bs => some bs
  | as, [] => some as
  | a :: as, b :: bs =>
    match join? a b, broadcastReversed? as bs with
    | some d, some ds => some (d :: ds)
    | _, _ => none

/-- The shape to which both can be stretched, if its size is a word. -/
def broadcast? (a b : List Nat) : Option (List Nat) :=
  match broadcastReversed? a.reverse b.reverse with
  | none => none
  | some shape => if (wordProduct? shape.reverse).isSome then some shape.reverse else none

def project (shape index : List Nat) : List Nat :=
  List.zipWith (fun i d => if d = 1 then 0 else i) (index.drop (index.length - shape.length)) shape

def flatProject (shape index : List Nat) : Nat := flat shape (project shape index)

end TensorAsm.Shape
