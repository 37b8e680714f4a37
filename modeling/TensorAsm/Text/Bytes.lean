import TensorAsm.Text.Half
/-!
The bytes of a name. A half that stands for a byte is that byte, and every other code point has its
one to four bytes. Names are the same when their bytes are; read back from its bytes, a name has no
halves but for bytes that are part of no code point.
-/

namespace TensorAsm.Text

def tailByte (n k : Nat) : Nat := 0x80 + n / Nat.pow 64 k % 64

def bytesOf (n : Nat) : List Nat :=
  if isByteHalf n then [n - 0xdc00]
  else if n < 0x80 then [n]
  else if n < 0x800 then [0xc0 + n / 64, tailByte n 0]
  else if n < 0x10000 then [0xe0 + n / 4096, tailByte n 1, tailByte n 0]
  else [0xf0 + n / 262144, tailByte n 2, tailByte n 1, tailByte n 0]

def bytes (s : String) : List Nat := (codes s.toList).flatMap bytesOf

def byteLength (s : String) : Nat := (bytes s).length

/-- What a first byte says: how many bytes follow it, its own bits, and the least code point that is
written so. -/
def opening? (b : Nat) : Option (Nat × Nat × Nat) :=
  if b < 0x80 then some (0, b, 0)
  else if 0xc0 ≤ b ∧ b < 0xe0 then some (1, b - 0xc0, 0x80)
  else if 0xe0 ≤ b ∧ b < 0xf0 then some (2, b - 0xe0, 0x800)
  else if 0xf0 ≤ b ∧ b < 0xf8 then some (3, b - 0xf0, 0x10000)
  else none

def isTail (b : Nat) : Bool := 0x80 ≤ b && b < 0xc0

/-- The code point that begins with a byte, and how many of the bytes behind it are its own. -/
def codeAt? (b : Nat) (s : List Nat) : Option (Nat × Nat) :=
  match opening? b with
  | none => none
  | some (more, bits, least) =>
    let n := (s.take more).foldl (fun n c => 64 * n + (c - 0x80)) bits
    if more ≤ s.length ∧ (s.take more).all isTail ∧ least ≤ n ∧ n < 0x110000 ∧ !isHalfCode n then
      some (n, more)
    else none

def codesOfBytes : Nat → List Nat → List Nat
  | _, [] => []
  | skip + 1, _ :: s => codesOfBytes skip s
  | 0, b :: s =>
    match codeAt? b s with
    | some (n, more) => n :: codesOfBytes more s
    | none => (0xdc00 + b) :: codesOfBytes 0 s

def filed (s : String) : String :=
  if s.toList.contains mark then ofCodes (codesOfBytes 0 (bytes s)) else s

end TensorAsm.Text
