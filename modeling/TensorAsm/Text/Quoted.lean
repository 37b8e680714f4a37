import TensorAsm.Text.Half
import TensorAsm.Text.Printable
/-!
Quoted texts as they stand in messages: single quotes, double ones for a text that has a single
quote and no double one, a backslash before what would end the text, and an escape for every
character that is not printable and for halves of pairs.
-/

namespace TensorAsm.Text

def hexDigits : Nat → Nat → List Char
  | 0, _ => []
  | width + 1, n => hexDigits width (n / 16) ++ [Nat.digitChar (n % 16)]

def escapeCode (n : Nat) : List Char :=
  if n < 0x100 then '\\' :: 'x' :: hexDigits 2 n
  else if n < 0x10000 then '\\' :: 'u' :: hexDigits 4 n
  else '\\' :: 'U' :: hexDigits 8 n

def escape (quote c : Char) : List Char :=
  if c = quote ∨ c = '\\' then ['\\', c]
  else if c = '\n' then ['\\', 'n']
  else if c = '\r' then ['\\', 'r']
  else if c = '\t' then ['\\', 't']
  else if isPrintable c then [c]
  else escapeCode c.toNat

def escapeAny (quote : Char) (n : Nat) : List Char :=
  if isHalfCode n then escapeCode n else escape quote (Char.ofNat n)

def quoteFor (s : List Char) : Char := if '\'' ∈ s ∧ '"' ∉ s then '"' else '\''

def quotedChars (s : List Char) : List Char :=
  quoteFor s :: (codes s).flatMap (escapeAny (quoteFor s)) ++ [quoteFor s]

def quoted (s : String) : String := String.ofList (quotedChars s.toList)

def plain (s : String) : String :=
  if s.toList.contains mark then
    String.ofList ((codes s.toList).flatMap fun n =>
      if isHalfCode n then escapeCode n else [Char.ofNat n])
  else s

end TensorAsm.Text
