/-!
Lines of a text. A line ends at any of the breaks below, a carriage return and the line feed
behind it make one break, and the last line needs none.
-/

namespace TensorAsm.Text

def isBreak (c : Char) : Bool :=
  let n := c.toNat
  (10 ≤ n && n ≤ 13) || (28 ≤ n && n ≤ 30) || n == 0x85 || n == 0x2028 || n == 0x2029

/-- The lines of a text of which `line` was read already, last character first. -/
def linesFrom (line : List Char) : List Char → List (List Char)
  | [] => if line.isEmpty then [] else [line.reverse]
  | '\r' :: '\n' :: s => line.reverse :: linesFrom [] s
  | c :: s => if isBreak c then line.reverse :: linesFrom [] s else linesFrom (c :: line) s

def lines (s : List Char) : List (List Char) := linesFrom [] s

def numberedFrom {α : Type} (n : Nat) : List α → List (Nat × α)
  | [] => []
  | a :: as => (n, a) :: numberedFrom (n + 1) as

end TensorAsm.Text
