import TensorAsm.Decimal
import TensorAsm.Ordered
/-!
Decoded documents. Integers and doubles are different values, and an object keeps the order of
its fields.
-/

namespace TensorAsm

inductive Json where
  | null
  | bool (b : Bool)
  | int (n : Int)
  | float (x : Float)
  | str (s : String)
  | arr (items : List Json)
  | obj (fields : List (String × Json))
  deriving Inhabited

namespace Json

def boolText (b : Bool) : String := if b then "True" else "False"

def bracketed (opening : String) (items : List String) (closing : String) : String :=
  opening ++ String.intercalate ", " items ++ closing

mutual

/-- The text of a value as it stands inside other values and in messages. -/
def shown : Json → String
  | .null => "None"
  | .bool b => boolText b
  | .int n => Numeral.write n
  | .float x => Decimal.write x
  | .str s => Text.quoted s
  | .arr items => bracketed "[" (shownItems items) "]"
  | .obj fields => bracketed "\x7b" (shownFields fields) "\x7d"

def shownItems : List Json → List String
  | [] => []
  | j :: js => shown j :: shownItems js

def shownFields : List (String × Json) → List String
  | [] => []
  | (k, j) :: fs => (Text.quoted k ++ ": " ++ shown j) :: shownFields fs

end

/-- The text of a value by itself: a string stands without quotes. -/
def text : Json → String
  | .str s => s
  | j => j.shown

mutual

def numbers : Json → List Int
  | .int n => [n]
  | .arr items => numbersOf items
  | .obj fields => numbersIn fields
  | _ => []

def numbersOf : List Json → List Int
  | [] => []
  | j :: js => numbers j ++ numbersOf js

def numbersIn : List (String × Json) → List Int
  | [] => []
  | (_, j) :: fs => numbers j ++ numbersIn fs

end

mutual

/-- Lists are gone through at any depth. -/
def leaves : Json → List Json
  | .arr items => leavesOf items
  | j => [j]

def leavesOf : List Json → List Json
  | [] => []
  | j :: js => leaves j ++ leavesOf js

end

/-- Neither absent, false, zero nor empty. -/
def truthy : Json → Bool
  | .null => false
  | .bool b => b
  | .int n => n != 0
  | .float x => x != 0.0
  | .str s => !s.isEmpty
  | .arr items => !items.isEmpty
  | .obj fields => !fields.isEmpty

def get? (key : String) : Json → Option Json
  | .obj fields => Ordered.get? key fields
  | _ => none

def int? : Json → Option Int
  | .int n => some n
  | _ => none

end Json

end TensorAsm
