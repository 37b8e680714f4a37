import TensorAsm.Json.Number
/-!
Options of passes. Keys are values; numbers are the same key when they have the same value,
and what is no number is one key.
-/

namespace TensorAsm.Pipeline

variable [Platform]

abbrev Options := List (Json × Json)

namespace Options

def truthNumber? : Json → Option Int
  | .int n => some n
  | .bool b => some (if b then 1 else 0)
  | _ => none

def sameNumber (n : Int) (x : Float) : Bool := Binary64.intLe n x && Binary64.intLe (-n) (-x)

def sameKey : Json → Json → Bool
  | .null, .null => true
  | .str s, .str t => s == t
  | .float x, .float y => x == y || (x.isNaN && y.isNaN)
  | .float x, k => (truthNumber? k).any (sameNumber · x)
  | k, .float x => (truthNumber? k).any (sameNumber · x)
  | j, k =>
    match truthNumber? j, truthNumber? k with
    | some a, some b => a == b
    | _, _ => false

def isKey : Json → Bool
  | .arr _ | .obj _ => false
  | _ => true

def insert (key value : Json) : Options → Options
  | [] => [(key, value)]
  | (k, v) :: rest => if sameKey k key then (k, value) :: rest else (k, v) :: insert key value rest

def put (key value : Json) (o : Options) : Except Fault Options :=
  if isKey key then .ok (insert key value o) else .error .wrongKind

def get? (o : Options) (name : String) : Option Json :=
  (o.find? fun e => sameKey e.1 (.str name)).map (·.2)

def getD (o : Options) (name : String) (default : Json) : Json := (o.get? name).getD default

def members? : Json → Option (List Json)
  | .arr items => some items
  | .obj fields => some (fields.map fun f => .str f.1)
  | .str s => some ((Text.symbols s).map .str)
  | _ => none

def addPairs (o : Options) (i : Nat) : List Json → Except Fault Options
  | [] => .ok o
  | item :: rest =>
    match members? item with
    | none => .error .wrongKind
    | some [key, value] =>
      match o.put key value with
      | .error f => .error f
      | .ok next => addPairs next (i + 1) rest
    | some items => .error (.invalid (.pairLength i items.length))

def read : Json → Except Fault Options
  | .obj fields => .ok (fields.map fun f => (.str f.1, f.2))
  | j =>
    match members? j with
    | none => .error .wrongKind
    | some items => addPairs [] 0 items

def text (o : Options) : String :=
  "\x7b" ++ String.intercalate ", " (o.map fun e => e.1.shown ++ ": " ++ e.2.shown) ++ "\x7d"

def numbers (o : Options) : List Int := o.flatMap fun e => e.1.numbers ++ e.2.numbers

def text? (o : Options) : Except Fault String := written o.numbers o.text

def listed (o : Options) : String :=
  let s := String.intercalate ", " (o.map fun e => e.1.text ++ "=" ++ e.2.text)
  if s.isEmpty then "(default)" else s

def listed? (o : Options) : Except Fault String := written o.numbers o.listed

end Options

structure PassConfig where
  name : String
  enabled : Json
  options : Options

def PassConfig.plain (name : String) : PassConfig := ⟨name, .bool true, []⟩

abbrev Settings := List (String × PassConfig)

namespace Settings

def addPass (s : Settings) (name : String) : Json → Except Fault Settings
  | .obj fields =>
    match Options.read ((Ordered.get? "options" fields).getD (.obj [])) with
    | .error f => .error f
    | .ok options =>
      .ok (Ordered.put name ⟨name, (Ordered.get? "enabled" fields).getD (.bool true), options⟩ s)
  | _ => .error (.invalid (.passNotObject name))

/-- Takes over entries one by one; those before a bad one stay. -/
def addPasses (s : Settings) : List (String × Json) → Settings × Option Fault
  | [] => (s, none)
  | (name, entry) :: rest =>
    match s.addPass name entry with
    | .error f => (s, some f)
    | .ok next => addPasses next rest

def load (s : Settings) : Json → Settings × Option Fault
  | .obj fields =>
    match (Ordered.get? "passes" fields).getD (.obj []) with
    | .obj passes => s.addPasses passes
    | _ => (s, some (.invalid .passesNotObject))
  | _ => (s, some .noMember)

def configFor (s : Settings) (name : String) : PassConfig :=
  (Ordered.get? name s).getD (.plain name)

/-- Sets one option; the entry of the pass is made even if the key cannot be one. -/
def override (s : Settings) (name : String) (key value : Json) : Settings × Option Fault :=
  let c := s.configFor name
  match c.options.put key value with
  | .ok options => (Ordered.put name { c with options := options } s, none)
  | .error f => (Ordered.put name c s, some f)

end Settings

end TensorAsm.Pipeline
