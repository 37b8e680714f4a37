import TensorAsm.Json.Reader
/-!
Everything that can go wrong, as causes with what they are about, and the one place where each
cause is put into words. A refusal of the compiler has a kind, an exit status and an entity.
-/

namespace TensorAsm

def natText (n : Nat) : String := Numeral.write n

def shapeText (shape : List Nat) : String := Json.bracketed "[" (shape.map natText) "]"

def tupleText : List Nat → String
  | [n] => "(" ++ natText n ++ ",)"
  | shape => Json.bracketed "(" (shape.map natText) ")"

def namesText (names : List String) : String := Json.bracketed "[" (names.map Text.quoted) "]"

def intsText (ns : List Int) : String := Json.bracketed "[" (ns.map Numeral.write) "]"

def nodeText (node : Int) : String := "node " ++ Numeral.write node

inductive Invalid where
  | numeral (d : Numeral.Defect)
  | decimal (text : String)
  | booleanValue (b : Bool)
  | notInteger (given : Json)
  | denominator
  | negativeShift
  | notANumber
  | unknownMember (type : String) (given : Json)
  | unknownRegion (name : String)
  | missingRegions (names : List String)
  | negativeRegion
  | capacityExceeded (needed capacity : Int)
  | modulus (given : Int)
  | noTableFunction (name : String)
  | reshape (count : Nat) (shape : List Nat)
  | arrayTooBig
  | tooManyDimensions (limit given : Nat)
  | dimensionTooGreat
  | tableHeader
  | rowFields (given : Nat)
  | unknownMnemonic (line : Nat) (mnemonic : String)
  | badOperand (line : Nat) (operand : String)
  | operandCount (line : Nat) (mnemonic : String)
  | configNotObject
  | passesNotObject
  | passNotObject (name : String)
  | pairLength (index length : Nat)
  | lookupBits (given : Json)
  | checkMode (mode : String)
  | tolerance (given : Float)
  | unknownStage (name : String)
  | passStage (pass stage : String)
  | document
  | nulInPath
  | negativeDescriptor
  | noEncoding (place : Nat) (halves : List Nat)
  | unwritable

def Invalid.message : Invalid → String
  | .numeral d => d.message
  | .decimal text => "could not convert string to float: " ++ Text.quoted text
  | .booleanValue b => "boolean is not a field value: " ++ Json.boolText b
  | .notInteger given => "not an integer value: " ++ given.shown
  | .denominator => "denominator must be positive"
  | .negativeShift => "negative shift count"
  | .notANumber => "cannot convert float NaN to integer"
  | .unknownMember type given => given.shown ++ " is not a valid " ++ type
  | .unknownRegion name => "unknown namespace '" ++ name ++ "' in memory config"
  | .missingRegions names => "memory layout has no size for namespaces " ++ namesText names
  | .negativeRegion => "namespace sizes must be non-negative"
  | .capacityExceeded needed capacity =>
    "namespaces need " ++ Numeral.write needed ++ " cells but memory capacity is "
      ++ Numeral.write capacity
  | .modulus given => "field modulus must be an odd prime, got " ++ Numeral.write given
  | .noTableFunction name => "no table function for '" ++ name ++ "'"
  | .reshape count shape =>
    "cannot reshape array of size " ++ natText count ++ " into shape "
      ++ "(" ++ String.intercalate "," (shape.map natText)
      ++ (if shape.length = 1 then ",)" else ")")
  | .arrayTooBig =>
    "array is too big; `arr.size * arr.dtype.itemsize` is larger than the maximum possible size."
  | .tooManyDimensions limit given =>
    "maximum supported dimension for an ndarray is currently " ++ natText limit ++ ", found "
      ++ natText given
  | .dimensionTooGreat => "Maximum allowed dimension exceeded"
  | .tableHeader => "memory table must start with 'address,value'"
  | .rowFields given =>
    if given < 2 then "not enough values to unpack (expected 2, got " ++ natText given ++ ")"
    else "too many values to unpack (expected 2)"
  | .unknownMnemonic line mnemonic =>
    "line " ++ natText line ++ ": unknown mnemonic '" ++ mnemonic ++ "'"
  | .badOperand line operand => "line " ++ natText line ++ ": bad operand '" ++ operand ++ "'"
  | .operandCount line mnemonic =>
    "line " ++ natText line ++ ": wrong operand count for '" ++ mnemonic ++ "'"
  | .configNotObject => "compile config must be a JSON object"
  | .passesNotObject => "config 'passes' must be an object"
  | .passNotObject name => "config for pass '" ++ name ++ "' must be an object"
  | .pairLength index length =>
    "dictionary update sequence element #" ++ natText index ++ " has length " ++ natText length
      ++ "; 2 is required"
  | .lookupBits given => "lookup_bits must be an integer in [1, 24], got " ++ given.shown
  | .checkMode mode => "check_mode must be one of ('safe', 'unsafe'), got '" ++ mode ++ "'"
  | .tolerance given => "tolerance must be non-negative, got " ++ Decimal.write given
  | .unknownStage name => "unknown IR type '" ++ name ++ "'"
  | .passStage pass stage => "Pass '" ++ pass ++ "' uses unknown IR type '" ++ stage ++ "'"
  | .document => "malformed document"
  | .nulInPath => "embedded null byte"
  | .negativeDescriptor => "negative file descriptor"
  | .noEncoding place halves =>
    "'utf-8' codec can't encode character" ++ halvesText place halves ++ ": surrogates not allowed"
  | .unwritable =>
    "Exceeds the limit (4300 digits) for integer string conversion; use "
      ++ "sys.set_int_max_str_digits() to increase the limit"
where
  halvesText (place : Nat) : List Nat → String
    | [n] => " " ++ Text.quoted (Text.ofCodes [n]) ++ " in position " ++ natText place
    | halves =>
      "s in position " ++ natText place ++ "-" ++ natText (place + halves.length - 1)

def Invalid.numbers : Invalid → List Int
  | .notInteger given | .unknownMember _ given | .lookupBits given => given.numbers
  | .capacityExceeded needed capacity => [needed, capacity]
  | .modulus given => [given]
  | _ => []

/-- A defect as it is reported: if its message has an integer that is not written, as that. -/
def Invalid.reported (v : Invalid) : Invalid :=
  if v.numbers.all Numeral.isWritable then v else .unwritable

inductive CircuitDefect where
  | notObject
  | missingSection (name : String)
  | idList (key : String)
  | tensorWithoutId (entry : Json)
  | invalidShape (tensor : String) (given : Json)
  | invalidScale (tensor : String) (given : Json)
  | unknownVisibility (tensor : String) (given : Json)
  | tensorTwice (tensor : String)
  | operationWithoutId (entry : Json)
  | noKind (node : Int)
  | inputsNotList (node : Int)
  | noOutput (node : Int)
  | nodeScale (node : Int) (given : Json)
  | paramsNotObject (node : Int)
  | nodeTwice (node : Int)
  | undefinedTensor (node : Int) (tensor : String)
  | producedTwice (tensor : String) (first second : Int)
  | scaleDisagrees (node declared : Int) (output : String) (actual : Int)
  | undefinedDeclared (tensor : String)
  | producedInput (tensor : String) (node : Int)
  | noProducer (tensor : String)
  | cycle (nodes : List Int)
  | inputCount (node : Int) (kind : String) (allowed : List Nat) (given : Nat)
  | lookupBits (node : Int) (given : Json)
  | fewBreakpoints (node : Int)
  | badBreakpoints (node : Int)
  | convPair (node : Int) (name : String)
  | convRange (node : Int)
  | clampBounds (node : Int)

def CircuitDefect.message : CircuitDefect → String
  | .notObject => "circuit description must be a JSON object"
  | .missingSection name => "circuit description has no '" ++ name ++ "' list"
  | .idList key => "circuit '" ++ key ++ "' must be a list"
  | .tensorWithoutId entry => "tensor entry without an id: " ++ entry.shown
  | .invalidShape tensor given => "tensor '" ++ tensor ++ "' has invalid shape " ++ given.shown
  | .invalidScale tensor given => "tensor '" ++ tensor ++ "' has non-integer scale " ++ given.shown
  | .unknownVisibility tensor given =>
    "tensor '" ++ tensor ++ "' has unknown visibility " ++ given.shown
  | .tensorTwice tensor => "tensor '" ++ tensor ++ "' declared twice"
  | .operationWithoutId entry => "operation entry without an integer id: " ++ entry.shown
  | .noKind node => nodeText node ++ " has no kind"
  | .inputsNotList node => nodeText node ++ " inputs must be a list"
  | .noOutput node => nodeText node ++ " has no output tensor"
  | .nodeScale node given => nodeText node ++ " has non-integer scale " ++ given.shown
  | .paramsNotObject node => nodeText node ++ " params must be an object"
  | .nodeTwice node => nodeText node ++ " declared twice"
  | .undefinedTensor node tensor =>
    nodeText node ++ " references undefined tensor '" ++ tensor ++ "'"
  | .producedTwice tensor first second =>
    "tensor '" ++ tensor ++ "' is produced by both " ++ nodeText first ++ " and " ++ nodeText second
  | .scaleDisagrees node declared output actual =>
    nodeText node ++ " declares scale " ++ Numeral.write declared ++ " but its output '" ++ output
      ++ "' has scale " ++ Numeral.write actual
  | .undefinedDeclared tensor => "declared graph tensor '" ++ tensor ++ "' is undefined"
  | .producedInput tensor node =>
    "graph input '" ++ tensor ++ "' is produced by " ++ nodeText node
  | .noProducer tensor =>
    "tensor '" ++ tensor ++ "' has no producer and is neither a graph input nor a constant"
  | .cycle nodes => "op graph contains a cycle through nodes " ++ intsText nodes
  | .inputCount node kind allowed given =>
    nodeText node ++ " (" ++ kind ++ ") takes " ++ String.intercalate " or " (allowed.map natText)
      ++ " inputs, got " ++ natText given
  | .lookupBits node given =>
    nodeText node ++ " lookup bits must be an integer in [1, 24], got " ++ given.shown
  | .fewBreakpoints node => nodeText node ++ " piecewise_linear needs at least two breakpoints"
  | .badBreakpoints node => nodeText node ++ " breakpoints must be [x, y] number pairs"
  | .convPair node name => nodeText node ++ " conv " ++ name ++ " must be an int or [h, w]"
  | .convRange node => nodeText node ++ " conv stride/padding out of range"
  | .clampBounds node => nodeText node ++ " clamp must be [lo, hi]"

def CircuitDefect.entity : CircuitDefect → Option String
  | .notObject | .missingSection _ | .idList _ | .tensorWithoutId _ | .operationWithoutId _ => none
  | .invalidShape tensor _ | .invalidScale tensor _ | .unknownVisibility tensor _
  | .tensorTwice tensor | .undefinedTensor _ tensor | .producedTwice tensor _ _
  | .undefinedDeclared tensor | .producedInput tensor _ | .noProducer tensor => some tensor
  | .noKind node | .inputsNotList node | .noOutput node | .nodeScale node _ | .paramsNotObject node
  | .nodeTwice node | .scaleDisagrees node _ _ _ | .inputCount node _ _ _ | .lookupBits node _
  | .fewBreakpoints node | .badBreakpoints node | .convPair node _ | .convRange node
  | .clampBounds node => some (nodeText node)
  | .cycle nodes => nodes.head?.map nodeText

def CircuitDefect.numbers : CircuitDefect → List Int
  | .notObject | .missingSection _ | .idList _ | .tensorTwice _ | .undefinedDeclared _
  | .noProducer _ => []
  | .tensorWithoutId given | .operationWithoutId given | .invalidShape _ given
  | .invalidScale _ given | .unknownVisibility _ given => given.numbers
  | .noKind node | .inputsNotList node | .noOutput node | .paramsNotObject node | .nodeTwice node
  | .undefinedTensor node _ | .producedInput _ node | .inputCount node _ _ _
  | .fewBreakpoints node | .badBreakpoints node | .convPair node _ | .convRange node
  | .clampBounds node => [node]
  | .nodeScale node given | .lookupBits node given => node :: given.numbers
  | .producedTwice _ first second => [first, second]
  | .scaleDisagrees node declared _ actual => [node, declared, actual]
  | .cycle nodes => nodes

inductive ShapeComplaint where
  | unexplained
  | notBroadcastable
  | expected (shape : List Nat)
  | innerDimensions
  | scalarOutput
  | channels
  | kernelTooLarge
  | bias
  | emptyReduction
  deriving DecidableEq

def ShapeComplaint.detail : ShapeComplaint → String
  | .unexplained => ""
  | .notBroadcastable => ": not broadcastable"
  | .expected shape => ": expected output shape " ++ shapeText shape
  | .innerDimensions => ": inner dimensions differ"
  | .scalarOutput => ": reduction output must be a scalar"
  | .channels => ": channel dimensions differ"
  | .kernelTooLarge => ": kernel larger than padded input"
  | .bias => ": bias must have one value per output channel"
  | .emptyReduction => ": empty reduction"

def ShapeComplaint.numbers : ShapeComplaint → List Int
  | .expected shape => shape.map Int.ofNat
  | _ => []

inductive WitnessGap where
  | notObject
  | missing (tensor : String)
  | count (tensor : String) (given : Nat) (shape : List Nat) (needed : Int)
  | value (tensor : String) (why : Invalid)
  | unfit (tensor : String)
  | derivedUnfit (node : Int) (bits : Nat) (address : Int)
  | notDerived (address : Int) (block : String)
  | noElement (tensor : String) (index : Nat) (address : Int)

def WitnessGap.message : WitnessGap → String
  | .notObject => "witness must be a JSON object"
  | .missing tensor => "witness has no value for tensor '" ++ tensor ++ "'"
  | .count tensor given shape needed =>
    "witness for tensor '" ++ tensor ++ "' has " ++ natText given ++ " values, shape "
      ++ tupleText shape ++ " needs " ++ Numeral.write needed
  | .value tensor why => "tensor '" ++ tensor ++ "': " ++ why.message
  | .unfit tensor => "witness value for tensor '" ++ tensor ++ "' does not fit the field"
  | .derivedUnfit node bits address =>
    nodeText node ++ " derives a value of " ++ natText bits ++ " bits for cell ["
      ++ Numeral.write address ++ "], which does not fit the field"
  | .notDerived address block =>
    "no value derived for compiler cell [" ++ Numeral.write address ++ "] (" ++ block ++ ")"
  | .noElement tensor index address =>
    "witness has no value for tensor '" ++ tensor ++ "' element " ++ natText index ++ " (address "
      ++ Numeral.write address ++ ")"

def WitnessGap.entity : WitnessGap → Option String
  | .notObject => none
  | .missing tensor | .count tensor _ _ _ | .value tensor _ | .unfit tensor
  | .noElement tensor _ _ => some tensor
  | .derivedUnfit node _ _ => some (nodeText node)
  | .notDerived address _ => some ("address " ++ Numeral.write address)

def WitnessGap.numbers : WitnessGap → List Int
  | .notObject | .missing _ | .unfit _ => []
  | .count _ _ shape needed => needed :: shape.map Int.ofNat
  | .value _ why => why.numbers
  | .derivedUnfit node _ address => [node, address]
  | .notDerived address _ | .noElement _ _ address => [address]

inductive SkeletonDefect where
  | malformedMarker (line : Nat) (text : String)
  | unknownSlot (line : Nat) (name : String)
  | slotTwice (name : String) (first second : Nat)
  | unexpectedSlot (line : Nat) (name : String)
  | missingSlots (names : List String)
  deriving DecidableEq

def SkeletonDefect.message : SkeletonDefect → String
  | .malformedMarker line text =>
    "line " ++ natText line ++ ": malformed marker " ++ Text.quoted text
  | .unknownSlot line name => "line " ++ natText line ++ ": unknown slot '" ++ name ++ "'"
  | .slotTwice name first second =>
    "slot '" ++ name ++ "' appears twice (lines " ++ natText first ++ " and " ++
      natText second ++ ")"
  | .unexpectedSlot line name => "line " ++ natText line ++ ": unexpected slot '" ++ name ++ "'"
  | .missingSlots names => "skeleton is missing slots " ++ namesText names

def SkeletonDefect.entity : SkeletonDefect → Option String
  | .malformedMarker line _ | .unknownSlot line _ | .unexpectedSlot line _ =>
    some ("line " ++ natText line)
  | .slotTwice name _ _ => some name
  | .missingSlots names => names.head?

inductive InconsistencyCause where
  | mismatch (held computed : Int)
  | absent
  | outsideTable (value table : Int)
  deriving DecidableEq

/-- A replay that stopped: the cell it is about and the instruction counter. -/
structure Inconsistency where
  address : Int
  pc : Int
  cause : InconsistencyCause
  deriving DecidableEq

def Inconsistency.message (i : Inconsistency) : String :=
  let pc := Numeral.write i.pc
  let address := Numeral.write i.address
  match i.cause with
  | .mismatch held computed =>
    "cell [" ++ address ++ "] holds " ++ Numeral.write held ++ " but instruction " ++ pc
      ++ " computes " ++ Numeral.write computed
  | .absent =>
    "instruction " ++ pc ++ " reads cell [" ++ address ++ "] outside the memory table"
  | .outsideTable value table =>
    "instruction " ++ pc ++ ": value " ++ Numeral.write value ++ " at [" ++ address
      ++ "] is outside the table at [" ++ Numeral.write table ++ "]"

def Inconsistency.numbers (i : Inconsistency) : List Int :=
  i.address :: i.pc ::
    match i.cause with
    | .mismatch held computed => [held, computed]
    | .absent => []
    | .outsideTable value table => [value, table]

structure Exhaustion where
  region : String
  owner : String
  requested : Int
  used : Int
  size : Int
  deriving DecidableEq

def Exhaustion.message (e : Exhaustion) : String :=
  "namespace '" ++ e.region ++ "' exhausted allocating " ++ Numeral.write e.requested
    ++ " cells for '" ++ e.owner ++ "' (" ++ Numeral.write e.used ++ " of " ++ Numeral.write e.size
    ++ " cells already used)"

structure ShapeMismatch where
  node : Int
  kind : String
  operands : List (List Nat)
  output : List Nat
  complaint : ShapeComplaint
  deriving DecidableEq

def ShapeMismatch.message (m : ShapeMismatch) : String :=
  nodeText m.node ++ " (" ++ m.kind ++ ") operand shapes "
    ++ Json.bracketed "[" (m.operands.map shapeText) "]" ++ " incompatible with output shape "
    ++ shapeText m.output ++ m.complaint.detail

def ShapeMismatch.numbers (m : ShapeMismatch) : List Int :=
  m.node :: (m.output :: m.operands).flatten.map Int.ofNat ++ m.complaint.numbers

inductive CompileError where
  | circuit (d : CircuitDefect)
  | unsupported (kind : String) (node : Int)
  | shape (m : ShapeMismatch)
  | exhausted (e : Exhaustion)
  | witness (g : WitnessGap)
  | skeleton (d : SkeletonDefect)
  | replay (i : Inconsistency)

namespace CompileError

def kind : CompileError → String
  | .circuit _ => "GraphMalformed"
  | .unsupported _ _ => "UnsupportedOperation"
  | .shape _ => "ShapeMismatch"
  | .exhausted _ => "MemoryExhausted"
  | .witness _ => "WitnessIncomplete"
  | .skeleton _ => "TemplateMalformed"
  | .replay _ => "WitnessInconsistent"

def exitCode : CompileError → Nat
  | .circuit _ => 3
  | .unsupported _ _ => 4
  | .shape _ => 5
  | .exhausted _ => 6
  | .witness _ => 7
  | .skeleton _ => 8
  | .replay _ => 9

def message : CompileError → String
  | .circuit d => d.message
  | .unsupported kind node =>
    "no lowering for op kind '" ++ kind ++ "' (" ++ nodeText node ++ ")"
  | .shape m => m.message
  | .exhausted e => e.message
  | .witness g => g.message
  | .skeleton d => d.message
  | .replay i => i.message

def entity : CompileError → Option String
  | .circuit d => d.entity
  | .unsupported _ node => some (nodeText node)
  | .shape m => some (nodeText m.node)
  | .exhausted e => some e.owner
  | .witness g => g.entity
  | .skeleton d => d.entity
  | .replay i => some ("address " ++ Numeral.write i.address)

def numbers : CompileError → List Int
  | .circuit d => d.numbers
  | .unsupported _ node => [node]
  | .shape m => m.numbers
  | .exhausted e => [e.requested, e.used, e.size]
  | .witness g => g.numbers
  | .skeleton _ => []
  | .replay i => i.numbers

end CompileError

inductive HostError where
  | missing
  | notOpen
  | busy
  | notDirectory
  | isDirectory
  | nameTooLong
  deriving DecidableEq

def HostError.number : HostError → Nat
  | .missing => 2
  | .notOpen => 9
  | .busy => 16
  | .notDirectory => 20
  | .isDirectory => 21
  | .nameTooLong => 36

inductive Fault where
  | compile (e : CompileError)
  | invalid (v : Invalid)
  | wrongKind
  | noMember
  | missingKey
  | outOfRange
  | overflow
  | divisionByZero
  | outOfMemory
  | tooManyAxes (limit given : Nat)
  | listTooDeep
  | objectTooDeep
  | passOrder (pass expected current : String)
  | noArtifact (current : String)
  | host (e : HostError)

def Fault.message : Fault → String
  | .compile e => e.message
  | .invalid v => v.message
  | .tooManyAxes limit given =>
    "this function only supports up to " ++ natText limit ++ " dimensions but the array has "
      ++ natText given ++ "."
  | .listTooDeep =>
    "maximum recursion depth exceeded while decoding a JSON array from a unicode string"
  | .objectTooDeep =>
    "maximum recursion depth exceeded while decoding a JSON object from a unicode string"
  | .passOrder pass expected current =>
    "Pass '" ++ pass ++ "' expects input type '" ++ expected ++ "' but current state is '"
      ++ current ++ "'"
  | .noArtifact current =>
    "Pipeline did not produce an artifact, got '" ++ current ++ "' instead"
  | .host e => "[Errno " ++ natText e.number ++ "]"
  | _ => ""

def Fault.reported : Fault → Fault
  | .compile e => if e.numbers.all Numeral.isWritable then .compile e else .invalid .unwritable
  | .invalid v => .invalid v.reported
  | f => f

/-- A text with the given integers in it, unless one of them is not written. -/
def written (numbers : List Int) (text : String) : Except Fault String :=
  if numbers.all Numeral.isWritable then .ok text else .error (.invalid .unwritable)

def Json.text? (j : Json) : Except Fault String := written j.numbers j.text

def Fault.ofReadError : Json.ReadError → Fault
  | .malformed => .invalid .document
  | .tooLong digits => .invalid (.numeral (.tooLong digits))
  | .listTooDeep => .listTooDeep
  | .objectTooDeep => .objectTooDeep

/-- Work on a state that may end in a fault. -/
abbrev Stateful (σ : Type) := ExceptT Fault (StateM σ)

end TensorAsm
