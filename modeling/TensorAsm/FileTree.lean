import TensorAsm.Fault
import TensorAsm.Text.Bytes
/-!
Files and directories with a current directory, and how written paths are followed. A place is the
list of names from the root, without dots. There are no links, and whatever is there may be read
and changed.
-/

namespace TensorAsm

inductive FileNode where
  | file (text : String)
  | directory
  deriving DecidableEq, Repr

abbrev Place := List String

/-- A path as it is written: its parts, by what they are called on disk, and whether it insists on a
directory. -/
structure WrittenPath where
  blank : Bool
  absolute : Bool
  parts : List String
  insists : Bool
  deriving DecidableEq, Repr

namespace WrittenPath

def pathLimit : Nat := 4096

def nameLimit : Nat := 255

def textRefusal? (s : String) : Option Invalid :=
  match Text.halves? (fun n => Text.isHalfCode n && !Text.isByteHalf n) s with
  | some (place, halves) => some (.noEncoding place halves)
  | none => if s.toList.contains (Char.ofNat 0) then some .nulInPath else none

def refusal? (s : String) : Option Fault :=
  match textRefusal? s with
  | some v => some (.invalid v)
  | none => if pathLimit ≤ Text.byteLength s then some (.host .nameTooLong) else none

def pieces (s : String) : List String := (Text.splitOn '/' s.toList).map String.ofList

def ofString (s : String) : WrittenPath :=
  let all := pieces (Text.filed s)
  ⟨s.isEmpty, s.toList.head? = some '/', all.filter (· ≠ ""), all.getLast? = some ""⟩

def endsInDots (s : String) : Bool :=
  match (ofString s).parts.getLast? with
  | some c => c == "." || c == ".."
  | none => true

def descend (place : Place) (part : String) : Place :=
  if part = "." then place else if part = ".." then place.dropLast else place ++ [part]

def start (p : WrittenPath) (here : Place) : Place := if p.absolute then [] else here

/-- The place that the text of a path denotes, whether or not it is there. -/
def place (p : WrittenPath) (here : Place) : Place := p.parts.foldl descend (p.start here)

def lastPiece (s : String) : String := (pieces s).getLast?.getD ""

def placeLength (p : Place) : Nat := p.foldr (fun name n => Text.byteLength name + 1 + n) 0

end WrittenPath

/-- The nodes but for the root, and the current directory. -/
structure FileTree where
  nodes : List (Place × FileNode)
  here : Place

namespace FileTree

def node? (t : FileTree) (p : Place) : Option FileNode :=
  if p.isEmpty then some .directory else t.nodes.lookup p

def put (t : FileTree) (p : Place) (n : FileNode) : FileTree :=
  { t with nodes := Ordered.put p n t.nodes }

def erase (t : FileTree) (p : Place) : FileTree := { t with nodes := t.nodes.filter (·.1 != p) }

def enter (t : FileTree) (place : Place) (part : String) : Except HostError Place :=
  match t.node? place with
  | none => .error .missing
  | some (.file _) => .error .notDirectory
  | some .directory =>
    if WrittenPath.nameLimit < Text.byteLength part then .error .nameTooLong
    else .ok (WrittenPath.descend place part)

def walk (t : FileTree) (s : String) : Except HostError Place :=
  let p := WrittenPath.ofString s
  if p.blank then .error .missing else p.parts.foldlM t.enter (p.start t.here)

/-- The place a path leads to; all but the last part have to be there. -/
def resolve (t : FileTree) (s : String) : Except Fault Place :=
  match WrittenPath.refusal? s with
  | some f => .error f
  | none => (t.walk s).mapError .host

def read (t : FileTree) (s : String) : Except Fault String :=
  match t.resolve s with
  | .error f => .error f
  | .ok place =>
    match t.node? place with
    | none => .error (.host .missing)
    | some .directory => .error (.host .isDirectory)
    | some (.file text) =>
      if (WrittenPath.ofString s).insists then .error (.host .notDirectory) else .ok text

def isFile (t : FileTree) (s : String) : Bool := (t.read s).isOk

def temporaryExtra : Nat := 14

def checkNew (t : FileTree) (dir : Place) (length : Nat) : Except HostError Unit :=
  if WrittenPath.pathLimit ≤ WrittenPath.placeLength dir + length + 1 then .error .nameTooLong
  else
    match dir.foldlM t.enter [] with
    | .error e => .error e
    | .ok place =>
      match t.node? place with
      | some .directory => if WrittenPath.nameLimit < length then .error .nameTooLong else .ok ()
      | some (.file _) => .error .notDirectory
      | none => .error .missing

/-- Whether a file can be made beside a path, going by its text. Its name is made from the last
piece of the path. -/
def checkBeside (t : FileTree) (s : String) : Except Fault Unit :=
  match WrittenPath.textRefusal? s with
  | some v => .error (.invalid v)
  | none =>
    (t.checkNew ((WrittenPath.ofString s).place t.here).dropLast
      (Text.byteLength (WrittenPath.lastPiece s) + temporaryExtra)).mapError .host

def moveTo (t : FileTree) (s text : String) : Except Fault FileTree :=
  match t.resolve s with
  | .error f => .error f
  | .ok place =>
    if WrittenPath.endsInDots s then .error (.host .busy)
    else if (WrittenPath.ofString s).insists then .error (.host .notDirectory)
    else
      match t.node? place with
      | some .directory => .error (.host .isDirectory)
      | _ => .ok (t.put place (.file text))

def take (t : FileTree) (s : String) : Except Fault (String × FileTree) :=
  match t.read s, t.resolve s with
  | .ok text, .ok place => .ok (text, t.erase place)
  | .error f, _ => .error f
  | _, .error f => .error f

def addDirectory (t : FileTree) (p : Place) : FileTree :=
  (List.range p.length).foldl (fun t i =>
    if (t.node? (p.take (i + 1))).isSome then t else t.put (p.take (i + 1)) .directory) t

def empty (here : Place) : FileTree := (FileTree.mk [] here).addDirectory here

def add (t : FileTree) (s : String) : Option String → FileTree
  | none => t.addDirectory ((WrittenPath.ofString s).place t.here)
  | some text =>
    let place := (WrittenPath.ofString s).place t.here
    (t.addDirectory place.dropLast).put place (.file text)

def ofFiles (here : Place) (files : List (String × Option String)) : FileTree :=
  files.foldl (fun t f => t.add f.1 f.2) (empty here)

def below (t : FileTree) : List (Place × FileNode) :=
  t.nodes.filterMap fun (p, n) =>
    if t.here.isPrefixOf p && t.here.length < p.length then some (p.drop t.here.length, n) else none

def nameOf (p : Place) (n : FileNode) : String :=
  String.intercalate "/" p ++ (match n with | .directory => "/" | .file _ => "")

def names (t : FileTree) : List String :=
  (t.below.map fun (p, n) => nameOf p n).mergeSort Text.le

end FileTree

end TensorAsm
