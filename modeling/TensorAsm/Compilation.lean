import TensorAsm.Circuit.Reader
import TensorAsm.Pipeline.Run
import TensorAsm.Publish
/-!
Compiling files: the inputs are read, the circuit is compiled, and both outputs are published
together.
-/

namespace TensorAsm.Compilation

variable [Platform]

def splitName (path : String) : List Char × List Char :=
  let name := (path.toList.reverse.takeWhile (· != '/')).reverse
  (path.toList.take (path.length - name.length), name)

/-- Cuts the last extension off a name; dots at its start do not begin one. -/
def withoutExtension (name : List Char) : List Char :=
  let body := name.dropWhile (· == '.')
  if body.contains '.' then name.take (name.length - lastLength body - 1) else name
where
  lastLength (body : List Char) : Nat := (body.reverse.takeWhile (· != '.')).length

def defaultPaths (circuit : String) : String × String :=
  let (directory, name) := splitName circuit
  let stem := String.ofList (directory ++ withoutExtension name)
  (stem ++ ".zasm", stem ++ ".memory.csv")

/-- The name of a circuit: that of its file up to the last dot, if something stands on both sides
of it. -/
def circuitName (path : String) : String :=
  let name := (((WrittenPath.pieces path).filter fun c => c ≠ "" ∧ c ≠ ".").getLast?.getD "").toList
  let last := (name.reverse.takeWhile (· != '.')).length
  if name.contains '.' ∧ last ≠ 0 ∧ last + 1 < name.length then
    String.ofList (name.take (name.length - last - 1))
  else String.ofList name

def readJson (files : FileTree) (path : String) : Except Fault Json :=
  match files.read path with
  | .error f => .error f
  | .ok text => (Json.read text).mapError Fault.ofReadError

def loadConfig (files : FileTree) : Option String → Except Fault Json
  | none | some "" => .ok Config.packaged
  | some path =>
    match readJson files path with
    | .error f => .error f
    | .ok (.obj fields) => .ok (.obj fields)
    | .ok _ => .error (.invalid .configNotObject)

def loadCircuit (files : FileTree) (circuit : String) (witness : Option String) (modulus : Int) :
    Except Fault Circuit.Loaded := do
  let description ← readJson files circuit
  let some witness := witness | throw .wrongKind
  let values ← readJson files witness
  let g ← Circuit.read description
  let w ← Witness.read modulus g values
  return ⟨circuitName circuit, g, w⟩

/-- What is to be compiled, and where to. A witness that is no path is refused when it is its turn
to be read. -/
structure Request where
  circuit : String
  witness : Option String
  program : Option String
  memory : Option String
  config : Option String
  options : Json
  printAfterAll : Bool
  printMetrics : Bool

structure Outcome where
  result : Except Fault Artifact
  printed : String
  log : List Log.Entry
  files : FileTree

def loadedEntry (r : Request) (c : Circuit.Loaded) : Log.Entry :=
  Log.info "zkasm.loader" ("loaded " ++ r.circuit ++ ": " ++ natText c.graph.tensors.length
    ++ " tensors, " ++ natText c.graph.operations.length ++ " operations")

def wroteEntry (program memory : String) (a : Artifact) : Log.Entry :=
  Log.info "zkasm.compile" ("wrote " ++ program ++ " (" ++ natText a.instructions
    ++ " instructions) and " ++ memory ++ " (" ++ natText a.cells ++ " cells)")

def chosen (given : Option String) (default : String) : String :=
  match given with
  | none | some "" => default
  | some path => path

def Request.paths (r : Request) : String × String :=
  let (program, memory) := defaultPaths r.circuit
  (chosen r.program program, chosen r.memory memory)

def load (files : FileTree) (r : Request) : Except Fault (Json × Circuit.Loaded) := do
  let config ← loadConfig files r.config
  let modulus ← Config.modulus config
  let c ← loadCircuit files r.circuit r.witness modulus
  return (config, c)

def Request.outputs (r : Request) (a : Artifact) : List (String × Option String) :=
  Ordered.ofList [(r.paths.1, some a.program), (r.paths.2, some a.memory)]

def publishArtifact (failures : Publish.Failures) (files : FileTree) (r : Request) (a : Artifact) :
    Publish.Outcome :=
  Publish.publishWith failures files (r.outputs a)

def run (failures : Publish.Failures) (files : FileTree) (r : Request) : Outcome :=
  match load files r with
  | .error f => ⟨.error f, "", [], files⟩
  | .ok (config, c) =>
    let (result, printed, log) :=
      Pipeline.compile files config r.options r.printAfterAll r.printMetrics c
    let log := loadedEntry r c :: log
    match result with
    | .error f => ⟨.error f, printed, log, files⟩
    | .ok a =>
      let outcome := publishArtifact failures files r a
      match outcome.result with
      | .error f => ⟨.error f, printed, log ++ outcome.log, outcome.disk.tree⟩
      | .ok () =>
        ⟨.ok a, printed, log ++ outcome.log ++ [wroteEntry r.paths.1 r.paths.2 a],
          outcome.disk.tree⟩

end TensorAsm.Compilation
