import TensorAsm.Arguments
import TensorAsm.Compilation
/-!
The compiler's command line: its flags, what they ask for, and how a run ends.
-/

namespace TensorAsm.CommandLine

variable [Platform]

inductive Meaning where
  | help | program | memory | config | checkMode | tolerance | lookupBits
  | printProgram | printAfterAll | printMetrics | verbose
  deriving DecidableEq, Repr

def flags : List (Arguments.Flag Meaning) := [
  ⟨["-h", "--help"], false, .help⟩,
  ⟨["-o", "--output"], true, .program⟩,
  ⟨["-m", "--memory"], true, .memory⟩,
  ⟨["--config"], true, .config⟩,
  ⟨["--check-mode"], true, .checkMode⟩,
  ⟨["--tolerance"], true, .tolerance⟩,
  ⟨["--lookup-bits"], true, .lookupBits⟩,
  ⟨["--print-program"], false, .printProgram⟩,
  ⟨["--print-after-all"], false, .printAfterAll⟩,
  ⟨["--print-metrics"], false, .printMetrics⟩,
  ⟨["-v", "--verbose"], false, .verbose⟩]

structure Wishes where
  paths : List Arguments.Value
  program : Option String
  memory : Option String
  config : Option String
  checkMode : Option Json
  tolerance : Option Json
  lookupBits : Option Json
  printProgram : Bool
  printAfterAll : Bool
  printMetrics : Bool
  verbosity : Nat

def Wishes.nothing : Wishes := ⟨[], none, none, none, none, none, none, false, false, false, 0⟩

/-- How a run ends. A refusal has a message and a status; any other fault breaks it off. -/
inductive Ending where
  | done
  | help
  | usage
  | refused (f : Fault)
  | broken (f : Fault)

namespace Ending

def ofFault (f : Fault) : Ending :=
  match f.reported with
  | .compile e => .refused (.compile e)
  | .invalid v => .refused (.invalid v)
  | .host e => .refused (.host e)
  | f => .broken f

def status : Ending → Nat
  | .done | .help => 0
  | .usage => 2
  | .refused (.compile e) => e.exitCode
  | .refused _ => 2
  | .broken _ => 1

def complaint? : Ending → Option String
  | .refused (.compile e) => some ("error[" ++ e.kind ++ "]: " ++ e.message)
  | .refused f => some ("error[InputError]: " ++ f.message)
  | _ => none

end Ending

/-- The value of an option from the text given for it; nothing at all is an empty list. -/
def optionValue (read : String → Option Json) : Option Arguments.Value → Except Ending Json
  | some .nothing => .ok (.arr [])
  | some (.text s) =>
    match read s with
    | some j => .ok j
    | none => .error .usage
  | none => .error .usage

def readMode (s : String) : Option Json :=
  if s = "safe" ∨ s = "unsafe" then some (.str s) else none

def readTolerance (s : String) : Option Json := (Decimal.read? s).map .float

def readBits (s : String) : Option Json :=
  match Numeral.read .decimal s with
  | .ok n => some (.int n)
  | .error _ => none

def Wishes.add (w : Wishes) : Arguments.Event Meaning → Except Ending Wishes
  | .positional path => .ok { w with paths := w.paths ++ [path] }
  | .flag .help _ => .error .help
  | .flag .program v => .ok { w with program := v.bind (·.text?) }
  | .flag .memory v => .ok { w with memory := v.bind (·.text?) }
  | .flag .config v => .ok { w with config := v.bind (·.text?) }
  | .flag .checkMode v => (optionValue readMode v).map fun j => { w with checkMode := some j }
  | .flag .tolerance v => (optionValue readTolerance v).map fun j => { w with tolerance := some j }
  | .flag .lookupBits v => (optionValue readBits v).map fun j => { w with lookupBits := some j }
  | .flag .printProgram _ => .ok { w with printProgram := true }
  | .flag .printAfterAll _ => .ok { w with printAfterAll := true }
  | .flag .printMetrics _ => .ok { w with printMetrics := true }
  | .flag .verbose _ => .ok { w with verbosity := w.verbosity + 1 }

def read (args : List String) : Except Ending Wishes :=
  let (events, inOrder) := Arguments.parse flags 2 args
  match events.foldlM Wishes.add Wishes.nothing with
  | .error e => .error e
  | .ok w => if inOrder then .ok w else .error .usage

def field (key : String) (value : Option Json) : List (String × Json) :=
  value.toList.map fun v => (key, v)

def passFields (name : String) (fields : List (String × Json)) : List (String × Json) :=
  if fields.isEmpty then [] else [(name, .obj fields)]

def Wishes.options (w : Wishes) : Json :=
  .obj (
    passFields "replay-check"
      (field "check_mode" w.checkMode ++ field "tolerance" w.tolerance)
    ++ passFields "lowering" (field "lookup_bits" w.lookupBits))

def Wishes.path? (w : Wishes) (i : Nat) : Option String := w.paths[i]?.bind (·.text?)

def Wishes.request (w : Wishes) : Compilation.Request :=
  ⟨(w.path? 0).getD "", w.path? 1, w.program, w.memory, w.config, w.options, w.printAfterAll,
    w.printMetrics⟩

structure Outcome where
  ending : Ending
  printed : String
  log : List Log.Entry
  files : FileTree

def compile (failures : Publish.Failures) (files : FileTree) (w : Wishes) : Outcome :=
  let o := Compilation.run failures files w.request
  let log := o.log.filter (·.shown w.verbosity)
  match o.result with
  | .error f => ⟨.ofFault f, o.printed, log, o.files⟩
  | .ok a =>
    ⟨.done, o.printed ++ (if w.printProgram then a.program else ""), log, o.files⟩

/-- A run in which the given calls of publishing fail beside those that have to. -/
def runWith (failures : Publish.Failures) (files : FileTree) (args : List String) : Outcome :=
  match read args with
  | .error e => ⟨e, "", [], files⟩
  | .ok w => compile failures files w

def run (files : FileTree) (args : List String) : Outcome :=
  runWith Publish.noFailures files args

def usageLine : String :=
  "usage: zkasm [-h] [-o PROGRAM] [-m MEMORY] [--config CONFIG] [--check-mode MODE] "
    ++ "[--tolerance PERCENT] [--lookup-bits BITS] [--print-program] [--print-after-all] "
    ++ "[--print-metrics] [-v] circuit witness"

def Outcome.errorLines (o : Outcome) : List String :=
  o.log.map (·.text) ++
    match o.ending with
    | .usage => [usageLine]
    | .broken f => ["broken off: " ++ f.message]
    | e => e.complaint?.toList

def Outcome.outputText (o : Outcome) : String :=
  match o.ending with
  | .help => usageLine ++ "\n"
  | _ => o.printed

def skeletonPath? (config : Json) : Option String :=
  match ((Pipeline.Settings.load [] config).1.configFor "assemble").options.get? "skeleton" with
  | some (.str path) => some path
  | _ => none

def Wishes.looksAt (w : Wishes) (files : FileTree) : List String :=
  let r := w.request
  let skeleton := match Compilation.loadConfig files w.config with
    | .ok config => skeletonPath? config
    | .error _ => none
  [r.circuit, r.paths.1, r.paths.2] ++ r.witness.toList ++ w.config.toList ++ skeleton.toList

end TensorAsm.CommandLine
