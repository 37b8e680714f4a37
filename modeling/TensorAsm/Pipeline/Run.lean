import TensorAsm.Config
import TensorAsm.Pipeline.Pass
/-!
Running passes one after the other. Each pass has to be given the stage it takes, and the last has
to leave an artifact.
-/

namespace TensorAsm

variable [Platform]

structure Pipeline.Registered where
  pass : Pipeline.Pass
  metrics : Option Pipeline.Metrics

structure Pipeline where
  passes : List Pipeline.Registered
  settings : Pipeline.Settings
  printAfterAll : Bool
  printMetrics : Bool

namespace Pipeline

def empty (printAfterAll printMetrics : Bool) : Pipeline := ⟨[], [], printAfterAll, printMetrics⟩

def add (p : Pipeline) (pass : Pass) : Pipeline := { p with passes := p.passes ++ [⟨pass, none⟩] }

def Pass.named (name input output : String) (action : Action) : Except Invalid Pass :=
  match Stage.ofName? input, Stage.ofName? output with
  | some i, some o => .ok ⟨name, i, o, action⟩
  | none, _ => .error (.passStage name input)
  | _, none => .error (.passStage name output)

def ruler (c : Char) : String := String.ofList (List.replicate 60 c)

def origin : String := "zkasm.pass_manager"

def sayMetrics (m : Metrics) : Act Unit := do
  if !m.custom.isEmpty then Act.line? (m.customText?.map ("Custom metrics: " ++ ·))
  if !m.messages.isEmpty then
    Act.line "Diagnostics:"
    m.messages.forM fun message => Act.line ("  - " ++ message)

def reportPass (pass : Pass) (c : PassConfig) (before : Nat) (w : Work) : Act Unit := do
  let after ← Act.demand (w.size? pass.output)
  Act.line ("\n=== Pass: " ++ pass.name ++ " (" ++ pass.input.name ++ " → " ++ pass.output.name
    ++ ") ===")
  Act.line? (c.options.listed?.map ("Config: " ++ ·))
  Act.line ("IR size: " ++ natText before ++ " -> " ++ natText after)
  Act.updateMetrics fun m => { m with before := before, after := after }
  match (← get).metrics with
  | some m => sayMetrics m
  | none => return

def showWork (stage : Stage) (w : Work) : Act Unit := do
  Act.report (← Act.demand (Report.work? w stage))

def runPass (p : Pipeline) (files : FileTree) (pass : Pass) (stage : Stage) (w : Work) :
    Act (Stage × Work) := do
  let c := p.settings.configFor pass.name
  if !c.enabled.truthy then
    Act.note [Log.info origin ("pass " ++ pass.name ++ " disabled")]
    if p.printMetrics then Act.line ("\n=== Pass: " ++ pass.name ++ " === (SKIPPED - disabled)")
    return (stage, w)
  if pass.input ≠ stage then throw (.passOrder pass.name pass.input.name stage.name)
  let before ← if p.printMetrics then Act.demand (w.size? stage) else pure 0
  Act.note [Log.debug origin ("running pass " ++ pass.name)]
  let result ← pass.action.run files c.options w
  if p.printMetrics then reportPass pass c before result
  if p.printAfterAll then
    Act.line (ruler '-')
    Act.line ("After " ++ pass.name ++ ":")
    Act.line (ruler '-')
    showWork pass.output result
  return (pass.output, result)

/-- Runs passes in order. Returns them with their metrics also when one fails. -/
def runPasses (p : Pipeline) (files : FileTree) (stage : Stage) (w : Work) (s : Session) :
    List Registered → Except Fault (Stage × Work) × List Registered × Session
  | [] => (.ok (stage, w), [], s)
  | r :: rest =>
    match (runPass p files r.pass stage w).run { s with metrics := r.metrics } with
    | (.error f, t) => (.error f, ⟨r.pass, t.metrics⟩ :: rest, t)
    | (.ok (stage', w'), t) =>
      let (result, more, last) := runPasses p files stage' w' t rest
      (result, ⟨r.pass, t.metrics⟩ :: more, last)

def opening (p : Pipeline) (c : Circuit.Loaded) : Act Unit := do
  if p.printAfterAll then
    Act.line ("\n" ++ ruler '=' ++ "\nCOMPILATION START\n" ++ ruler '=')
    Act.report (Report.graph c)

def closing (p : Pipeline) : String :=
  if p.printAfterAll then ruler '=' ++ "\nCOMPILATION END\n" ++ ruler '=' ++ "\n\n" else ""

def finish (stage : Stage) (w : Work) : Except Fault Artifact :=
  if stage = .artifact then
    match w.artifact? with
    | some a => .ok a
    | none => .error .noMember
  else .error (.noArtifact stage.name)

structure Outcome where
  result : Except Fault Artifact
  printed : String
  log : List Log.Entry
  pipeline : Pipeline

def run (p : Pipeline) (files : FileTree) (c : Circuit.Loaded) : Outcome :=
  match (p.opening c).run Session.start with
  | (.error f, s) => ⟨.error f, s.printed, s.log, p⟩
  | (.ok (), start) =>
    match p.runPasses files .graph (.circuit c) start p.passes with
    | (.error f, passes, s) => ⟨.error f, s.printed, s.log, { p with passes := passes }⟩
    | (.ok (stage, w), passes, s) =>
      ⟨finish stage w, s.printed ++ p.closing, s.log, { p with passes := passes }⟩

def metrics? (p : Pipeline) (i : Int) : Except Fault (Option Metrics) :=
  let place := if i < 0 then i + p.passes.length else i
  if 0 ≤ place then
    match p.passes[place.toNat]? with
    | some r => .ok r.metrics
    | none => .error .outOfRange
  else .error .outOfRange

def ofSettings (layout : Layout) (modulus : Int) (settings : Settings)
    (printAfterAll printMetrics : Bool) : Pipeline :=
  ⟨[Pass.lowering layout modulus, Pass.memoryLayout, Pass.replayCheck, Pass.assemble].map
    (⟨·, none⟩),
    settings, printAfterAll, printMetrics⟩

def ofConfig (config : Json) (printAfterAll printMetrics : Bool) : Except Fault Pipeline := do
  let layout ← Config.layout config
  let modulus ← Config.modulus config
  match Settings.load [] config with
  | (_, some f) => throw f
  | (settings, none) => return ofSettings layout modulus settings printAfterAll printMetrics

def overrideAll (p : Pipeline) (name : String) : List (String × Json) → Except Fault Pipeline
  | [] => .ok p
  | (key, value) :: rest =>
    match p.settings.override name (.str key) value with
    | (settings, none) => overrideAll { p with settings := settings } name rest
    | (_, some f) => .error f

def overridePasses (p : Pipeline) : List (String × Json) → Except Fault Pipeline
  | [] => .ok p
  | (name, .obj overrides) :: rest =>
    match p.overrideAll name overrides with
    | .error f => .error f
    | .ok next => overridePasses next rest
  | _ :: _ => .error .noMember

def override (p : Pipeline) (options : Json) : Except Fault Pipeline :=
  if options.truthy then
    match options with
    | .obj entries => p.overridePasses entries
    | _ => .error .noMember
  else .ok p

/-- A whole compilation; nothing is written to files. -/
def compile (files : FileTree) (config options : Json) (printAfterAll printMetrics : Bool)
    (c : Circuit.Loaded) : Except Fault Artifact × String × List Log.Entry :=
  match (do override (← ofConfig config printAfterAll printMetrics) options) with
  | .error f => (.error f, "", [])
  | .ok p =>
    let outcome := p.run files c
    (outcome.result, outcome.printed, outcome.log)

end Pipeline

end TensorAsm
