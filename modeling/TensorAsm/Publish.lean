import TensorAsm.FileTree
import TensorAsm.Log
/-!
Publishing several files as one: each text is written to a temporary file first, then all are
moved into place, and a file that was there is kept aside. When a call fails, what was moved is
taken back and what was kept is restored.
-/

namespace TensorAsm.Publish

structure Disk where
  tree : FileTree
  temporaries : List (Nat × String)
  made : Nat

namespace Disk

def create (path : String) (d : Disk) : Except Fault Disk :=
  match d.tree.checkBeside path with
  | .error e => .error e
  | .ok () => .ok { d with temporaries := d.temporaries ++ [(d.made, "")], made := d.made + 1 }

def keep (temporary : Nat) (text : String) (d : Disk) : Disk :=
  { d with temporaries := Ordered.put temporary text d.temporaries }

def write (temporary : Nat) (text : String) (d : Disk) : Except Fault Disk :=
  match Text.halves? Text.isHalfCode text with
  | some (place, halves) => .error (.invalid (.noEncoding place halves))
  | none => .ok (d.keep temporary text)

def discard (temporary : Nat) (d : Disk) : Disk :=
  { d with temporaries := d.temporaries.filter (·.1 != temporary) }

def settle (temporary : Nat) (path : String) (d : Disk) : Except Fault Disk :=
  match Ordered.get? temporary d.temporaries with
  | none => .error (.host .missing)
  | some text =>
    match d.tree.moveTo path text with
    | .error e => .error e
    | .ok tree => .ok ({ d with tree := tree }.discard temporary)

def setAside (path : String) (temporary : Nat) (d : Disk) : Except Fault Disk :=
  match d.tree.take path with
  | .error e => .error e
  | .ok (text, tree) => .ok (({ d with tree := tree }).keep temporary text)

def remove (path : String) (d : Disk) : Except Fault Disk :=
  match d.tree.take path with
  | .error e => .error e
  | .ok (_, tree) => .ok { d with tree := tree }

end Disk

structure Transaction where
  disk : Disk
  calls : Nat
  staged : List (Nat × String)
  backups : List (String × Nat)
  published : List String
  log : List Log.Entry

abbrev Publishing := ExceptT Fault (StateM Transaction)

/-- Which of the calls up to the last move fail, counted from zero, beside those that have to. -/
abbrev Failures := Nat → Option HostError

def noFailures : Failures := fun _ => none

def call (failures : Failures) (act : Disk → Except Fault Disk) : Publishing Unit := do
  let t ← get
  set { t with calls := t.calls + 1 }
  match failures t.calls with
  | some e => throw (.host e)
  | none =>
    match act t.disk with
    | .error f => throw f
    | .ok disk => modify fun t => { t with disk := disk }

/-- Writes a text beside its destination. What is no text is refused at this point. -/
def stage (failures : Failures) (path : String) (text : Option String) : Publishing Unit := do
  let temporary := (← get).disk.made
  call failures (Disk.create path)
  modify fun t => { t with staged := t.staged ++ [(temporary, path)] }
  match text with
  | none => throw .wrongKind
  | some text => call failures (Disk.write temporary text)

def keepOld (failures : Failures) (path : String) : Publishing Unit := do
  if (← get).disk.tree.isFile path then
    let temporary := (← get).disk.made
    call failures (Disk.create path)
    call failures (Disk.setAside path temporary)
    modify fun t => { t with backups := Ordered.put path temporary t.backups }

def publishedEntry (path : String) : Log.Entry := Log.debug "zkasm.output" ("published " ++ path)

def install (failures : Failures) (temporary : Nat) (path : String) : Publishing Unit := do
  keepOld failures path
  call failures (Disk.settle temporary path)
  modify fun t => { t with
    published := t.published ++ [path]
    log := t.log ++ [publishedEntry path] }

def commit (failures : Failures) (files : List (String × Option String)) : Publishing Unit := do
  files.forM fun (path, text) => stage failures path text
  (← get).staged.forM fun (temporary, path) => install failures temporary path

abbrev Undoing := ExceptT Fault (StateM Disk)

def change (act : Disk → Except Fault Disk) : Undoing Unit := do
  match act (← get) with
  | .error f => throw f
  | .ok disk => set disk

/-- Takes back what was published, restores what was kept and drops what is left. A call that fails
ends it, and what was done before stays done. -/
def undo (t : Transaction) : Undoing Unit := do
  t.published.forM fun path => change (Disk.remove path)
  t.backups.forM fun (path, temporary) => change (Disk.settle temporary path)
  t.staged.forM fun (temporary, _) => modify (Disk.discard temporary)

def rolledBackEntry (t : Transaction) : Log.Entry :=
  Log.debug "zkasm.output" ("rolled back " ++ natText t.published.length ++ " published files")

structure Outcome where
  result : Except Fault Unit
  disk : Disk
  log : List Log.Entry

def start (tree : FileTree) : Transaction := ⟨⟨tree, [], 0⟩, 0, [], [], [], []⟩

def publishWith (failures : Failures) (tree : FileTree) (files : List (String × Option String)) :
    Outcome :=
  match (commit failures files).run (start tree) with
  | (.ok (), t) =>
    ⟨.ok (), t.backups.foldl (fun d (_, temporary) => d.discard temporary) t.disk, t.log⟩
  | (.error f, t) =>
    match (undo t).run t.disk with
    | (.ok (), disk) => ⟨.error f, disk, t.log ++ [rolledBackEntry t]⟩
    | (.error g, disk) => ⟨.error g, disk, t.log⟩

def publish (tree : FileTree) (files : List (String × Option String)) : Outcome :=
  publishWith noFailures tree files

end TensorAsm.Publish
