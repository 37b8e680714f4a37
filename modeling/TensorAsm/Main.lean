import TensorAsm.CommandLine
/-!
The program itself: it gathers the files that a command line is about, runs it on them, and writes
back what has changed.
-/

namespace TensorAsm.Main

def hostPath (place : Place) : String := Text.plain ("/" ++ String.intercalate "/" place)

def probe (place : Place) : IO (Option FileNode) := do
  try
    let text ← IO.FS.readFile (hostPath place)
    return some (.file (Text.ofPlain text))
  catch _ =>
    let here ← IO.currentDir
    if ← (here / hostPath place).isDir then return some .directory
    return none

def gather (files : FileTree) (path : String) : IO FileTree := do
  if (WrittenPath.refusal? path).isSome then return files
  let place := (WrittenPath.ofString path).place files.here
  (List.range place.length).foldlM (fun files i => do
    match ← probe (place.take (i + 1)) with
    | some node => return files.put (place.take (i + 1)) node
    | none => return files) files

def writeBack (before after : FileTree) : IO Unit :=
  after.nodes.forM fun (place, node) => do
    match node with
    | .file text =>
      if before.node? place != some node then
        let path := hostPath place
        IO.FS.writeFile (path ++ ".tmp") (Text.plain text)
        IO.FS.rename (path ++ ".tmp") path
    | .directory => return

def finish (o : CommandLine.Outcome) : IO UInt32 := do
  IO.print (Text.plain o.outputText)
  o.errorLines.forM fun line => IO.eprintln (Text.plain line)
  return UInt32.ofNat o.ending.status

def run (here : String) (args : List String) : IO UInt32 := do
  let start := FileTree.empty (WrittenPath.ofString here).parts
  match CommandLine.read args with
  | .error ending => finish ⟨ending, "", [], start⟩
  | .ok wishes =>
    let configured ← wishes.config.toList.foldlM gather start
    let files ← (wishes.looksAt configured).foldlM gather configured
    let outcome := CommandLine.compile Publish.noFailures files wishes
    writeBack files outcome.files
    finish outcome

end TensorAsm.Main

def main (args : List String) : IO UInt32 := do
  TensorAsm.Main.run (TensorAsm.Text.ofPlain (← IO.currentDir).toString)
    (args.map TensorAsm.Text.ofPlain)
