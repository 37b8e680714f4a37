import Mathlib
import TensorAsm.CommandLine
import TensorAsm.Proofs.Interruptions
import TensorAsm.Proofs.Passes
import TensorAsm.Proofs.RoundTrip
/-!
Runs of the command line. A run that is done has put both outputs where their paths lead, and any
other run has left every place as it was. When both paths lead to one place the memory table is
there, and the program is lost.
-/

namespace TensorAsm

namespace Compilation

variable {failures : Publish.Failures} {files : FileTree} {r : Request} {a : Artifact}

/-- The outputs have one path, or their paths lead to different places. -/
def Request.Apart (r : Request) (files : FileTree) : Prop :=
  r.paths.1 = r.paths.2 ∨
    ∀ x, files.resolve r.paths.1 = .ok x → files.resolve r.paths.2 ≠ .ok x

/-- Of one path given twice the memory table has the last word. -/
theorem outputs_cases (r : Request) (a : Artifact) :
    (r.paths.1 = r.paths.2 ∧ r.outputs a = [(r.paths.2, some a.memory)]) ∨
    r.paths.1 ≠ r.paths.2 ∧
      r.outputs a = [(r.paths.1, some a.program), (r.paths.2, some a.memory)] := by
  by_cases h : r.paths.1 = r.paths.2
  · exact .inl ⟨h, by simp [Request.outputs, Ordered.ofList, Ordered.put, h]⟩
  · exact .inr ⟨h, by simp [Request.outputs, Ordered.ofList, Ordered.put, h]⟩

theorem outputs_nodup (r : Request) (a : Artifact) : ((r.outputs a).map Prod.fst).Nodup := by
  rcases outputs_cases r a with ⟨-, ho⟩ | ⟨hp, ho⟩
  · simp [ho]
  · simpa [ho] using hp

/-- Both outputs stand where their paths lead, the memory table last. -/
structure Written (files : FileTree) (r : Request) (a : Artifact) (x y : Place) (after : FileTree) :
    Prop where
  program : Publish.Leads files ⟨r.paths.1, x, a.program, none⟩
  memory : Publish.Leads files ⟨r.paths.2, y, a.memory, none⟩
  here : after.here = files.here
  nodes : after.node? =
    Function.update (Function.update files.node? x (some (.file a.program))) y
      (some (.file a.memory))

theorem publishArtifact_written (hr : files.Rooted)
    (h : (publishArtifact failures files r a).result = .ok ()) :
    (∃ x y, Written files r a x y (publishArtifact failures files r a).disk.tree) ∧
      (publishArtifact failures files r a).disk.temporaries = [] := by
  obtain ⟨⟨ns, hfiles, hleads, hnodes⟩, hhere, htemps⟩ :=
    Publish.publishWith_moved hr (outputs_nodup r a) h
  refine ⟨?_, htemps⟩
  rcases outputs_cases r a with ⟨hp, ho⟩ | ⟨hp, ho⟩
  · rw [ho] at hfiles
    obtain ⟨m, rfl⟩ : ∃ m, ns = [m] :=
      List.length_eq_one_iff.1 (by simpa using (congrArg List.length hfiles).symm)
    obtain ⟨hpath, htext⟩ : r.paths.2 = m.path ∧ a.memory = m.text := by simpa using hfiles
    have hlead := hleads m (by simp)
    refine ⟨m.place, m.place, ?_, ?_, hhere, ?_⟩
    · exact ⟨hp ▸ hpath ▸ hlead.resolves, hlead.free, hp ▸ hpath ▸ hlead.named,
        hp ▸ hpath ▸ hlead.bare⟩
    · exact ⟨hpath ▸ hlead.resolves, hlead.free, hpath ▸ hlead.named, hpath ▸ hlead.bare⟩
    · rw [publishArtifact, hnodes, Function.update_idem, htext]
      rfl
  · rw [ho] at hfiles
    obtain ⟨m, n, rfl⟩ : ∃ m n, ns = [m, n] :=
      List.length_eq_two.1 (by simpa using (congrArg List.length hfiles).symm)
    obtain ⟨⟨hpath, htext⟩, hpath', htext'⟩ :
        (r.paths.1 = m.path ∧ a.program = m.text) ∧ r.paths.2 = n.path ∧ a.memory = n.text := by
      simpa using hfiles
    have hm := hleads m (by simp)
    have hn := hleads n (by simp)
    refine ⟨m.place, n.place, ?_, ?_, hhere, ?_⟩
    · exact ⟨hpath ▸ hm.resolves, hm.free, hpath ▸ hm.named, hpath ▸ hm.bare⟩
    · exact ⟨hpath' ▸ hn.resolves, hn.free, hpath' ▸ hn.named, hpath' ▸ hn.bare⟩
    · rw [publishArtifact, hnodes, htext, htext']
      rfl

/-- The places stand as they did. -/
def Untouched (files after : FileTree) : Prop := after.here = files.here ∧ after.node? = files.node?

theorem publishArtifact_unwritten (hr : files.Rooted)
    (hd : failures = Publish.noFailures ∨ r.Apart files) {f : Fault}
    (h : (publishArtifact failures files r a).result = .error f) :
    Untouched files (publishArtifact failures files r a).disk.tree ∧
      ((publishArtifact failures files r a).disk.temporaries = [] ∨
        failures ≠ Publish.noFailures ∧
          (publishArtifact failures files r a).disk.temporaries.map Prod.snd = [""]) := by
  have hfirst : (r.outputs a).dropLast.Pairwise fun f g =>
      ∀ x, files.resolve f.1 = .ok x → files.resolve g.1 ≠ .ok x := by
    rcases outputs_cases r a with ⟨-, ho⟩ | ⟨-, ho⟩ <;> simp [ho]
  have hall (h : r.Apart files) : (r.outputs a).Pairwise fun f g =>
      ∀ x, files.resolve f.1 = .ok x → files.resolve g.1 ≠ .ok x := by
    rcases outputs_cases r a with ⟨-, ho⟩ | ⟨hp, ho⟩
    · simp [ho]
    · simpa [ho] using h.resolve_left hp
  obtain ⟨hnodes, hhere, htemps⟩ :=
    Publish.publishWith_unmoved hr (outputs_nodup r a) hfirst (hd.imp_right hall) h
  exact ⟨⟨hhere, hnodes⟩, htemps⟩

theorem publishArtifact_temporaries (hr : files.Rooted)
    (hd : failures = Publish.noFailures ∨ r.Apart files) :
    (publishArtifact failures files r a).disk.temporaries = [] ∨ failures ≠ Publish.noFailures ∧
      (publishArtifact failures files r a).disk.temporaries.map Prod.snd = [""] := by
  cases h : (publishArtifact failures files r a).result with
  | ok u => exact .inl (publishArtifact_written hr h).2
  | error f => exact (publishArtifact_unwritten hr hd h).2

theorem run_cases [Platform] (failures : Publish.Failures) (hr : files.Rooted) (r : Request) :
    (∃ a x y, (run failures files r).result = .ok a ∧
        Written files r a x y (run failures files r).files) ∨
      (∃ f, (run failures files r).result = .error f) ∧
        (failures = Publish.noFailures ∨ r.Apart files →
          Untouched files (run failures files r).files) := by
  rw [run]
  cases load files r with
  | error f => exact .inr ⟨⟨f, rfl⟩, fun _ => ⟨rfl, rfl⟩⟩
  | ok loaded =>
    simp only
    cases (Pipeline.compile files loaded.1 r.options r.printAfterAll r.printMetrics loaded.2).1
    with
    | error f => exact .inr ⟨⟨f, rfl⟩, fun _ => ⟨rfl, rfl⟩⟩
    | ok a =>
      simp only
      cases hp : (publishArtifact failures files r a).result with
      | ok u =>
        obtain ⟨⟨x, y, hw⟩, -⟩ := publishArtifact_written hr hp
        exact .inl ⟨a, x, y, rfl, hw⟩
      | error f => exact .inr ⟨⟨f, rfl⟩, fun hd => (publishArtifact_unwritten hr hd hp).1⟩

namespace Written

variable {x y : Place} {after : FileTree}

theorem alike (h : Written files r a x y after) : FileTree.Alike files after where
  here := h.here.symm
  directories := by
    intro z
    rw [h.nodes]
    by_cases hy : z = y
    · subst hy
      simp [h.memory.free]
    · rw [Function.update_of_ne hy]
      by_cases hx : z = x
      · subst hx
        simp [h.program.free]
      · rw [Function.update_of_ne hx]

theorem read_memory (h : Written files r a x y after) : after.read r.paths.2 = .ok a.memory := by
  refine FileTree.read_eq_ok.2 ⟨y, h.alike.resolve h.memory.resolves, ?_, h.memory.bare⟩
  rw [h.nodes, Function.update_self]

theorem read_program (h : Written files r a x y after) :
    after.read r.paths.1 = .ok (if x = y then a.memory else a.program) := by
  refine FileTree.read_eq_ok.2 ⟨x, h.alike.resolve h.program.resolves, ?_, h.program.bare⟩
  rw [h.nodes]
  by_cases hxy : x = y
  · rw [if_pos hxy, hxy, Function.update_self]
  · rw [if_neg hxy, Function.update_of_ne hxy, Function.update_self]

theorem other (h : Written files r a x y after) {z : Place} (hx : z ≠ x) (hy : z ≠ y) :
    after.node? z = files.node? z := by
  rw [h.nodes, Function.update_of_ne hy, Function.update_of_ne hx]

end Written

end Compilation

namespace CommandLine

theorem Ending.status_eq_zero {e : Ending} : e.status = 0 ↔ e = .done ∨ e = .help := by
  cases e with
  | done | help | usage | broken => simp [status]
  | refused f =>
    cases f with
    | compile c => cases c <;> simp [status, CompileError.exitCode]
    | _ => simp [status]

theorem Ending.ofFault_ne_done (f : Fault) : Ending.ofFault f ≠ .done := by
  rw [ofFault]
  split <;> simp

theorem optionValue_error {f : String → Option Json} {v : Option Arguments.Value} {e : Ending}
    (h : optionValue f v = .error e) : e = .usage := by
  cases v with
  | none => exact (Except.error.inj h).symm
  | some v =>
    cases v with
    | nothing => simp [optionValue] at h
    | text s =>
      cases hs : f s with
      | some j => simp [optionValue, hs] at h
      | none => simpa [optionValue, hs] using h.symm

theorem add_error {w : Wishes} {ev : Arguments.Event Meaning} {e : Ending}
    (h : w.add ev = .error e) : e ≠ .done := by
  cases ev with
  | positional => simp [Wishes.add] at h
  | flag meaning v =>
    cases meaning with
    | help =>
      obtain rfl := Except.error.inj h
      simp
    | checkMode | tolerance | lookupBits =>
      rw [optionValue_error (Sequences.map_error h)]
      simp
    | _ => simp [Wishes.add] at h

theorem read_error {args : List String} {e : Ending} (h : read args = .error e) : e ≠ .done := by
  have hfold (events : List (Arguments.Event Meaning)) (w : Wishes)
      (hw : events.foldlM Wishes.add w = .error e) : e ≠ .done := by
    induction events generalizing w with
    | nil => simp [pure, Except.pure] at hw
    | cons ev events ih =>
      rw [List.foldlM_cons] at hw
      cases hev : w.add ev with
      | error f =>
        rw [hev] at hw
        obtain rfl := Except.error.inj hw
        exact add_error hev
      | ok next =>
        rw [hev] at hw
        exact ih next hw
  rw [read] at h
  simp only at h
  split at h
  · next hw =>
      obtain rfl := Except.error.inj h
      exact hfold _ _ hw
  · split at h
    · simp at h
    · obtain rfl := Except.error.inj h
      simp

/-- A run that is done has read what is asked for, compiled it and put both outputs in place; any
other run has left all as it was. -/
theorem run_cases [Platform] (failures : Publish.Failures) {files : FileTree}
    (hr : files.Rooted) (args : List String) :
    ((runWith failures files args).ending = .done ∧ ∃ w a x y, read args = .ok w ∧
      (Compilation.run failures files w.request).result = .ok a ∧
        Compilation.Written files w.request a x y (runWith failures files args).files) ∨
    (runWith failures files args).ending ≠ .done ∧
      (failures = Publish.noFailures ∨ (∀ w, read args = .ok w → w.request.Apart files) →
        Compilation.Untouched files (runWith failures files args).files) := by
  rw [runWith]
  cases hw : read args with
  | error e => exact .inr ⟨read_error hw, fun _ => ⟨rfl, rfl⟩⟩
  | ok w =>
    simp only [compile]
    rcases Compilation.run_cases failures hr w.request with ⟨a, x, y, hok, hwritten⟩ |
      ⟨⟨f, herr⟩, hsame⟩
    · rw [hok]
      exact .inl ⟨rfl, w, a, x, y, rfl, hok, hwritten⟩
    · rw [herr]
      exact .inr ⟨Ending.ofFault_ne_done f, fun hd => hsame (hd.imp_right fun h => h w rfl)⟩

end CommandLine

namespace Copied

def description : String :=
  "\x7b\"tensors\": [\x7b\"id\": \"x\", \"shape\": [1]\x7d, " ++
  "\x7b\"id\": \"y\", \"shape\": [1]\x7d], "
    ++ "\"operations\": [\x7b\"id\": 1, \"kind\": \"identity\", \"inputs\": [\"x\"], "
    ++ "\"output\": \"y\"\x7d], \"inputs\": [\"x\"], \"outputs\": [\"y\"]\x7d"

def assignment : String := "\x7b\"x\": [5], \"y\": [5]\x7d"

def files : FileTree := ⟨[(["c"], .file description), (["w"], .file assignment)], []⟩

def args : List String := ["c", "w", "-o", "out", "-m", "out"]

def circuit : Json := .obj [
  ("tensors", .arr [.obj [("id", .str "x"), ("shape", .arr [.int 1])],
    .obj [("id", .str "y"), ("shape", .arr [.int 1])]]),
  ("operations", .arr [.obj [("id", .int 1), ("kind", .str "identity"),
    ("inputs", .arr [.str "x"]), ("output", .str "y")]]),
  ("inputs", .arr [.str "x"]),
  ("outputs", .arr [.str "y"])]

def graph : Circuit.Graph :=
  ⟨[⟨"x", [1], 0, .priv⟩, ⟨"y", [1], 0, .priv⟩], [⟨1, "identity", ["x"], "y", 0, []⟩], ["x"], ["y"]⟩

def values : Json := .obj [("x", .arr [.int 5]), ("y", .arr [.int 5])]

def witness : Witness := [("x", ⟨[1], #[5]⟩), ("y", ⟨[1], #[5]⟩)]

def cells : List Cell := [⟨0, 0⟩, ⟨16, 5⟩, ⟨983040, 5⟩]

def wishes : CommandLine.Wishes := { CommandLine.Wishes.nothing with
  paths := [.text "c", .text "w"], program := some "out", memory := some "out" }

theorem read_args : CommandLine.read args = .ok wishes := by
  cbv

theorem read_description : Json.read description = .ok circuit := by
  cbv

theorem read_assignment : Json.read assignment = .ok values := by
  cbv

theorem read_circuit : Circuit.read circuit = .ok graph := by
  cbv

theorem read_values : Witness.read Field.defaultModulus graph values = .ok witness := by
  cbv

theorem rooted : files.Rooted where
  here := rfl
  above := by
    intro p name h
    rw [FileTree.node?, if_neg (by simp)] at h
    simp only [files, List.lookup_cons] at h
    cases hc : p ++ [name] == ["c"] with
    | true => simp [hc] at h
    | false => cases hw : p ++ [name] == ["w"] <;> simp [hc, hw] at h

theorem loads : Compilation.load files wishes.request =
    .ok (Config.packaged, ⟨"c", graph, witness⟩) := by
  have hc : Compilation.readJson files "c" = .ok circuit := by
    rw [Compilation.readJson, show files.read "c" = .ok description from rfl]
    simp only [read_description, Except.mapError]
  have hw : Compilation.readJson files "w" = .ok values := by
    rw [Compilation.readJson, show files.read "w" = .ok assignment from rfl]
    simp only [read_assignment, Except.mapError]
  have hload : Compilation.loadCircuit files "c" (some "w") Field.defaultModulus =
      .ok ⟨"c", graph, witness⟩ := by
    rw [Compilation.loadCircuit, hc]
    simp only [bind, Except.bind, hw, read_circuit, read_values]
    rfl
  have hconfig : Compilation.loadConfig files wishes.request.config = .ok Config.packaged := rfl
  have hcircuit : wishes.request.circuit = "c" := rfl
  have hwitness : wishes.request.witness = some "w" := rfl
  rw [Compilation.load, hconfig, hcircuit, hwitness]
  simp only [bind, Except.bind, Pipeline.packaged_modulus, hload]
  rfl

theorem lowers : ∃ p, (Program.lower "c" graph witness default (.int 8)
    Field.defaultModulus).1 = .ok p ∧
    (MemoryTable.write p).1.toOption = some cells ∧ (Pipeline.replay p 0.0 cells).2.isNone = true ∧
      (∀ s ∈ [Slot.layout, .tables, .outputs, .body], ∀ x ∈ Assembly.slotNumbers p s,
        Numeral.isWritable x = true) ∧
      (∀ b ∈ p.plan.allocator.allocations, ∀ x ∈ [b.address.absolute, b.size],
        Numeral.isWritable x = true) ∧
      (∀ id ∈ p.graph.outputs, Text.Word id.toList) ∧ ∀ i ∈ p.instructions, i.Numeric :=
  Clamped.exists_ok_and (by decide +kernel)

theorem compiles : ∃ a, (Pipeline.compile files Config.packaged wishes.request.options
    wishes.request.printAfterAll wishes.request.printMetrics ⟨"c", graph, witness⟩).1 = .ok a ∧
      a.memory = MemoryTable.render cells ∧ a.program ≠ a.memory := by
  obtain ⟨p, hp, hw, hr, hs, hb, ho, hn⟩ := lowers
  have hwrite : (MemoryTable.write p).1 = .ok cells := by
    cases h : (MemoryTable.write p).1 with
    | ok given => simpa [h, Except.toOption] using hw
    | error f => simp [h, Except.toOption] at hw
  have htext :
      Assembly.render? p Skeleton.packaged = .ok (Assembly.render p Skeleton.packaged) := by
    rw [Assembly.render?, written, if_pos]
    exact List.all_eq_true.2 (Clamped.legible hs hb ho hn).numbers
  have hmemory : MemoryTable.render? cells = .ok (MemoryTable.render cells) := by
    rw [MemoryTable.render?, written, if_pos (by decide +kernel)]
  refine ⟨_, Pipeline.compile_packaged files hp hwrite (by simpa using hr) htext hmemory, rfl, ?_⟩
  intro h
  have hhead := congrArg (fun s : String => s.toList.head?) h
  rw [Assembly.render,
    ProgramText.toList_lines (by simp [Skeleton.packaged, Assembly.segmentLines]),
    MemoryTable.render, ProgramText.toList_lines (by simp)] at hhead
  simp [Skeleton.packaged, Assembly.segmentLines, MemoryTable.header] at hhead

theorem publishes : (Publish.publish files [("out", some (MemoryTable.render cells))]).result =
    .ok () := by
  have h :
      (Publish.publish files [("out", some (MemoryTable.render cells))]).result.isOk = true := by
    decide +kernel
  cases hr : (Publish.publish files [("out", some (MemoryTable.render cells))]).result with
  | ok u => rfl
  | error f => simp [hr, Except.isOk, Except.toBool] at h

theorem done : ∃ a, (Compilation.run Publish.noFailures files wishes.request).result = .ok a ∧
    a.program ≠ a.memory ∧ (CommandLine.run files args).ending = .done := by
  obtain ⟨a, ha, hm, hne⟩ := compiles
  have hpublish :
      (Compilation.publishArtifact Publish.noFailures files wishes.request a).result = .ok () := by
    rw [← publishes, ← hm]
    rfl
  have hrun : (Compilation.run Publish.noFailures files wishes.request).result = .ok a := by
    rw [Compilation.run, loads]
    simp only [ha, hpublish]
  refine ⟨a, hrun, hne, ?_⟩
  rw [CommandLine.run, CommandLine.runWith, read_args]
  simp only [CommandLine.compile, hrun]

end Copied

namespace CommandLine

/-- A run is all or nothing, also when calls of publishing fail. If it is done, the memory table is
at its path and the program at its own, unless both paths lead to one place; nothing else has
changed. If it ends in any other way, nothing has changed at all, unless a call was made to fail
that moves one output over the other. No temporary file stays but an empty one, if a call fails. -/
theorem run_all_or_nothing [Platform] {files : FileTree} (hr : files.Rooted)
    (failures : Publish.Failures) (args : List String) :
    ((runWith failures files args).ending = .done → ∃ w a x y, read args = .ok w ∧
      (Compilation.run failures files w.request).result = .ok a ∧
        files.resolve w.request.paths.1 = .ok x ∧ files.resolve w.request.paths.2 = .ok y ∧
        (runWith failures files args).files.read w.request.paths.2 = .ok a.memory ∧
        (runWith failures files args).files.read w.request.paths.1 =
          .ok (if x = y then a.memory else a.program) ∧
        (∀ z, z ≠ x → z ≠ y → (runWith failures files args).files.node? z = files.node? z) ∧
        (runWith failures files args).files.here = files.here) ∧
    ((runWith failures files args).ending ≠ .done →
      (failures = Publish.noFailures ∨ ∀ w, read args = .ok w → w.request.Apart files) →
        (∀ z, (runWith failures files args).files.node? z = files.node? z) ∧
          (runWith failures files args).files.here = files.here) ∧
    ((runWith failures files args).ending.status = 0 ↔
      (runWith failures files args).ending = .done ∨
        (runWith failures files args).ending = .help) ∧
    ∀ r a, failures = Publish.noFailures ∨ r.Apart files →
      (Compilation.publishArtifact failures files r a).disk.temporaries = [] ∨
        failures ≠ Publish.noFailures ∧
          (Compilation.publishArtifact failures files r a).disk.temporaries.map Prod.snd =
            [""] := by
  refine ⟨fun hdone => ?_, fun hne hd => ?_, Ending.status_eq_zero,
    fun r a => Compilation.publishArtifact_temporaries hr⟩
  · obtain ⟨-, w, a, x, y, hw, ha, h⟩ | ⟨hne, -⟩ := run_cases failures hr args
    · exact ⟨w, a, x, y, hw, ha, h.program.resolves, h.memory.resolves, h.read_memory,
        h.read_program, fun z => h.other, h.here⟩
    · exact absurd hdone hne
  · obtain ⟨hdone, -⟩ | ⟨-, hsame⟩ := run_cases failures hr args
    · exact absurd hdone hne
    · exact ⟨fun z => by rw [(hsame hd).2], (hsame hd).1⟩

/-- One path for both outputs, whichever calls fail, and arguments that name no circuit. -/
theorem copied_all_or_nothing : Copied.files.Rooted ∧
    (run Copied.files Copied.args).ending = .done ∧
    (∃ a, (Compilation.run Publish.noFailures Copied.files Copied.wishes.request).result = .ok a ∧
      (run Copied.files Copied.args).files.read "out" = .ok a.memory) ∧
    (∀ failures, (runWith failures Copied.files Copied.args).ending ≠ .done →
      ∀ z, (runWith failures Copied.files Copied.args).files.node? z = Copied.files.node? z) ∧
    (run Copied.files []).ending.status = 2 ∧
      ∀ z, (run Copied.files []).files.node? z = Copied.files.node? z := by
  obtain ⟨-, -, -, hdone⟩ := Copied.done
  refine ⟨Copied.rooted, hdone, ?_, fun failures hne => ?_, by decide +kernel, ?_⟩
  · obtain ⟨w, a, x, y, hw, ha, -, -, hm, -⟩ :=
      (run_all_or_nothing Copied.rooted Publish.noFailures Copied.args).1 hdone
    obtain rfl : w = Copied.wishes := Except.ok.inj (hw.symm.trans Copied.read_args)
    exact ⟨a, ha, hm⟩
  · refine ((run_all_or_nothing Copied.rooted failures Copied.args).2.1 hne (.inr ?_)).1
    intro w hw
    obtain rfl : w = Copied.wishes := Except.ok.inj (hw.symm.trans Copied.read_args)
    exact .inl rfl
  · refine ((run_all_or_nothing Copied.rooted Publish.noFailures []).2.1 ?_ (.inl rfl)).1
    intro h
    have hstatus : (run Copied.files []).ending.status = 2 := by decide +kernel
    rw [run, h] at hstatus
    exact absurd hstatus (by decide)

/-- With one path for both outputs a run is done, and its program is nowhere. -/
theorem coinciding_paths_lose_program : Copied.files.Rooted ∧
    (run Copied.files Copied.args).ending = .done ∧ ∃ w a, read Copied.args = .ok w ∧
      (Compilation.run Publish.noFailures Copied.files w.request).result = .ok a ∧
        (run Copied.files Copied.args).files.read w.request.paths.1 ≠ .ok a.program := by
  obtain ⟨a, ha, hne, hdone⟩ := Copied.done
  refine ⟨Copied.rooted, hdone, Copied.wishes, a, Copied.read_args, ha, ?_⟩
  obtain ⟨-, w, b, x, y, hw, hb, h⟩ | ⟨hnot, -⟩ :=
    run_cases Publish.noFailures Copied.rooted Copied.args
  · obtain rfl : w = Copied.wishes := Except.ok.inj (hw.symm.trans Copied.read_args)
    obtain rfl : b = a := Except.ok.inj (hb.symm.trans ha)
    obtain rfl : x = y := Except.ok.inj (h.program.resolves.symm.trans h.memory.resolves)
    rw [run, h.read_program, if_pos rfl]
    intro he
    exact hne (Except.ok.inj he).symm
  · exact absurd hdone hnot

end CommandLine

end TensorAsm
