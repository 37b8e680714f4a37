import TensorAsm.Pipeline.Run
import TensorAsm.Proofs.Sequences
/-!
What the passes of a compilation come to, whatever has been printed and noted down before. The check
by replay ends as the replay does.
-/

namespace TensorAsm.Pipeline

open Sequences

namespace Act

variable {α β : Type}

/-- The act has that result in every session. -/
def Ends (x : Act α) (r : Except Fault α) : Prop := ∀ s : Session, ∃ t, x.run s = (r, t)

theorem ends_pure (a : α) : Ends (pure a) (.ok a) := fun s => ⟨s, rfl⟩

theorem ends_throw (f : Fault) : Ends (throw f : Act α) (.error f) := fun s => ⟨s, rfl⟩

theorem ends_modify (f : Session → Session) : Ends (modify f) (.ok ()) := fun s => ⟨f s, rfl⟩

theorem ends_ofExcept {r r' : Except Fault α} (h : r = r') : Ends (ofExcept r) r' := by
  subst h
  cases r with
  | ok a => exact ends_pure a
  | error f => exact ends_throw f

theorem Ends.bind {x : Act α} {f : α → Act β} {a : α} {r : Except Fault β} (hx : Ends x (.ok a))
    (hf : Ends (f a) r) : Ends (x >>= f) r := by
  intro s
  obtain ⟨t, ht⟩ := hx s
  obtain ⟨u, hu⟩ := hf t
  exact ⟨u, (run_bind_ok ht).trans hu⟩

end Act

open Act

section

variable [Platform] {p : Program} {cells : List Cell} {o : Options}

theorem ends_writeMemory (p : Program) : Ends (writeMemory p) (MemoryTable.write p).1 :=
  (ends_modify _).bind (ends_ofExcept rfl)

theorem ends_memoryOf (hw : (MemoryTable.write p).1 = .ok cells)
    (hp : p.memory = [] ∨ p.memory = cells) : Ends (memoryOf p) (.ok cells) := by
  rw [memoryOf]
  by_cases he : p.memory.isEmpty = true
  · rw [if_pos he, ← hw]
    exact ends_writeMemory p
  · rw [if_neg he]
    rcases hp with hp | hp
    · simp [hp] at he
    · rw [hp]
      exact ends_pure cells

theorem ends_runLowering {layout : Layout} {m : Int} {bits : Json} {c : Circuit.Loaded}
    (hb : lookupBits o = .ok bits)
    (hl : (Program.lower c.name c.graph c.witness layout bits m).1 = .ok p) :
    Ends (runLowering layout m o (.circuit c)) (.ok (.program p)) := by
  refine (ends_modify _).bind ((ends_ofExcept hb).bind ((ends_pure c).bind ?_))
  exact (ends_modify _).bind ((ends_ofExcept hl).bind ((ends_modify _).bind (ends_pure _)))

theorem ends_runMemoryLayout (hw : (MemoryTable.write p).1 = .ok cells) :
    Ends (runMemoryLayout (.program p)) (.ok (.program { p with memory := cells })) := by
  refine (ends_modify _).bind ((ends_pure p).bind ?_)
  exact .bind (hw ▸ ends_writeMemory p) ((ends_modify _).bind (ends_pure _))

theorem ends_runReplayCheck {x : Float} (hmode : checkMode o = .ok .safe)
    (hx : tolerance o = .ok x) (hc : Ends (memoryOf p) (.ok cells)) :
    Ends (runReplayCheck o (.program p))
      ((replay p x cells).2.elim (.ok (.program p)) .error) := by
  refine (ends_modify _).bind ((ends_ofExcept hmode).bind ((ends_ofExcept hx).bind ?_))
  refine (ends_pure p).bind (hc.bind ?_)
  rcases replay p x cells with ⟨s, _ | f⟩
  · exact (ends_modify _).bind ((ends_modify _).bind (ends_pure _))
  · exact ends_throw f

theorem ends_runAssemble {files : FileTree} {segments : List Skeleton.Segment}
    {text memory : String} (hs : skeleton files o = .ok segments)
    (hc : Ends (memoryOf p) (.ok cells)) (ht : Assembly.render? p segments = .ok text)
    (hm : MemoryTable.render? cells = .ok memory) :
    Ends (runAssemble files o (.program p))
      (.ok (.artifact ⟨p.name, text, memory, p.instructionCount, cells.length⟩)) := by
  refine (ends_modify _).bind ((ends_ofExcept hs).bind ((ends_pure p).bind (hc.bind ?_)))
  exact (ends_ofExcept ht).bind ((ends_modify _).bind ((ends_ofExcept hm).bind (ends_pure _)))

end

section

variable {p : Pipeline} {files : FileTree}

theorem ends_runPass [Platform] (pass : Pass) {w r : Work} {c : PassConfig}
    (hq : p.printAfterAll = false) (hm : p.printMetrics = false)
    (hc : p.settings.configFor pass.name = c) (he : c.enabled.truthy = true)
    (h : Ends (pass.action.run files c.options w) (.ok r)) :
    Ends (runPass p files pass pass.input w) (.ok (pass.output, r)) := by
  subst hc
  unfold runPass
  simp only [he, hq, hm, Bool.not_true, Bool.false_eq_true, if_false, ne_eq, not_true_eq_false,
    pure_bind]
  exact (ends_modify _).bind (h.bind (ends_pure _))

theorem runPasses_cons [Platform] (p : Pipeline) {pass : Pass} {rest : List Registered}
    {stage next : Stage} {w v : Work} (h : Ends (runPass p files pass stage w) (.ok (next, v)))
    {m : Option Metrics} (s : Session) :
    ∃ t, (p.runPasses files stage w s (⟨pass, m⟩ :: rest)).1 =
      (p.runPasses files next v t rest).1 := by
  obtain ⟨t, ht⟩ := h { s with metrics := m }
  refine ⟨t, ?_⟩
  rw [runPasses, ht]

theorem run_result [Platform] (p : Pipeline) {c : Circuit.Loaded} {stage : Stage} {w : Work}
    (hq : p.printAfterAll = false)
    (h : ∀ s, (p.runPasses files .graph (.circuit c) s p.passes).1 = .ok (stage, w)) :
    (p.run files c).result = finish stage w := by
  have hopen : (p.opening c).run Session.start = (.ok (), Session.start) := by
    rw [opening, hq]
    rfl
  rw [run, hopen]
  have hrest := h Session.start
  rcases hrun : p.runPasses files .graph (.circuit c) Session.start p.passes with ⟨r, passes, s⟩
  rw [hrun] at hrest
  obtain rfl : r = .ok (stage, w) := hrest
  simp only [hrun]

theorem packaged_modulus : Config.modulus Config.packaged = .ok Field.defaultModulus := by
  have h : (Config.modulus Config.packaged).toOption = some Field.defaultModulus := by
    decide +kernel
  cases hm : Config.modulus Config.packaged with
  | ok m => simpa [hm, Except.toOption] using h
  | error f => simp [hm, Except.toOption] at h

theorem readSizes_same (size : Region → Int) (rs : List Region) :
    Layout.readSizes size (rs.map fun r => (r.name, .int (size r))) = .ok size := by
  induction rs with
  | nil => rfl
  | cons r rs ih =>
    have hname : Region.ofName? r.name = some r := by cases r <;> rfl
    have hsize : (fun q => if q = r then size r else size q) = size := by
      funext q
      by_cases hq : q = r
      · simp [hq]
      · simp [hq]
    rw [List.map_cons, Layout.readSizes, hname]
    simp only [Json.toInt, hsize]
    exact ih

theorem packaged_layout : Config.layout Config.packaged = .ok default := by
  have hsizes := readSizes_same Layout.defaultSize Region.all
  have hfields : Config.layout Config.packaged = Layout.readFields
      [("capacity", .int Layout.defaultCapacity), ("namespaces", .obj
        (Region.all.map fun r => (r.name, .int (Layout.defaultSize r))))] := rfl
  have hget : (Ordered.get? "namespaces" [("capacity", Json.int Layout.defaultCapacity),
      ("namespaces", .obj (Region.all.map fun r => (r.name, .int (Layout.defaultSize r))))]).getD
        (.obj []) = .obj (Region.all.map fun r => (r.name, .int (Layout.defaultSize r))) := rfl
  rw [hfields, Layout.readFields, hget]
  simp only [hsizes]
  rfl

/-- The passes with the packaged configuration, which print nothing. -/
def packaged : Pipeline :=
  ofSettings default Field.defaultModulus (Settings.load [] Config.packaged).1 false false

theorem ofConfig_packaged : ofConfig Config.packaged false false = .ok packaged := by
  rw [ofConfig, packaged_layout, packaged_modulus]
  rfl

section

variable [Platform] {c : Circuit.Loaded} {q : Program} {cells : List Cell} {text memory : String}

theorem packaged_lowers (files : FileTree)
    (hl : (Program.lower c.name c.graph c.witness default (.int 8) Field.defaultModulus).1 =
      .ok q) :
    Ends (runPass packaged files (Pass.lowering default Field.defaultModulus) .graph (.circuit c))
      (.ok (.program, .program q)) := by
  have hb : lookupBits (packaged.settings.configFor "lowering").options = .ok (.int 8) := rfl
  have hrun := ends_runLowering hb hl
  refine ends_runPass (Pass.lowering default Field.defaultModulus) rfl rfl rfl rfl ?_
  exact hrun

theorem packaged_writes (files : FileTree) (hw : (MemoryTable.write q).1 = .ok cells) :
    Ends (runPass packaged files Pass.memoryLayout .program (.program q))
      (.ok (.program, .program { q with memory := cells })) := by
  refine ends_runPass Pass.memoryLayout rfl rfl rfl rfl ?_
  exact ends_runMemoryLayout hw

theorem packaged_checks (files : FileTree) (hc : Ends (memoryOf q) (.ok cells))
    (hr : (replay q 0.0 cells).2 = none) :
    Ends (runPass packaged files Pass.replayCheck .program (.program q))
      (.ok (.program, .program q)) := by
  refine ends_runPass Pass.replayCheck rfl rfl rfl rfl ?_
  have hcheck := ends_runReplayCheck (o := (packaged.settings.configFor "replay-check").options)
    rfl rfl hc
  rwa [hr] at hcheck

theorem packaged_assembles (files : FileTree) (hc : Ends (memoryOf q) (.ok cells))
    (ht : Assembly.render? q Skeleton.packaged = .ok text)
    (hm : MemoryTable.render? cells = .ok memory) :
    Ends (runPass packaged files Pass.assemble .program (.program q)) (.ok (.artifact,
      .artifact ⟨q.name, text, memory, q.instructionCount, cells.length⟩)) := by
  refine ends_runPass Pass.assemble rfl rfl rfl rfl ?_
  exact ends_runAssemble rfl hc ht hm

theorem compile_packaged (files : FileTree)
    (hl : (Program.lower c.name c.graph c.witness default (.int 8) Field.defaultModulus).1 = .ok q)
    (hw : (MemoryTable.write q).1 = .ok cells) (hr : (replay q 0.0 cells).2 = none)
    (ht : Assembly.render? q Skeleton.packaged = .ok text)
    (hm : MemoryTable.render? cells = .ok memory) :
    (compile files Config.packaged (.obj []) false false c).1 =
      .ok ⟨q.name, text, memory, q.instructionCount, cells.length⟩ := by
  have hc : Ends (memoryOf { q with memory := cells }) (.ok cells) := ends_memoryOf hw (.inr rfl)
  have hcompile : (compile files Config.packaged (.obj []) false false c).1 =
      (packaged.run files c).result := by
    rw [compile, ofConfig_packaged]
    rfl
  have hresult : (packaged.run files c).result = finish .artifact (.artifact
      ⟨q.name, text, memory, q.instructionCount, cells.length⟩) := by
    apply run_result packaged rfl
    intro s
    obtain ⟨s, h⟩ := runPasses_cons packaged (packaged_lowers files hl) s
    refine h.trans ?_
    obtain ⟨s, h⟩ := runPasses_cons packaged (packaged_writes files hw) s
    refine h.trans ?_
    obtain ⟨s, h⟩ := runPasses_cons packaged (packaged_checks files hc hr) s
    refine h.trans ?_
    obtain ⟨s, h⟩ := runPasses_cons packaged (packaged_assembles files hc ht hm) s
    exact h
  rw [hcompile, hresult]
  rfl

end

end

end TensorAsm.Pipeline
