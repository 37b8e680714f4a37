import Mathlib
import TensorAsm.Proofs.Files
import TensorAsm.Proofs.Passes
import TensorAsm.Proofs.RoundTrip
import TensorAsm.Proofs.Strictness
import TensorAsm.Proofs.TableText
import TensorAsm.ReplayTool
/-!
The check of a program by replay and the replay of its texts. The two machines differ in the cells
that allow slack. What passes the check is replayed from its texts; the converse holds when no slack
is given or no computed output is fixed.
-/

namespace TensorAsm

namespace Machine

open Lowering

/-- The machine that allows slack on some cells. -/
def Settings.tolerating (c : Settings) (cells : List Int) : Settings := { c with tolerant := cells }

variable {c : Settings} {s t : State} {i : Instruction} {code : List Instruction} {xs ys : List Int}
  {d v : Int}

theorem permits_same (h : c.strict = true → ∀ held, s.memory[d]? = some held → held = v) :
    c.permits s d v = .ok () := by
  rw [Settings.permits]
  cases hs : c.strict with
  | false => rfl
  | true =>
    cases hd : s.memory[d]? with
    | none => rfl
    | some held => exact if_pos (h hs held hd)

theorem same_of_permits (hexact : d ∉ c.tolerant ∨ ∃ x, c.tolerance = some x ∧ x ≤ 0.0)
    (h : c.permits s d v = .ok ()) :
    c.strict = true → ∀ held, s.memory[d]? = some held → held = v := by
  intro hs held hd
  by_contra hne
  have haccept : c.accepts d held v = .ok false := by
    rw [Settings.accepts]
    by_cases ht : d ∈ c.tolerant
    · obtain ⟨x, hx, hle⟩ := hexact.resolve_left (not_not_intro ht)
      rw [if_neg (not_not_intro ht), hx]
      exact if_pos hle
    · exact if_pos ht
  rw [Settings.permits, hs, hd] at h
  simp only [if_neg hne, haccept] at h
  exact absurd h (by simp [bind, Except.bind, throw, throwThe, MonadExceptOf.throw])

theorem permits_tolerant (c : Settings) (hx : d ∈ xs) (hy : d ∈ ys) (s : State) (v : Int) :
    (c.tolerating xs).permits s d v = (c.tolerating ys).permits s d v := by
  have haccept (held : Int) :
      (c.tolerating xs).accepts d held v = (c.tolerating ys).accepts d held v := by
    have hxs : ¬ d ∉ (c.tolerating xs).tolerant := not_not_intro hx
    have hys : ¬ d ∉ (c.tolerating ys).tolerant := not_not_intro hy
    rw [Settings.accepts, Settings.accepts, if_neg hxs, if_neg hys]
    rfl
  simp only [Settings.permits, haccept]
  rfl

theorem permits_mono (h : d ∈ xs → d ∈ ys) (hp : (c.tolerating xs).permits s d v = .ok ()) :
    (c.tolerating ys).permits s d v = .ok () := by
  by_cases hd : d ∈ xs
  · rw [← permits_tolerant c hd (h hd), hp]
  · exact permits_same (c := c.tolerating ys) (same_of_permits (c := c.tolerating xs) (.inl hd) hp)

theorem step_transfer [Platform] (h : step (c.tolerating xs) s i = (t, none))
    (hp : ∀ d v tables, i.dest? = some d → t.memory = s.memory.insert d v →
      (c.tolerating xs).permits { s with tables := tables } d v = .ok () →
        (c.tolerating ys).permits { s with tables := tables } d v = .ok ()) :
    step (c.tolerating ys) s i = (t, none) := by
  have hs := step_stepped (c.tolerating xs) s i
  rw [h] at hs
  cases hs with
  | halted hd => rw [step, hd]
  | wrote hd hr hperm => exact step_writes (c := c.tolerating ys) hd hr (hp _ _ _ hd rfl hperm)

/-- A run without a fault. -/
inductive Runs [Platform] (c : Settings) : State → List Instruction → State → Prop
  | nil (s : State) : Runs c s [] s
  | halted {s : State} (code : List Instruction) : s.halted = true → Runs c s code s
  | cons {s u t : State} {i : Instruction} {code : List Instruction} : s.halted = false →
      step c s i = (u, none) → Runs c { u with pc := u.pc + 1 } code t → Runs c s (i :: code) t

theorem runThrough_eq_none [Platform] : runThrough c s code = (t, none) ↔ Runs c s code t := by
  constructor
  · intro h
    induction code generalizing s with
    | nil =>
      obtain rfl : s = t := congrArg Prod.fst h
      exact .nil s
    | cons i code ih =>
      cases hh : s.halted with
      | true =>
        rw [runThrough_halted hh] at h
        obtain rfl : s = t := congrArg Prod.fst h
        exact .halted _ hh
      | false =>
        rcases hs : step c s i with ⟨u, _ | f⟩
        · rw [runThrough_cons hh hs] at h
          exact .cons hh hs (ih h)
        · rw [runThrough_cons_fault hh hs] at h
          simp at h
  · intro h
    induction h with
    | nil s => rfl
    | halted code hh => exact runThrough_halted hh
    | cons hh hs _ ih => rw [runThrough_cons hh hs, ih]

theorem run_eq_none [Platform] {memory : Memory} : (run c code (.start memory)).2 = none ↔
    Runs c (.start memory) code (run c code (.start memory)).1 := by
  rw [run_start, ← runThrough_eq_none, Prod.ext_iff]
  simp

theorem Runs.mono [Platform] (hr : Runs (c.tolerating xs) s code t)
    (h : ∀ d ∈ targets code, d ∈ xs → d ∈ ys) : Runs (c.tolerating ys) s code t := by
  induction hr with
  | nil s => exact .nil s
  | halted code hh => exact .halted code hh
  | @cons s u t i code hh hs _ ih =>
    refine .cons hh (step_transfer hs ?_) (ih fun d hd => h d ?_)
    · intro d v tables hd _
      exact permits_mono (h d (by simp [targets, hd]))
    · exact ((List.sublist_cons_self i code).filterMap _).subset hd

theorem step_frame [Platform] {a : Int} (h : step c s i = (t, none)) (ha : i.dest? ≠ some a) :
    t.memory[a]? = s.memory[a]? := by
  have hs := step_stepped c s i
  rw [h] at hs
  cases hs with
  | halted hd => rfl
  | @wrote d v tables hd hr hp =>
    rw [get_insert, if_neg]
    rintro rfl
    exact ha hd

theorem Runs.frame [Platform] {a : Int} (hr : Runs c s code t) (ha : a ∉ targets code) :
    t.memory[a]? = s.memory[a]? := by
  induction hr with
  | nil | halted => rfl
  | @cons s u t i code hh hs _ ih =>
    have hi : i.dest? ≠ some a := fun hd => ha (by simp [targets, hd])
    have hc : a ∉ targets code :=
      fun hc => ha (((List.sublist_cons_self i code).filterMap _).subset hc)
    have hu := step_frame hs hi
    exact (ih hc).trans hu

/-- A run that leaves its slack unused on some cells, each written once, needs no slack there. -/
theorem Runs.of_kept [Platform] (hr : Runs (c.tolerating ys) s code t) (hone : (targets code).Nodup)
    (h : ∀ d ∈ targets code, d ∈ ys → d ∈ xs ∨ t.memory[d]? = s.memory[d]?) :
    Runs (c.tolerating xs) s code t := by
  induction hr with
  | nil s => exact .nil s
  | halted code hh => exact .halted code hh
  | @cons s u t i code hh hs hrest ih =>
    have hsub : targets code ⊆ targets (i :: code) :=
      ((List.sublist_cons_self i code).filterMap _).subset
    refine .cons hh (step_transfer hs ?_) (ih ?_ fun d hd hy => ?_)
    · intro d v tables hd hu hp
      rw [targets_cons hd] at hone
      have hlast : t.memory[d]? = some v := by
        rw [hrest.frame (List.nodup_cons.1 hone).1]
        exact hu ▸ (get_insert _ _ _ _).trans (if_pos rfl)
      by_cases hy : d ∈ ys
      · rcases h d (by simp [targets, hd]) hy with hx | hk
        · rw [permits_tolerant c hx hy, hp]
        · refine permits_same fun _ held hheld => ?_
          exact Option.some.inj (hheld.symm.trans (hk.symm.trans hlast))
      · exact permits_mono (fun hd => absurd hd hy) hp
    · exact hone.sublist ((List.sublist_cons_self i code).filterMap _)
    · refine (h d (hsub hd) hy).imp_right fun hk => hk.trans ?_
      refine (step_frame hs fun hi => ?_).symm
      rw [targets_cons hi] at hone
      exact (List.nodup_cons.1 hone).1 hd

theorem Runs.keeps [Platform] {a v : Int} (hr : Runs c s code t) (hs : c.strict = true)
    (ha : a ∉ c.tolerant ∨ ∃ x, c.tolerance = some x ∧ x ≤ 0.0) (hv : s.memory[a]? = some v) :
    t.memory[a]? = some v := by
  induction hr with
  | nil | halted => exact hv
  | @cons s u t i code hh hstep _ ih =>
    apply ih
    have h := step_stepped c s i
    rw [hstep] at h
    cases h with
    | halted => exact hv
    | @wrote d w tables hd hr hp =>
      by_cases he : d = a
      · subst he
        have hw := same_of_permits ha hp hs v hv
        exact (get_insert _ _ _ _).trans (if_pos rfl) |>.trans (congrArg some hw.symm)
      · exact (get_insert _ _ _ _).trans (if_neg he) |>.trans hv

theorem Runs.there [Platform] {a : Int} (hr : Runs c s code t) (ha : ∃ v, s.memory[a]? = some v) :
    ∃ v, t.memory[a]? = some v := by
  induction hr with
  | nil | halted => exact ha
  | @cons s u t i code hh hstep _ ih =>
    apply ih
    have h := step_stepped c s i
    rw [hstep] at h
    cases h with
    | halted => exact ha
    | @wrote d w tables hd hr hp =>
      by_cases he : d = a
      · exact ⟨w, (get_insert _ _ _ _).trans (if_pos he)⟩
      · obtain ⟨v, hv⟩ := ha
        exact ⟨v, (get_insert _ _ _ _).trans (if_neg he) |>.trans hv⟩

theorem step_plain [Platform] (c : Settings) (s : State) (i : Instruction) :
    step c s i.plain = step c s i := by
  cases i <;> rfl

theorem runThrough_plain [Platform] (c : Settings) (s : State) (code : List Instruction) :
    runThrough c s (code.map Instruction.plain) = runThrough c s code := by
  induction code generalizing s with
  | nil => rfl
  | cons i code ih => simp only [List.map_cons, runThrough, step_plain, ih]

theorem runThrough_snoc_halt [Platform] (c : Settings) (s : State) (code : List Instruction) :
    (runThrough c s (code ++ [.halt])).2 = (runThrough c s code).2 ∧
      (runThrough c s (code ++ [.halt])).1.memory = (runThrough c s code).1.memory := by
  induction code generalizing s with
  | nil =>
    cases hh : s.halted with
    | true => rw [runThrough_halted hh, runThrough_halted hh]; exact ⟨rfl, rfl⟩
    | false =>
      rw [List.nil_append, runThrough_cons hh rfl]
      exact ⟨rfl, rfl⟩
  | cons i code ih =>
    cases hh : s.halted with
    | true => rw [runThrough_halted hh, runThrough_halted hh]; exact ⟨rfl, rfl⟩
    | false =>
      rcases hs : step c s i with ⟨u, _ | f⟩
      · rw [List.cons_append, runThrough_cons hh hs, runThrough_cons hh hs]
        exact ih _
      · rw [List.cons_append, runThrough_cons_fault hh hs, runThrough_cons_fault hh hs]
        exact ⟨rfl, rfl⟩

theorem readSignedAfter_isOk {m : Int} (hm : m ≠ 0) {n : Nat} {base : Int}
    (h : ∀ i : Nat, i < n → ∃ v, s.memory[base + (i : Int)]? = some v) (done : List Int) :
    ∃ vs, s.readSignedAfter m done base n = .ok vs := by
  induction n generalizing base done with
  | zero => exact ⟨_, rfl⟩
  | succ n ih =>
    obtain ⟨v, hv⟩ := h 0 (by omega)
    have hread : s.read base = .ok v := State.read_eq_ok.2 (by simpa using hv)
    have hcentre : Field.centre? m v = .ok (Field.centre m v) := nonzero_eq_ok.2 ⟨hm, rfl⟩
    simp only [State.readSignedAfter, hread, hcentre]
    apply ih
    intro i hi
    obtain ⟨w, hw⟩ := h (i + 1) (by omega)
    refine ⟨w, ?_⟩
    rwa [add_assoc, add_comm 1 (i : Int)]

end Machine

theorem Pipeline.check_isOk [Platform] {p : Program} {cells : List Cell} {o : Options} {x : Float}
    (hp : p.memory = []) (hc : (MemoryTable.write p).1 = .ok cells)
    (hmode : checkMode o = .ok .safe) (hx : tolerance o = .ok x) (s : Session) :
    (∃ work, ((runReplayCheck o (.program p)).run s).1 = .ok work) ↔
      (replay p x cells).2 = none := by
  obtain ⟨u, hu⟩ := ends_runReplayCheck hmode hx (ends_memoryOf hc (.inl hp)) s
  rw [hu]
  cases (replay p x cells).2 <;> simp

theorem ReplayTool.load_texts {files : FileTree} {program memory text table : String}
    {t : ProgramText} {cells : List Cell} (hprogram : readFile files program = .ok text)
    (hmemory : readFile files memory = .ok table) (htext : ProgramText.read text = .ok t)
    (htable : MemoryTable.render? cells = .ok table) : load files program (some memory) =
      .ok ⟨t, MemoryTable.cellMap (MemoryTable.entries cells)⟩ := by
  have hrows := MemoryTable.readRows_of_render? htable
  simp only [load, hprogram, hmemory, htext, hrows, bind, Except.bind]
  rfl

theorem MemoryTable.modulus_ne_zero [Platform] {p : Program}
    {owners : Std.TreeMap Int Allocator.Owner} {x : Int} {c : Cell} (h : cell p owners x = .ok c) :
    p.modulus ≠ 0 := by
  unfold cell at h
  dsimp only at h
  split at h
  · simp at h
  · obtain ⟨e, he, -⟩ := Sequences.map_ok h
    exact (Machine.nonzero_eq_ok.1 he).1

namespace Program

open Lowering

variable [Platform]

section

variable {name : String} {g : Circuit.Graph} {w : Witness} {layout : Layout} {lookupBits : Json}
  {m : Int} {p : Program}

theorem lower_memory (h : (lower name g w layout lookupBits m).1 = .ok p) : p.memory = [] := by
  obtain ⟨plan, derived, rfl⟩ := lower_keeps h
  rfl

end

/-- A text has the instructions of a program and the ranges of its outputs. -/
structure Listed (p : Program) (t : ProgramText) : Prop where
  instructions : t.instructions = p.instructions.map Instruction.plain ∨
    t.instructions = p.instructions.map Instruction.plain ++ [.halt]
  outputs : List.Forall₂ p.Describes p.graph.outputs t.outputs

namespace Lowered

variable {g : Circuit.Graph} {w : Witness} {lookupBits : Json} {m : Int} {p : Program}
  {values : Values} {b : Allocation} {t : ProgramText} {cells : List Cell} {d : Int}

theorem scratch_region (h : Lowered g w lookupBits m p values)
    (hb : b ∈ p.plan.allocator.allocations) (hk : b.kind = .scratch) :
    b.address.region = .intermediate := by
  obtain ⟨layout, journal, zb, xs, outs, hp⟩ := h.planned
  obtain ⟨x, hx, hbx⟩ := hp.mem_scratch.1 ⟨hb, hk⟩
  obtain ⟨before, hv⟩ := hp.valid hx
  obtain ⟨n, hown⟩ := hv.template.owned b hbx
  exact hown.region

theorem output_region (h : Lowered g w lookupBits m p values)
    (hb : b ∈ p.plan.allocator.allocations) (hr : b.address.region = .output) :
    b.kind = .tensor ∧ b.name ∈ g.outputs := by
  obtain ⟨layout, journal, zb, xs, outs, hp⟩ := h.planned
  cases hk : b.kind with
  | tensor =>
    refine ⟨rfl, ?_⟩
    obtain ⟨-, u, -, -, hreg⟩ := h.sound.tensor b hb hk
    by_contra hout
    rw [hr, Allocator.regionOf, hp.outputs, if_neg (c := g.outputs.contains b.name = true)
      (by simpa using hout)] at hreg
    split at hreg
    · simp at hreg
    · split at hreg <;> simp at hreg
  | table =>
    have hreg := (h.sound.folded b hb hk).1
    simp [hr] at hreg
  | scratch =>
    have hreg := h.scratch_region hb hk
    simp [hr] at hreg
  | control =>
    have hreg := (h.sound.control b hb hk).2.2
    simp [hr] at hreg

theorem computed_output (h : Lowered g w lookupBits m p values)
    (hb : b ∈ p.plan.allocator.allocations) (hk : b.kind = .tensor) (hout : b.name ∈ g.outputs)
    {o : Circuit.Operation} (ho : o ∈ g.operations) (hn : o.output = b.name) :
    b.address.region = .output ∨ b.address.region = .fixed ∧
      ∃ u, g.tensor? o.output = some u ∧ u.visibility = .fixed := by
  obtain ⟨layout, journal, zb, xs, outs, hp⟩ := h.planned
  obtain ⟨-, u, hu, -, hreg⟩ := h.sound.tensor b hb hk
  have hin : b.name ∉ g.inputs := by
    intro hin
    exact Circuit.Graph.producer_eq_none.1 (h.wellFormed.unproduced b.name hin) o ho hn
  by_cases hv : u.visibility = .fixed
  · exact .inr ⟨by rw [hreg, Allocator.regionOf, if_pos hv], u, hn ▸ hu, hv⟩
  · refine .inl ?_
    rw [hreg, Allocator.regionOf, if_neg hv, hp.inputs, hp.outputs]
    simp [hin, hout]

theorem describes_block (h : Lowered g w lookupBits m p values) (hgraph : p.graph = g)
    {id : String} {o : OutputRange} (ho : p.Describes id o) :
    ∃ b ∈ p.plan.allocator.allocations, b.kind = .tensor ∧ b.name = id ∧
      o.base = b.address.absolute ∧ o.length = b.size := by
  obtain ⟨b, hb, hbase⟩ := ho.block
  obtain ⟨u, hu, hlen, -⟩ := ho.tensor
  obtain ⟨hm, hk, rfl⟩ := h.sound.coherent.bound_mem hb
  obtain ⟨-, v, hv, hs, -⟩ := h.sound.tensor b hm hk
  rw [hgraph] at hu
  obtain rfl : u = v := Option.some.inj (hu.symm.trans hv)
  exact ⟨b, hm, hk, rfl, hbase, hlen.trans hs.symm⟩

theorem describes_cells (h : Lowered g w lookupBits m p values) (hgraph : p.graph = g)
    {id : String} {o : OutputRange} (ho : p.Describes id o) :
    ∃ b ∈ p.plan.allocator.allocations, b.kind = .tensor ∧ b.name = id ∧
      ReplayTool.outputCells o = b.cells := by
  obtain ⟨b, hb, hk, hn, hbase, hlen⟩ := h.describes_block hgraph ho
  exact ⟨b, hb, hk, hn, by rw [ReplayTool.outputCells, Allocation.cells, hbase, hlen]⟩

theorem mem_outputCells (h : Lowered g w lookupBits m p values) (hgraph : p.graph = g)
    (ht : p.Listed t) : d ∈ t.outputs.flatMap ReplayTool.outputCells ↔
      ∃ b ∈ p.plan.allocator.allocations, b.kind = .tensor ∧ b.name ∈ g.outputs ∧ d ∈ b.cells := by
  rw [List.mem_flatMap]
  constructor
  · rintro ⟨o, ho, hd⟩
    obtain ⟨id, hid, hdesc⟩ := Sequences.forall₂_mem_right ht.outputs ho
    obtain ⟨b, hb, hk, rfl, hcells⟩ := h.describes_cells hgraph hdesc
    exact ⟨b, hb, hk, hgraph ▸ hid, hcells ▸ hd⟩
  · rintro ⟨b, hb, hk, hid, hd⟩
    obtain ⟨o, ho, hdesc⟩ := Sequences.forall₂_of_mem ht.outputs (hgraph ▸ hid)
    obtain ⟨b', hb', hk', hn, hcells⟩ := h.describes_cells hgraph hdesc
    obtain rfl : b' = b := h.sound.eq_of_name hb hb' (.inl hk) (hk'.trans hk.symm) hn
    exact ⟨o, ho, hcells ▸ hd⟩

theorem mem_region (h : Lowered g w lookupBits m p values)
    (hb : b ∈ p.plan.allocator.allocations) (hd : d ∈ b.cells) :
    d ∈ MemoryTable.addresses p.plan.allocator b.address.region := by
  rw [MemoryTable.mem_addresses, h.sound.coherent.used_eq]
  exact h.sound.tiles.cell_bounds hb hd

theorem output_subset (h : Lowered g w lookupBits m p values) (hgraph : p.graph = g)
    (ht : p.Listed t) (hd : d ∈ MemoryTable.addresses p.plan.allocator .output) :
    d ∈ t.outputs.flatMap ReplayTool.outputCells := by
  obtain ⟨hl, hu⟩ := MemoryTable.mem_addresses.1 hd
  obtain ⟨b, hb, hr, hdb⟩ := h.sound.tiles.covered hl (h.sound.coherent.used_eq _ ▸ hu)
  obtain ⟨hk, hout⟩ := h.output_region hb hr
  exact (h.mem_outputCells hgraph ht).2 ⟨b, hb, hk, hout, hdb⟩

theorem output_or_fixed (h : Lowered g w lookupBits m p values) (hgraph : p.graph = g)
    (ht : p.Listed t) (hw : d ∈ targets p.instructions)
    (hd : d ∈ t.outputs.flatMap ReplayTool.outputCells) :
    d ∈ MemoryTable.addresses p.plan.allocator .output ∨
      d ∈ MemoryTable.addresses p.plan.allocator .fixed ∧ ∃ o ∈ g.operations,
        o.output ∈ g.outputs ∧ ∃ u, g.tensor? o.output = some u ∧ u.visibility = .fixed := by
  obtain ⟨layout, journal, zb, xs, outs, hp⟩ := h.planned
  obtain ⟨b, hb, hk, hout, hdb⟩ := (h.mem_outputCells hgraph ht).1 hd
  obtain ⟨b', hb', hdb', hkind⟩ := ((hp.singleAssignment h.wellFormed).exactly d).1 hw
  obtain rfl := h.sound.tiles.owner_unique hb hb' hdb hdb'
  rcases hkind with hs | ⟨-, o, ho, hn⟩
  · exact absurd (hk.symm.trans hs) (by simp)
  · rcases h.computed_output hb hk hout ho hn with hr | ⟨hr, hfix⟩
    · exact .inl (hr ▸ h.mem_region hb hdb)
    · exact .inr ⟨hr ▸ h.mem_region hb hdb, o, ho, hn ▸ hout, hfix⟩

theorem modulus_ne_zero (h : Lowered g w lookupBits m p values)
    (hc : (MemoryTable.write p).1 = .ok cells) : m ≠ 0 := by
  obtain ⟨layout, journal, zb, xs, outs, hp⟩ := h.planned
  obtain ⟨hz, hcz⟩ := hp.zero_mem
  rw [MemoryTable.write, MemoryTable.writeRegions_eq] at hc
  have hmem := (MemoryTable.mem_all_addresses h.sound.coherent h.sound.tiles).2 ⟨zb, hz, hcz⟩
  obtain ⟨c, -, hcell⟩ := Sequences.mapM_of_mem hc hmem
  exact h.modulus ▸ MemoryTable.modulus_ne_zero hcell

theorem cell_there (h : Lowered g w lookupBits m p values)
    (hc : (MemoryTable.write p).1 = .ok cells) (hb : b ∈ p.plan.allocator.allocations)
    (hd : d ∈ b.cells) : ∃ v, (MemoryTable.cellMap (MemoryTable.entries cells))[d]? = some v := by
  obtain ⟨i, hi, rfl⟩ := Allocation.exists_cell hd
  obtain ⟨v, -, hv⟩ := h.mem_entries (h.modulus_ne_zero hc) hc hb hi
  exact ⟨_, MemoryTable.get_cellMap (h.entries_nodup hc) hv⟩

end Lowered

theorem Listed.run_eq {p : Program} {t : ProgramText} (ht : p.Listed t) (c : Machine.Settings)
    (memory : Machine.Memory) :
    (Machine.run c t.instructions (.start memory)).2 =
        (Machine.run c p.instructions (.start memory)).2 ∧
      (Machine.run c t.instructions (.start memory)).1.memory =
        (Machine.run c p.instructions (.start memory)).1.memory := by
  simp only [Machine.run_start]
  rcases ht.instructions with hi | hi
  · rw [hi, Machine.runThrough_plain]
    exact ⟨rfl, rfl⟩
  · rw [hi, ← Machine.runThrough_plain c (.start memory) p.instructions]
    exact Machine.runThrough_snoc_halt c _ _

/-- The texts of a program are replayed when its instructions run through: all cells of the outputs
are there. -/
theorem Lowered.replay_isOk {g : Circuit.Graph} {w : Witness} {lookupBits : Json} {m : Int}
    {p : Program} {values : Values} {t : ProgramText} {cells : List Cell}
    (h : Lowered g w lookupBits m p values) (hgraph : p.graph = g)
    (hc : (MemoryTable.write p).1 = .ok cells) (ht : p.Listed t) {c : Machine.Settings}
    (hm : c.modulus = m) :
    (∃ outputs, ReplayTool.replay ⟨t, MemoryTable.cellMap (MemoryTable.entries cells)⟩ c =
      .ok outputs) ↔ (Machine.run c p.instructions
        (.start (MemoryTable.cellMap (MemoryTable.entries cells)))).2 = none := by
  obtain ⟨hfault, hmemory⟩ := ht.run_eq c (MemoryTable.cellMap (MemoryTable.entries cells))
  rw [← hfault, ReplayTool.replay]
  rcases hr : Machine.run c t.instructions
    (.start (MemoryTable.cellMap (MemoryTable.entries cells))) with ⟨last, _ | f⟩
  · simp only [iff_true]
    have hread : ∀ o ∈ t.outputs, ∃ vs,
        last.readSigned c.modulus o.base o.length.toNat = .ok vs := by
      intro o ho
      obtain ⟨id, -, hdesc⟩ := Sequences.forall₂_mem_right ht.outputs ho
      obtain ⟨b, hb, -, -, hcells⟩ := h.describes_cells hgraph hdesc
      apply Machine.readSignedAfter_isOk (hm ▸ h.modulus_ne_zero hc)
      intro i hi
      have hmem : o.base + (i : Int) ∈ b.cells := by
        rw [← hcells]
        exact List.mem_map.2 ⟨i, List.mem_range.2 hi, rfl⟩
      exact (Machine.runThrough_eq_none.1 hr).there (h.cell_there hc hb hmem)
    obtain ⟨values, hv⟩ := Sequences.mapM_ok_of_forall (f := fun o : OutputRange => do
        return (o.name, ← last.readSigned c.modulus o.base o.length.toNat)) fun o ho => by
      obtain ⟨vs, hvs⟩ := hread o ho
      exact ⟨(o.name, vs), by rw [hvs]; rfl⟩
    exact ⟨Ordered.ofList values, by rw [hv]; rfl⟩
  · simp

namespace Lowered

variable {g : Circuit.Graph} {w : Witness} {lookupBits : Json} {m : Int} {p : Program}
  {values : Values} {t : ProgramText} {cells : List Cell} {c : Machine.Settings}
  {last : Machine.State}

theorem fixed_apart (h : Lowered g w lookupBits m p values) {a : Int}
    (ha : a ∈ MemoryTable.addresses p.plan.allocator .fixed) :
    a ∉ MemoryTable.addresses p.plan.allocator .output := by
  intro ho
  have hne : Region.fixed ≠ .output := by decide
  have hapart := p.plan.allocator.layout.region_apart hne
  have hf := h.sound.tiles.taken_bounds .fixed
  have hout := h.sound.tiles.taken_bounds .output
  rw [MemoryTable.mem_addresses, h.sound.coherent.used_eq] at ha ho
  omega

theorem fixed_there (h : Lowered g w lookupBits m p values)
    (hc : (MemoryTable.write p).1 = .ok cells) {a : Int}
    (ha : a ∈ MemoryTable.addresses p.plan.allocator .fixed) :
    ∃ v, (MemoryTable.cellMap (MemoryTable.entries cells))[a]? = some v := by
  obtain ⟨hl, hu⟩ := MemoryTable.mem_addresses.1 ha
  obtain ⟨b, hb, -, hab⟩ := h.sound.tiles.covered hl (h.sound.coherent.used_eq _ ▸ hu)
  exact h.cell_there hc hb hab

/-- The check is the replay with slack on all outputs, in which no fixed cell may change. -/
theorem check_iff (h : Lowered g w lookupBits m p values) (hgraph : p.graph = g)
    (hc : (MemoryTable.write p).1 = .ok cells) (ht : p.Listed t) (x : Float) :
    (Pipeline.replay p x cells).2 = none ↔
      (Machine.run (ReplayTool.settings t true (some x) m) p.instructions
        (.start (MemoryTable.cellMap (MemoryTable.entries cells)))).2 = none ∧
      ∀ a ∈ MemoryTable.addresses p.plan.allocator .fixed,
        (Machine.run (ReplayTool.settings t true (some x) m) p.instructions
            (.start (MemoryTable.cellMap (MemoryTable.entries cells)))).1.memory[a]? =
          (MemoryTable.cellMap (MemoryTable.entries cells))[a]? := by
  obtain ⟨layout, journal, zb, xs, outs, hp⟩ := h.planned
  let c : Machine.Settings := ⟨m, true, some x, []⟩
  have hnarrow : Pipeline.replaySettings p x =
      c.tolerating (MemoryTable.addresses p.plan.allocator .output) := by
    rw [Pipeline.replaySettings, h.modulus]
    rfl
  have hwide : ReplayTool.settings t true (some x) m =
      c.tolerating (t.outputs.flatMap ReplayTool.outputCells) := rfl
  rw [Pipeline.replay, ← MemoryTable.entries, hnarrow, hwide]
  constructor
  · intro hnone
    have hr := Machine.run_eq_none.1 hnone
    have hrun := Machine.runThrough_eq_none.2 (hr.mono fun d _ => h.output_subset hgraph ht)
    rw [← Machine.run_start] at hrun
    refine ⟨congrArg Prod.snd hrun, fun a ha => ?_⟩
    obtain ⟨v, hv⟩ := h.fixed_there hc ha
    rw [hrun, hv]
    exact hr.keeps rfl (.inl (h.fixed_apart ha)) hv
  · rintro ⟨hnone, hkept⟩
    have hr := Machine.run_eq_none.1 hnone
    refine congrArg Prod.snd (Machine.runThrough_eq_none.2 (hr.of_kept
      (hp.singleAssignment h.wellFormed).once fun d hd ho => ?_))
    exact (h.output_or_fixed hgraph ht hd ho).imp_right fun hf => hkept d hf.1

/-- Without slack, or where no computed output is fixed, no fixed cell changes. -/
theorem fixed_kept (h : Lowered g w lookupBits m p values) (hgraph : p.graph = g)
    (hc : (MemoryTable.write p).1 = .ok cells) (ht : p.Listed t) {x : Float}
    (hslack : x ≤ 0.0 ∨ ∀ o ∈ g.operations, o.output ∈ g.outputs →
      ∀ u, g.tensor? o.output = some u → u.visibility ≠ .fixed)
    (hnone : (Machine.run (ReplayTool.settings t true (some x) m) p.instructions
      (.start (MemoryTable.cellMap (MemoryTable.entries cells)))).2 = none) :
    ∀ a ∈ MemoryTable.addresses p.plan.allocator .fixed,
      (Machine.run (ReplayTool.settings t true (some x) m) p.instructions
          (.start (MemoryTable.cellMap (MemoryTable.entries cells)))).1.memory[a]? =
        (MemoryTable.cellMap (MemoryTable.entries cells))[a]? := by
  intro a ha
  have hr := Machine.run_eq_none.1 hnone
  obtain ⟨v, hv⟩ := h.fixed_there hc ha
  by_cases hw : a ∈ targets p.instructions
  · rw [hv]
    refine hr.keeps rfl ?_ hv
    refine hslack.symm.imp (fun hnone ho => ?_) fun hx => ⟨x, rfl, hx⟩
    rcases h.output_or_fixed hgraph ht hw ho with hout | ⟨-, o, hop, hout, u, hu, hfix⟩
    · exact h.fixed_apart ha hout
    · exact hnone o hop hout u hu hfix
  · exact hr.frame hw

end Lowered

end Program

namespace Loose

def graph (v : Circuit.Visibility) : Circuit.Graph :=
  ⟨[⟨"x", [1], 0, .priv⟩, ⟨"y", [1], 0, v⟩], [⟨1, "identity", ["x"], "y", 0, []⟩], ["x"], ["y"]⟩

def circuit (v : Circuit.Visibility) : Json := (graph v).document

def values : Json := .obj [("x", .arr [.int 100]), ("y", .arr [.int 101])]

def witness : Witness := [("x", ⟨[1], #[100]⟩), ("y", ⟨[1], #[101]⟩)]

def options : Pipeline.Options := [(.str "tolerance", .float 10.0)]

def cells (y : Int) : List Cell := [⟨0, 0⟩, ⟨16, 100⟩, ⟨y, 101⟩]

def files (text table : String) : FileTree := ⟨[(["p"], .file text), (["m"], .file table)], []⟩

theorem read_private : Circuit.read (circuit .priv) = .ok (graph .priv) := by
  cbv

theorem read_fixed : Circuit.read (circuit .fixed) = .ok (graph .fixed) := by
  cbv

theorem read_private_values :
    Witness.read Field.defaultModulus (graph .priv) values = .ok witness := by
  cbv

theorem read_fixed_values :
    Witness.read Field.defaultModulus (graph .fixed) values = .ok witness := by
  cbv

theorem mode : Pipeline.checkMode options = .ok .safe := rfl

theorem slack : Pipeline.tolerance options = .ok 10.0 := rfl

/-- What is computed of a program: its table, the one cell of `y` and that all of it is legible. -/
def Written (y : Int) (p : Program) : Prop :=
  (MemoryTable.write p).1.toOption = some (cells y) ∧
    (∃ b ∈ p.plan.allocator.allocations, b.kind = .tensor ∧ b.name = "y" ∧ y ∈ b.cells) ∧
    (∀ s ∈ [Slot.layout, .tables, .outputs, .body], ∀ x ∈ Assembly.slotNumbers p s,
      Numeral.isWritable x = true) ∧
    (∀ b ∈ p.plan.allocator.allocations, ∀ x ∈ [b.address.absolute, b.size],
      Numeral.isWritable x = true) ∧
    (∀ id ∈ p.graph.outputs, Text.Word id.toList) ∧ ∀ i ∈ p.instructions, i.Numeric

instance (y : Int) (p : Program) : Decidable (Written y p) := inferInstanceAs (Decidable (_ ∧ _))

theorem Written.write {y : Int} {p : Program} (h : Written y p) :
    (MemoryTable.write p).1 = .ok (cells y) := by
  obtain ⟨hw, -⟩ := h
  cases hc : (MemoryTable.write p).1 with
  | ok given => simpa [hc, Except.toOption] using hw
  | error f => simp [hc, Except.toOption] at hw

theorem render (y : Int) (hy : Numeral.isWritable y = true) :
    MemoryTable.render? (cells y) = .ok (MemoryTable.render (cells y)) := by
  rw [MemoryTable.render?, written, if_pos]
  simp only [MemoryTable.numbers, cells, List.flatMap_cons, List.flatMap_nil, List.all_cons,
    List.all_nil, List.cons_append, List.nil_append, hy]
  decide +kernel

theorem Written.listed {v : Circuit.Visibility} {y : Int} {p : Program} (h : Written y p)
    {doc : Json} (hg : Circuit.read doc = .ok (graph v))
    (hw : Witness.read Field.defaultModulus (graph v) values = .ok witness)
    (hl : (Program.lower "c" (graph v) witness default (.int 8) Field.defaultModulus).1 = .ok p) :
    ∃ text t, Assembly.render? p Skeleton.packaged = .ok text ∧ ProgramText.read text = .ok t ∧
      p.Listed t := by
  obtain ⟨-, -, hs, hb, ho, hn⟩ := h
  obtain ⟨values, hlow⟩ := Program.lower_lowered hg hw hl
  obtain ⟨plan, derived, rfl⟩ := Program.lower_keeps hl
  have hids : ∀ id ∈ (graph v).required, Text.OneLine id.toList := by
    have hreq : (graph v).required = ["x", "y"] := by cbv
    rw [hreq]
    decide
  have hname : Text.OneLine "c".toList := by decide
  obtain ⟨text, t, hr, ht, hrest⟩ := hlow.readsBack rfl hname hids (Clamped.legible hs hb ho hn)
  exact ⟨text, t, hr, ht, .inr hrest.instructions, hrest.outputs⟩

theorem lowers_private : ∃ p,
    (Program.lower "c" (graph .priv) witness default (.int 8) Field.defaultModulus).1 = .ok p ∧
      Written 983040 p ∧ (Pipeline.replay p 10.0 (cells 983040)).2.isNone = true :=
  Clamped.exists_ok_and (by decide +kernel)

theorem lowers_fixed : ∃ p,
    (Program.lower "c" (graph .fixed) witness default (.int 8) Field.defaultModulus).1 = .ok p ∧
      Written 65552 p ∧ (Pipeline.replay p 10.0 (cells 65552)).2.isSome = true ∧
      (Machine.run ⟨Field.defaultModulus, true, some 10.0, [65552]⟩ p.instructions
        (.start (MemoryTable.cellMap (MemoryTable.entries (cells 65552))))).2.isNone = true :=
  Clamped.exists_ok_and (by decide +kernel)

end Loose

namespace Program

/-- The check of a program by replay and the replay of its texts, with the same slack. What passes
the check is replayed from any text that lists the program and from its table; the check asks
besides that no fixed cell changes. That makes no difference without slack, or if no computed
output is fixed. -/
theorem check_agrees [Platform] {doc given : Json} {g : Circuit.Graph} {w : Witness} {name : String}
    {layout : Layout} {lookupBits : Json} {m : Int} {p : Program} (hg : Circuit.read doc = .ok g)
    (hw : Witness.read m g given = .ok w) (hl : (lower name g w layout lookupBits m).1 = .ok p)
    {cells : List Cell} {text table : String} {t : ProgramText}
    (hc : (MemoryTable.write p).1 = .ok cells) (htable : MemoryTable.render? cells = .ok table)
    (htext : ProgramText.read text = .ok t) (ht : p.Listed t) {files : FileTree}
    {program memory : String} (hprogram : ReplayTool.readFile files program = .ok text)
    (hmemory : ReplayTool.readFile files memory = .ok table) {o : Pipeline.Options} {x : Float}
    (hmode : Pipeline.checkMode o = .ok .safe) (hx : Pipeline.tolerance o = .ok x)
    (s : Pipeline.Session) :
    ∃ l, ReplayTool.load files program (some memory) = .ok l ∧
      ((∃ work, ((Pipeline.runReplayCheck o (.program p)).run s).1 = .ok work) ↔
        (∃ outputs, ReplayTool.replay l (ReplayTool.settings l.program true (some x) m) =
          .ok outputs) ∧
        ∀ a ∈ MemoryTable.addresses p.plan.allocator .fixed,
          (Machine.run (ReplayTool.settings l.program true (some x) m) l.program.instructions
            (.start l.memory)).1.memory[a]? = l.memory[a]?) ∧
      (x ≤ 0.0 ∨ (∀ op ∈ g.operations, op.output ∈ g.outputs →
          ∀ u, g.tensor? op.output = some u → u.visibility ≠ .fixed) →
        ((∃ work, ((Pipeline.runReplayCheck o (.program p)).run s).1 = .ok work) ↔
          ∃ outputs, ReplayTool.replay l (ReplayTool.settings l.program true (some x) m) =
            .ok outputs)) := by
  obtain ⟨values, h⟩ := lower_lowered hg hw hl
  have hgraph := lower_graph hl
  have hload := ReplayTool.load_texts hprogram hmemory htext htable
  have hpass := Pipeline.check_isOk (lower_memory hl) hc hmode hx s
  have htool := h.replay_isOk hgraph hc ht (c := ReplayTool.settings t true (some x) m) rfl
  have hmem := (ht.run_eq (ReplayTool.settings t true (some x) m)
    (MemoryTable.cellMap (MemoryTable.entries cells))).2
  refine ⟨_, hload, ?_, fun hslack => ?_⟩
  · rw [hpass, htool, hmem]
    exact h.check_iff hgraph hc ht x
  · rw [hpass, htool, h.check_iff hgraph hc ht x]
    exact and_iff_left_of_imp (h.fixed_kept hgraph hc ht hslack)

/-- Here both have slack for the output, which is off by one per cent. -/
theorem loose_check_agrees : ∃ p text l outputs,
    (lower "c" (Loose.graph .priv) Loose.witness default (.int 8) Field.defaultModulus).1 = .ok p ∧
      Assembly.render? p Skeleton.packaged = .ok text ∧
      ReplayTool.load (Loose.files text (MemoryTable.render (Loose.cells 983040))) "p" (some "m") =
        .ok l ∧
      ReplayTool.replay l (ReplayTool.settings l.program true (some 10.0) Field.defaultModulus) =
        .ok outputs ∧
      ∃ work, ((Pipeline.runReplayCheck Loose.options (.program p)).run .start).1 = .ok work := by
  obtain ⟨p, hl, hp, hr⟩ := Loose.lowers_private
  obtain ⟨text, t, hrender, htext, ht⟩ := hp.listed Loose.read_private Loose.read_private_values hl
  let files := Loose.files text (MemoryTable.render (Loose.cells 983040))
  have hprogram : ReplayTool.readFile files "p" = .ok text := rfl
  have hmemory :
      ReplayTool.readFile files "m" = .ok (MemoryTable.render (Loose.cells 983040)) := rfl
  obtain ⟨l, hload, hiff, -⟩ := check_agrees Loose.read_private Loose.read_private_values hl
    hp.write (Loose.render 983040 (by decide +kernel)) htext ht hprogram hmemory Loose.mode
    Loose.slack .start
  have hcheck : ∃ work, ((Pipeline.runReplayCheck Loose.options (.program p)).run .start).1 =
      .ok work := by
    refine (Pipeline.check_isOk ?_ hp.write Loose.mode Loose.slack .start).2 (by simpa using hr)
    exact lower_memory hl
  obtain ⟨⟨outputs, hout⟩, -⟩ := hiff.1 hcheck
  exact ⟨p, text, l, outputs, hl, hrender, hload, hout, hcheck⟩

/-- A computed output that is fixed: with slack for it the replay succeeds, and the check fails. -/
theorem loose_fixed_differs : ∃ p text l outputs,
    Circuit.read (Loose.circuit .fixed) = .ok (Loose.graph .fixed) ∧
      Witness.read Field.defaultModulus (Loose.graph .fixed) Loose.values = .ok Loose.witness ∧
      (lower "c" (Loose.graph .fixed) Loose.witness default (.int 8) Field.defaultModulus).1 =
        .ok p ∧
      Assembly.render? p Skeleton.packaged = .ok text ∧
      ReplayTool.load (Loose.files text (MemoryTable.render (Loose.cells 65552))) "p" (some "m") =
        .ok l ∧ p.Listed l.program ∧
      ReplayTool.replay l (ReplayTool.settings l.program true (some 10.0) Field.defaultModulus) =
        .ok outputs ∧
      Pipeline.checkMode Loose.options = .ok .safe ∧
      Pipeline.tolerance Loose.options = .ok 10.0 ∧
      ¬ ∃ work, ((Pipeline.runReplayCheck Loose.options (.program p)).run .start).1 = .ok work := by
  obtain ⟨p, hl, hp, hr, hwide⟩ := Loose.lowers_fixed
  obtain ⟨text, t, hrender, htext, ht⟩ := hp.listed Loose.read_fixed Loose.read_fixed_values hl
  obtain ⟨values, h⟩ := lower_lowered Loose.read_fixed Loose.read_fixed_values hl
  have hload : ReplayTool.load (Loose.files text (MemoryTable.render (Loose.cells 65552))) "p"
      (some "m") = .ok ⟨t, MemoryTable.cellMap (MemoryTable.entries (Loose.cells 65552))⟩ :=
    ReplayTool.load_texts rfl rfl htext (Loose.render 65552 (by decide +kernel))
  have hrun : (Machine.run (ReplayTool.settings t true (some 10.0) Field.defaultModulus)
      p.instructions (.start (MemoryTable.cellMap
        (MemoryTable.entries (Loose.cells 65552))))).2 = none := by
    let c : Machine.Settings := ⟨Field.defaultModulus, true, some 10.0, []⟩
    have hrun := Machine.run_eq_none (c := c.tolerating [65552]).1
      (Option.isNone_iff_eq_none.1 hwide)
    obtain ⟨-, ⟨b, hb, hk, hn, hd⟩, -⟩ := hp
    have hcell : 65552 ∈ t.outputs.flatMap ReplayTool.outputCells :=
      (h.mem_outputCells (lower_graph hl) ht).2 ⟨b, hb, hk, by simp [hn, Loose.graph], hd⟩
    refine congrArg Prod.snd (Machine.runThrough_eq_none.2 (hrun.mono fun d _ hmem => ?_))
    rwa [List.mem_singleton.1 hmem]
  obtain ⟨outputs, hout⟩ := (h.replay_isOk (lower_graph hl) hp.write ht rfl).2 hrun
  refine ⟨p, text, _, outputs, Loose.read_fixed, Loose.read_fixed_values, hl, hrender, hload, ht,
    hout, Loose.mode, Loose.slack, ?_⟩
  rw [Pipeline.check_isOk (lower_memory hl) hp.write Loose.mode Loose.slack]
  intro hnone
  rw [hnone] at hr
  simp at hr

end Program

end TensorAsm
