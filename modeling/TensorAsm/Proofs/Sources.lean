import TensorAsm.Execution
import TensorAsm.Proofs.Soundness
/-!
A replay from the sources alone, which are the zero cell, the inputs and what is fixed. It computes
the graph in the field, as the operations do in any order that puts them behind their inputs.
-/

namespace TensorAsm

theorem Machine.Excuse.ne_absent [Platform] {ts : List Lowering.FoldedTable} {i : Instruction}
    {f : Fault} (h : Machine.Excuse ts i f) (address pc : Int) :
    f ≠ .compile (.replay ⟨address, pc, .absent⟩) := by
  cases h with
  | outside => simp
  | tooFar hf => rcases Quantity.rescaleFault?_cases hf with rfl | rfl <;> simp

/-- Values that are those of the witness on all tensors in use that no operation produces. -/
def Witness.Feeds (w : Witness) (g : Circuit.Graph) (m : Int) (v : String → Nat → Int) : Prop :=
  ∀ id ∈ g.required, (∀ o ∈ g.operations, o.output ≠ id) → ∀ t ∈ g.tensor? id,
    ∀ i < Shape.volume t.shape, v id i = Field.encode m (w.value id i)

namespace Program

def sourceRegions : List Region := [.control, .input, .fixed]

/-- A machine that has nothing but the sources of a memory table. -/
def sourceState (p : Program) (cells : List Cell) : Machine.State :=
  .start (MemoryTable.cellMap (MemoryTable.entries
    (MemoryTable.restrict p.plan.allocator.layout sourceRegions cells)))

theorem targets_eq (p : Program) :
    Lowering.targets p.instructions = Lowering.writes p.plan.steps :=
  Lowering.targets_map p.plan.steps

end Program

namespace Program.Lowered

open Lowering

variable [Platform] {g : Circuit.Graph} {w : Witness} {lookupBits : Json} {m : Int} {p : Program}
  {values : Values}

theorem source_region (h : Lowered g w lookupBits m p values) {b : Allocation}
    (hb : b ∈ p.plan.allocator.allocations) (hk : b.kind = .tensor)
    (hnone : ∀ o ∈ g.operations, o.output ≠ b.name) : b.address.region ∈ sourceRegions := by
  obtain ⟨layout, journal, zb, xs, outs, hp⟩ := h.planned
  obtain ⟨hreq, t, ht, -, hr⟩ := h.sound.tensor b hb hk
  have horigin := h.wellFormed.origin b.name hreq (Circuit.Graph.producer_eq_none.2 hnone)
  rw [hr, Allocator.regionOf, hp.inputs]
  split
  · simp [sourceRegions]
  · next hv =>
      have hin : b.name ∈ g.inputs := by
        rcases horigin with hin | ⟨u, hu, hfix⟩
        · exact hin
        · obtain rfl : t = u := Option.some.inj (ht.symm.trans hu)
          exact absurd hfix hv
      simp [hin, sourceRegions]

theorem zero_region (h : Lowered g w lookupBits m p values) :
    ∃ b ∈ p.plan.allocator.allocations, b.kind ≠ .table ∧ b.address.region ∈ sourceRegions ∧
      p.plan.zero ∈ b.cells := by
  obtain ⟨layout, journal, zb, xs, outs, hp⟩ := h.planned
  obtain ⟨hz, hcz⟩ := hp.zero_mem
  refine ⟨zb, hz, by simp [hp.kind], ?_, hcz⟩
  rw [(h.sound.control zb hz hp.kind).2.2]
  simp [sourceRegions]

theorem read_before (h : Lowered g w lookupBits m p values) {pre post : List Step} {s : Step}
    (hs : p.plan.steps = pre ++ s :: post) {c : Int} (hc : c ∈ s.instruction.sources) :
    (c ∈ writes pre ∨ ∃ b ∈ p.plan.allocator.allocations, b.kind ≠ .table ∧
      b.address.region ∈ sourceRegions ∧ c ∈ b.cells) ∧ c ∉ writes (s :: post) := by
  obtain ⟨layout, journal, zb, xs, outs, hp⟩ := h.planned
  have hsub : c ∈ writes (s :: post) → c ∈ writes p.plan.steps := by
    rw [hs, writes_append]
    exact List.mem_append_right _
  rcases hp.sources_before h.wellFormed hs c hc with rfl | hw | ⟨b, hb, hcb, hk, hnone⟩
  · exact ⟨.inr h.zero_region, fun hin => hp.never h.wellFormed (.inl rfl) (hsub hin)⟩
  · refine ⟨.inl hw, fun hin => ?_⟩
    have hnodup := hp.writes_nodup h.wellFormed
    rw [hs, writes_append] at hnodup
    exact (List.nodup_append.1 hnodup).2.2 c hw c hin rfl
  · exact ⟨.inr ⟨b, hb, by simp [hk], h.source_region hb hk hnone, hcb⟩,
      fun hin => hp.never h.wellFormed (.inr (.inl ⟨b, hb, hcb, hk, hnone⟩)) (hsub hin)⟩

theorem ready (h : Lowered g w lookupBits m p values) (hm : 2 ^ 24 < m)
    {rows : List (Int × Int)}
    (hcon : MemoryTable.Contents m p.plan values.cell sourceRegions rows) :
    Machine.Ready m p.plan.tables (MemoryTable.cellMap rows) p.instructions := by
  obtain ⟨layout, journal, zb, xs, outs, hp⟩ := h.planned
  refine ⟨?_, ?_, by rw [targets_eq]; exact hp.writes_nodup h.wellFormed, ?_, ?_⟩
  · intro i hi
    obtain ⟨s, hs, rfl⟩ := List.mem_map.1 hi
    exact h.known hm hs
  · intro i hi
    obtain ⟨s, hs, rfl⟩ := List.mem_map.1 hi
    exact Option.isSome_iff_exists.1 (hp.total hs)
  · intro pre i post hs a ha
    obtain ⟨before, rest, hsteps, rfl, hrest⟩ := List.map_eq_append_iff.1 hs
    obtain ⟨s, after, rfl, rfl, rfl⟩ := List.map_eq_cons_iff.1 hrest
    rw [← List.map_cons, targets_map, targets_map]
    obtain ⟨hthere, hnot⟩ := h.read_before hsteps ha
    refine ⟨hthere.imp_right ?_, hnot⟩
    rintro ⟨b, hb, hk, hr, hab⟩
    exact ⟨_, MemoryTable.get_cellMap hcon.nodup (hcon.cell b hb hk hr a hab)⟩
  · intro t ht a hl hu hin
    obtain ⟨-, b, hb, hk, hadr, hsz⟩ := h.sound.table t ht
    rw [targets_eq] at hin
    refine hp.never h.wellFormed (.inr (.inr ⟨b, hb, ?_, hk⟩)) hin
    rw [Allocation.mem_cells, hadr, hsz]
    omega

theorem lenient_run (h : Lowered g w lookupBits m p values) (hm : 2 ^ 24 < m)
    {rows : List (Int × Int)}
    (hcon : MemoryTable.Contents m p.plan values.cell sourceRegions rows) {c : Machine.Settings}
    (hmod : c.modulus = m) (hs : c.strict = false) :
    (∃ last, Machine.run c p.instructions (.start (MemoryTable.cellMap rows)) = (last, none) ∧
        Machine.Ran m p.plan.look (.start (MemoryTable.cellMap rows)) p.instructions last) ∨
      ∃ last f, Machine.run c p.instructions (.start (MemoryTable.cellMap rows)) =
          (last, some f) ∧ ∃ i ∈ p.instructions, Machine.Excuse p.plan.tables i f := by
  subst hmod
  have hm0 : c.modulus ≠ 0 := by
    norm_num at hm
    omega
  rw [Machine.run_start]
  rcases Machine.runThrough_lenient hm0 hs h.sound.single h.look_eq
      (Machine.stocked_start hcon.nodup (hcon.table (by simp [sourceRegions]))) rfl
      (fun _ _ a _ _ v hv => hcon.reduced a v (MemoryTable.mem_of_get_cellMap hcon.nodup hv))
      (h.ready hm hcon) with hran | ⟨last, f, hrun, pre, i, post, -, hcode, -, -, hf⟩
  · exact .inl hran
  · exact .inr ⟨last, f, hrun, i, by simp [hcode], hf⟩

end Program.Lowered

namespace Lowering

theorem Placed.unique {g : Circuit.Graph} {a : Allocator} {id : String} {x y : Operand}
    (hx : Placed g a id x) (hy : Placed g a id y) : x = y := by
  have ht : x.tensor = y.tensor := Option.some.inj (hx.tensor.symm.trans hy.tensor)
  have hb : x.base = y.base := by
    obtain ⟨b, hb, hbase⟩ := hx.base
    obtain ⟨c, hc, hbase'⟩ := hy.base
    obtain rfl : b = c := Option.some.inj (hb.symm.trans hc)
    rw [← hbase, hbase']
  have hs : x.scale = y.scale := by rw [hx.scale, hy.scale, ht]
  cases x
  cases y
  simp only [Operand.mk.injEq]
  exact ⟨ht, hb, hs⟩

/-- Where a tensor is placed, the cells hold its values. -/
def Holding (g : Circuit.Graph) (a : Allocator) (k : Int → Int) (v : String → Nat → Int)
    (id : String) : Prop :=
  ∀ x, Placed g a id x → ∀ i < Shape.volume x.shape, k (x.cell i) = v id i

theorem Holding.congr {g : Circuit.Graph} {a : Allocator} {k : Int → Int}
    {u v : String → Nat → Int} {id : String} (h : Holding g a k u id) (hv : v id = u id) :
    Holding g a k v id := by
  intro x hx i hi
  rw [hv]
  exact h x hx i hi

end Lowering

namespace Program.Lowered

open Lowering

variable [Platform] {g : Circuit.Graph} {w : Witness} {lookupBits : Json} {m : Int} {p : Program}
  {values : Values} {S : Semantics} {k : Int → Int}

theorem evaluate_one (h : Lowered g w lookupBits m p values)
    (hz : k p.plan.zero = 0) (hr : ∀ c, S.wrap (k c) = k c)
    (hall : ∀ s ∈ p.plan.steps, Holds S p.plan.look k s.instruction) {o : Circuit.Operation}
    (ho : o ∈ g.operations) {u : String → Nat → Int}
    (hu : ∀ id ∈ o.inputs, Holding g p.plan.allocator k u id) :
    ∃ t vs, g.tensor? o.output = some t ∧
      (Shape.indices t.shape).mapM (S.reference g lookupBits u o) = some vs ∧
      Holding g p.plan.allocator k (Function.update u o.output fun i => vs.getD i 0) o.output := by
  obtain ⟨blk, hblk, rfl⟩ := h.mem_blocks.1 ho
  have hi : Interprets S p.plan.look k g p.plan.zero p.plan.allocator p.plan.tables u blk.op :=
    ⟨hz, hr, h.look_eq, fun id hid x hx => hu id hid x hx⟩
  obtain ⟨out, hout, hf⟩ := h.block_finals hi (fun s hs _ => hall s hs) hblk
  have href : ∀ index ∈ Shape.indices out.shape, S.reference g lookupBits u blk.op index =
      some (k (out.cell (Shape.flat out.shape index))) := by
    intro index hm
    have hmem : (out.base + Shape.flat out.shape index, S.reference g lookupBits u blk.op index) ∈
        finals S p.plan.look k blk.steps := by
      rw [hf]
      exact List.mem_map.2 ⟨index, hm, rfl⟩
    obtain ⟨s, hs, -, hdest, heval⟩ := mem_finals.1 hmem
    rw [← heval]
    exact hall s (List.mem_flatMap.2 ⟨blk, hblk, hs⟩) _ hdest
  refine ⟨out.tensor, (List.range (Shape.volume out.shape)).map fun i => k (out.cell i),
    hout.tensor, ?_, ?_⟩
  · rw [← Shape.map_flat_indices, List.map_map]
    exact Sequences.mapM_eq_some href
  · intro x hx i hi
    obtain rfl := hx.unique hout
    rw [Function.update_self, List.getD_eq_getElem?_getD, List.getElem?_map,
      List.getElem?_range hi]
    rfl

theorem evaluate_holding (h : Lowered g w lookupBits m p values)
    (hz : k p.plan.zero = 0) (hr : ∀ c, S.wrap (k c) = k c)
    (hall : ∀ s ∈ p.plan.steps, Holds S p.plan.look k s.instruction)
    {ops pre rest : List Circuit.Operation} (ht : g.Topological ops) (hs : ops = pre ++ rest)
    {u : String → Nat → Int}
    (hsrc : ∀ id, (∀ o ∈ g.operations, o.output ≠ id) → Holding g p.plan.allocator k u id)
    (hpre : ∀ o ∈ pre, Holding g p.plan.allocator k u o.output) :
    ∃ v, S.evaluate g lookupBits rest u = some v ∧
      ∀ o ∈ ops, Holding g p.plan.allocator k v o.output := by
  induction rest generalizing pre u with
  | nil =>
    rw [List.append_nil] at hs
    exact ⟨u, rfl, hs ▸ hpre⟩
  | cons o rest ih =>
    have ho : o ∈ g.operations := ht.perm.mem_iff.1 (by simp [hs])
    -- an input is a source or the output of an operation that has been evaluated
    have hin : ∀ id ∈ o.inputs, Holding g p.plan.allocator k u id := by
      intro id hid
      by_cases hp : ∀ q ∈ g.operations, q.output ≠ id
      · exact hsrc id hp
      · push Not at hp
        obtain ⟨q, hq, rfl⟩ := hp
        exact hpre q (ht.behind pre o rest hs q hq hid)
    obtain ⟨t, vs, htensor, hvs, hout⟩ := h.evaluate_one hz hr hall ho hin
    have hother {id : String} (hne : id ≠ o.output)
        (hid : Holding g p.plan.allocator k u id) : Holding g p.plan.allocator k
          (Function.update u o.output fun i => vs.getD i 0) id :=
      hid.congr (Function.update_of_ne hne _ _)
    have hsplit : ops = (pre ++ [o]) ++ rest := by simp [hs]
    obtain ⟨v, hv, hall'⟩ := ih hsplit
      (fun id hid => hother (Ne.symm (hid o ho)) (hsrc id hid)) fun q hq => by
        by_cases he : q.output = o.output
        · rw [he]
          exact hout
        · rcases List.mem_append.1 hq with hq | hq
          · exact hother he (hpre q hq)
          · exact absurd (by rw [List.mem_singleton.1 hq]) he
    refine ⟨v, ?_, hall'⟩
    rw [Semantics.evaluate, htensor]
    simp only [Option.bind_eq_bind, Option.bind_some, hvs, hv]

section

variable {rows : List (Int × Int)} {last : Machine.State}

theorem ran_reduced (hcon : MemoryTable.Contents m p.plan values.cell sourceRegions rows)
    (hran : Machine.Ran m p.plan.look (.start (MemoryTable.cellMap rows)) p.instructions last)
    (c : Int) : Field.encode m (last.cell c) = last.cell c := by
  by_cases hc : c ∈ targets p.instructions
  · exact hran.reduced c hc
  have hframe := hran.frame c hc
  cases hv : last.memory[c]? with
  | some v =>
    rw [Machine.State.cell_eq hv]
    exact hcon.reduced c v (MemoryTable.mem_of_get_cellMap hcon.nodup (hframe.symm.trans hv))
  | none =>
    have hzero : last.cell c = 0 := by
      rw [Machine.State.cell, Std.TreeMap.getD_eq_getD_getElem?, hv]
      rfl
    rw [hzero]
    exact Int.zero_fmod m

theorem ran_source (hcon : MemoryTable.Contents m p.plan values.cell sourceRegions rows)
    (hran : Machine.Ran m p.plan.look (.start (MemoryTable.cellMap rows)) p.instructions last)
    {b : Allocation} (hb : b ∈ p.plan.allocator.allocations) (hk : b.kind ≠ .table)
    (hr : b.address.region ∈ sourceRegions) {c : Int} (hcb : c ∈ b.cells)
    (hnot : c ∉ targets p.instructions) : last.cell c = Field.encode m (values.cell c) := by
  apply Machine.State.cell_eq
  rw [hran.frame c hnot]
  exact MemoryTable.get_cellMap hcon.nodup (hcon.cell b hb hk hr c hcb)

theorem ran_zero (h : Lowered g w lookupBits m p values)
    (hcon : MemoryTable.Contents m p.plan values.cell sourceRegions rows)
    (hran : Machine.Ran m p.plan.look (.start (MemoryTable.cellMap rows)) p.instructions last) :
    last.cell p.plan.zero = 0 := by
  obtain ⟨layout, journal, zb, xs, outs, hp⟩ := h.planned
  obtain ⟨b, hb, hk, hr, hz⟩ := h.zero_region
  have hnot : p.plan.zero ∉ targets p.instructions := by
    rw [targets_eq]
    exact hp.never h.wellFormed (.inl rfl)
  rw [ran_source hcon hran hb hk hr hz hnot, h.derivation.zero]
  exact Int.zero_fmod m

theorem ran_holding (h : Lowered g w lookupBits m p values)
    (hcon : MemoryTable.Contents m p.plan values.cell sourceRegions rows)
    (hran : Machine.Ran m p.plan.look (.start (MemoryTable.cellMap rows)) p.instructions last)
    {v : String → Nat → Int} (hv : w.Feeds g m v) {id : String}
    (hnone : ∀ o ∈ g.operations, o.output ≠ id) :
    Holding g p.plan.allocator last.cell v id := by
  intro x hx i hi
  obtain ⟨layout, journal, zb, xs, outs, hp⟩ := h.planned
  obtain ⟨b, hb, -, hcells⟩ := hx.block h.sound
  obtain ⟨hbm, hk, rfl⟩ := h.sound.coherent.bound_mem hb
  have hcb : x.cell i ∈ b.cells := by
    rw [hcells]
    exact mem_elementCells.2 ⟨i, hi, rfl⟩
  have hnot : x.cell i ∉ targets p.instructions := by
    rw [targets_eq]
    exact hp.never h.wellFormed (.inr (.inl ⟨b, hbm, hcb, hk, hnone⟩))
  rw [ran_source hcon hran hbm (by simp [hk]) (h.source_region hbm hk hnone) hcb hnot,
    h.cell_placed hx hi]
  exact (hv b.name (h.sound.tensor b hbm hk).1 hnone x.tensor hx.tensor i hi).symm

theorem ran_evaluates (h : Lowered g w lookupBits m p values)
    (hcon : MemoryTable.Contents m p.plan values.cell sourceRegions rows)
    (hran : Machine.Ran m p.plan.look (.start (MemoryTable.cellMap rows)) p.instructions last)
    {ops : List Circuit.Operation} (ht : g.Topological ops) {v₀ : String → Nat → Int}
    (hv : w.Feeds g m v₀) :
    ∃ v, (Semantics.field m).evaluate g lookupBits ops v₀ = some v ∧
      ∀ o ∈ g.operations, ∀ t ∈ g.tensor? o.output,
        ∃ b ∈ p.plan.allocator.bound? .tensor o.output, ∀ i < Shape.volume t.shape,
          last.memory[b.address.absolute + (i : Int)]? = some (v o.output i) := by
  obtain ⟨layout, journal, zb, xs, outs, hp⟩ := h.planned
  have hall : ∀ s ∈ p.plan.steps, Holds (.field m) p.plan.look last.cell s.instruction :=
    fun s hs => hran.holds _ (List.mem_map.2 ⟨s, hs, rfl⟩)
  obtain ⟨v, heval, hold⟩ := h.evaluate_holding (h.ran_zero hcon hran) (ran_reduced hcon hran)
    hall ht (List.nil_append ops).symm (fun id => h.ran_holding hcon hran hv) (by simp)
  refine ⟨v, heval, fun o ho t htensor => ?_⟩
  obtain ⟨x, hx, rfl⟩ := (hp.mem_entry h.wellFormed).1 ho
  obtain ⟨b, hb, -⟩ := hp.fills hx
  obtain ⟨hbm, hk, hn⟩ := h.sound.coherent.bound_mem hb
  have hplaced : Placed g p.plan.allocator x.op.output ⟨t, b.address.absolute, t.scale⟩ :=
    ⟨htensor, ⟨b, hb, rfl⟩, rfl⟩
  refine ⟨b, hb, fun i hi => ?_⟩
  have hcb : b.address.absolute + (i : Int) ∈ b.cells := by
    obtain ⟨c, hc, -, hcells⟩ := hplaced.block h.sound
    obtain rfl : b = c := Option.some.inj (hb.symm.trans hc)
    rw [hcells]
    exact mem_elementCells.2 ⟨i, hi, rfl⟩
  have htarget : b.address.absolute + (i : Int) ∈ targets p.instructions := by
    rw [targets_eq]
    exact (hp.mem_plan_writes h.wellFormed).2 ⟨b, hbm, hcb, .inr ⟨hk, x.op, ho, hn.symm⟩⟩
  rw [hran.there _ htarget]
  exact congrArg some (hold x.op (ht.perm.mem_iff.2 ho) _ hplaced i hi)

end

end Program.Lowered

/-- A replay from the sources never meets an absent cell, stops only for a key outside of its table
or for a value that is moved too far, and else computes the graph in every order. -/
theorem Program.replay_from_sources [Platform] {doc given : Json} {g : Circuit.Graph} {w : Witness}
    {name : String} {layout : Layout} {lookupBits : Json} {m : Int} {p : Program}
    {cells : List Cell} {c : Machine.Settings} (hg : Circuit.read doc = .ok g)
    (hw : Witness.read m g given = .ok w) (hm : 2 ^ 24 < m)
    (h : (lower name g w layout lookupBits m).1 = .ok p)
    (hc : (MemoryTable.write p).1 = .ok cells) (hmod : c.modulus = m) (hs : c.strict = false) :
    (∀ last f, Machine.run c p.instructions (p.sourceState cells) = (last, some f) →
      (∀ address pc, f ≠ .compile (.replay ⟨address, pc, .absent⟩)) ∧
        ∃ i ∈ p.instructions, Machine.Excuse p.plan.tables i f) ∧
    ∀ last, Machine.run c p.instructions (p.sourceState cells) = (last, none) →
      ∀ ops, g.Topological ops → ∀ v₀, w.Feeds g m v₀ →
        ∃ v, (Semantics.field m).evaluate g lookupBits ops v₀ = some v ∧
          ∀ o ∈ g.operations, ∀ t ∈ g.tensor? o.output,
            ∃ b ∈ p.plan.allocator.bound? .tensor o.output, ∀ i < Shape.volume t.shape,
              last.memory[b.address.absolute + (i : Int)]? = some (v o.output i) := by
  obtain ⟨values, hl⟩ := lower_lowered hg hw h
  have hcon := hl.contents_restrict (by norm_num at hm; omega) hc sourceRegions
  rcases hl.lenient_run hm hcon hmod hs with ⟨last, hrun, hran⟩ | ⟨last, f, hrun, i, hi, hf⟩
  · refine ⟨fun l f hlf => ?_, fun l hl' ops ht v₀ hv => ?_⟩
    · exact absurd (Prod.mk.inj (hrun.symm.trans hlf)).2 (by simp)
    · obtain ⟨rfl, -⟩ := Prod.mk.inj (hrun.symm.trans hl')
      exact hl.ran_evaluates hcon hran ht hv
  · refine ⟨fun l f' hlf => ?_, fun l hl' => ?_⟩
    · obtain ⟨-, hff⟩ := Prod.mk.inj (hrun.symm.trans hlf)
      obtain rfl := Option.some.inj hff
      exact ⟨hf.ne_absent, i, hi, hf⟩
    · exact absurd (Prod.mk.inj (hrun.symm.trans hl')).2 (by simp)

theorem Sample.runs :
    ((Program.lower "sample" graph witness default (.int 3) Field.defaultModulus).1.toOption.bind
      fun p => (MemoryTable.write p).1.toOption.map fun cells =>
        (Machine.run (Execution.lenient Field.defaultModulus) p.instructions
          (p.sourceState cells)).2.isNone) = some true := by
  decide +kernel

/-- The sample computes its output from its sources. -/
theorem Program.sample_from_sources :
    ∃ p cells last v,
      (lower "sample" Sample.graph Sample.witness default (.int 3) Field.defaultModulus).1
        = .ok p ∧
      (MemoryTable.write p).1 = .ok cells ∧
      Machine.run (Execution.lenient Field.defaultModulus) p.instructions (p.sourceState cells)
        = (last, none) ∧
      (Semantics.field Field.defaultModulus).evaluate Sample.graph (.int 3)
        Sample.graph.operations
        (fun id i => Field.encode Field.defaultModulus (Sample.witness.value id i)) = some v ∧
      ∃ b ∈ p.plan.allocator.bound? .tensor "z",
        last.memory[b.address.absolute]? = some (v "z" 0) := by
  have hruns := Sample.runs
  obtain ⟨p, h⟩ := Sample.lowers
  obtain ⟨values, hl⟩ := lower_lowered Sample.read_circuit Sample.read_values h
  obtain ⟨cells, hc⟩ := (hl.write_iff (by decide)).2 (by rw [Sample.required]; decide)
  simp only [h, hc, Except.toOption, Option.bind_some, Option.map_some, Option.some.injEq,
    Option.isNone_iff_eq_none] at hruns
  have ht : Sample.graph.Topological Sample.graph.operations :=
    Circuit.Graph.order_topological (Circuit.read_wellFormed Sample.read_circuit) (by cbv)
  obtain ⟨-, hend⟩ := replay_from_sources (c := Execution.lenient Field.defaultModulus)
    Sample.read_circuit Sample.read_values (by decide) h hc rfl rfl
  obtain ⟨v, hv, hall⟩ := hend _ (Prod.ext rfl hruns) _ ht
    (fun id i => Field.encode Field.defaultModulus (Sample.witness.value id i))
    fun _ _ _ _ _ _ _ => rfl
  obtain ⟨b, hb, hz⟩ := hall _ (.tail _ (.head _)) _ rfl
  exact ⟨p, cells, _, v, h, hc, Prod.ext rfl hruns, hv, b, hb, by simpa using hz 0 (by decide)⟩

/-- Without any table, a replay of a value that is moved too far stops. -/
theorem Program.far_rescale_stops :
    ∃ p cells,
      Circuit.read FarRescale.circuit = .ok FarRescale.graph ∧
      Witness.read Field.defaultModulus FarRescale.graph FarRescale.values
        = .ok FarRescale.witness ∧
      (lower "far" FarRescale.graph FarRescale.witness default (.int 8) Field.defaultModulus).1
        = .ok p ∧
      (MemoryTable.write p).1 = .ok cells ∧ p.plan.tables = [] ∧
      (Machine.run (Execution.lenient Field.defaultModulus) p.instructions (p.sourceState cells)).2
        ≠ none := by
  have hruns : ((lower "far" FarRescale.graph FarRescale.witness default (.int 8)
      Field.defaultModulus).1.toOption.bind fun p => (MemoryTable.write p).1.toOption.map
        fun cells => (p.plan.tables.isEmpty, (Machine.run (Execution.lenient Field.defaultModulus)
          p.instructions (p.sourceState cells)).2.isSome)) = some (true, true) := by
    decide +kernel
  obtain ⟨p, h⟩ := FarRescale.lowers
  obtain ⟨values, hl⟩ := lower_lowered FarRescale.read_circuit FarRescale.read_values h
  obtain ⟨cells, hc⟩ := (hl.write_iff (by decide)).2 (by rw [FarRescale.required]; decide)
  simp only [h, hc, Except.toOption, Option.bind_some, Option.map_some, Option.some.injEq,
    Prod.mk.injEq, List.isEmpty_iff] at hruns
  refine ⟨p, cells, FarRescale.read_circuit, FarRescale.read_values, h, hc, hruns.1, ?_⟩
  exact Option.isSome_iff_ne_none.1 hruns.2

end TensorAsm
