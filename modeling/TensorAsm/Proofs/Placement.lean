import Mathlib
import TensorAsm.Proofs.CellMaps
import TensorAsm.Proofs.ReplayAgreement
/-!
Placement does not change what is computed. Programs of circuits that differ in visibilities only,
under any two layouts, have the same blocks but for their places, and the map from cell to cell
takes instructions, memory tables and replays along.
-/

namespace TensorAsm

theorem Instruction.exact_relocate [Platform] (φ k : Int → Int) (i : Instruction) :
    (i.relocate φ).exact k = i.exact (k ∘ φ) := by
  cases i <;> rfl

def Cell.relocate (φ : Int → Int) (c : Cell) : Cell := ⟨φ c.address, c.value⟩

namespace Program

open Lowering MemoryTable

variable [Platform]

/-- Outputs of one name whose cells go together. -/
structure SameRange (ps : Pairs) (o o' : OutputRange) : Prop where
  name : o'.name = o.name
  length : o'.length = o.length
  cells : ∀ i : Nat, i < o.length.toNat → SameCell ps (o.base + i) (o'.base + i)

/-- Programs for one witness whose plans have the same blocks and steps. -/
structure Paired (g g' : Circuit.Graph) (w : Witness) (lookupBits : Json) (m : Int)
    (p p' : Program) (values values' : Values) : Prop where
  first : Lowered g w lookupBits m p values
  second : Lowered g' w lookupBits m p' values'
  graph : g'.veiled = g.veiled
  source : p.graph = g
  source' : p'.graph = g'
  plan : SamePlan p.plan p'.plan

namespace Paired

variable {g g' : Circuit.Graph} {w : Witness} {lookupBits : Json} {m : Int} {p p' : Program}
  {values values' : Values} {x : Int}

theorem twins (h : Paired g g' w lookupBits m p p' values values') : Twins p.plan p'.plan :=
  ⟨h.plan.allocations, h.first.sound.tiles, h.second.sound.tiles⟩

theorem cell_tensor (h : Paired g g' w lookupBits m p p' values values') {b : Allocation}
    (hb : b ∈ p.plan.allocator.allocations) (hk : b.kind = .tensor) (hx : x ∈ b.cells) :
    values'.cell (p.plan.carry p'.plan x) = values.cell x := by
  obtain ⟨q, hq, rfl⟩ := h.twins.mem_pairs hb
  obtain ⟨i, hi, rfl⟩ := Allocation.exists_cell hx
  have ht := h.twins.twin hq
  rw [h.twins.carry_eq ⟨q, hq, i, hi, rfl, rfl⟩, h.first.derivation.tensor q.1 hb hk i hi,
    h.second.derivation.tensor q.2 (List.of_mem_zip hq).2 (ht.kind.trans hk) i (ht.size ▸ hi),
    ht.name]

theorem cell_zero (h : Paired g g' w lookupBits m p p' values values') :
    values'.cell (p.plan.carry p'.plan p.plan.zero) = values.cell p.plan.zero := by
  rw [h.twins.carry_eq h.plan.zero, h.first.derivation.zero, h.second.derivation.zero]

theorem cell_scoped (h : Paired g g' w lookupBits m p p' values values') {ok : Int → Prop}
    (hok : ∀ c, ok c → values'.cell (p.plan.carry p'.plan c) = values.cell c)
    {ss ss' : List Step} (hss : SameSteps (p.plan.pairs p'.plan) ss ss') (hs : Scoped ok ss)
    (hin : ∀ s ∈ ss, s ∈ p.plan.steps) (hin' : ∀ s ∈ ss', s ∈ p'.plan.steps) :
    ∀ d ∈ dests true ss, values'.cell (p.plan.carry p'.plan d) = values.cell d := by
  induction hss generalizing ok with
  | nil => simp [dests]
  | @cons s s' ss ss' hs' _ ih =>
    have hmoved := h.twins.relocate_eq hs'.instruction
    have hexact : s'.instruction.exact values'.cell = s.instruction.exact values.cell := by
      rw [hmoved, Instruction.exact_relocate]
      exact Instruction.exact_congr fun c hc => hok c (hs.1 c hc)
    have hone : ∀ d ∈ dests true [s], values'.cell (p.plan.carry p'.plan d) = values.cell d := by
      intro d hd
      have hder : s.derived = true := by
        by_contra hn
        simp [hn, dests] at hd
      have hdest : d ∈ s.instruction.dest? := by simpa [dests_cons, hder, dests] using hd
      have hdest' : p.plan.carry p'.plan d ∈ s'.instruction.dest? := by
        rw [hmoved, Instruction.dest?_relocate, Option.mem_def.1 hdest]
        rfl
      have hv := (h.first.derivation.derived s (hin s (by simp)) hder d hdest).1
      have hv' := (h.second.derivation.derived s' (hin' s' (by simp)) (hs'.derived.trans hder) _
        hdest').1
      rw [hexact, hv] at hv'
      exact (Except.ok.inj hv').symm
    intro d hd
    rw [← List.singleton_append, dests_append, List.mem_append] at hd
    rcases hd with hd | hd
    · exact hone d hd
    · refine ih (fun c hc => hc.elim (hok c) (hone c)) hs.2 ?_ ?_ d hd
      · exact fun t ht => hin t (by simp [ht])
      · exact fun t ht => hin' t (by simp [ht])

theorem cell_scratch (h : Paired g g' w lookupBits m p p' values values') {b : Allocation}
    (hb : b ∈ p.plan.allocator.allocations) (hk : b.kind = .scratch) (hx : x ∈ b.cells) :
    values'.cell (p.plan.carry p'.plan x) = values.cell x := by
  obtain ⟨layout, journal, zb, xs, outs, hp⟩ := h.first.planned
  have hd : x ∈ dests true p.plan.steps := by
    rw [hp.derived_perm.mem_iff]
    exact List.mem_flatMap.2 ⟨b, mem_ofKind.2 ⟨hb, hk⟩, hx⟩
  rw [hp.steps_eq, dests_flatMap] at hd
  obtain ⟨e, he, hd⟩ := List.mem_flatMap.1 hd
  obtain ⟨out, -, hf⟩ := hp.fills he
  have hblock : e.block ∈ p.plan.blocks := by
    rw [hp.blocks]
    exact List.mem_map_of_mem he
  obtain ⟨b', hb', hsame⟩ := Sequences.forall₂_of_mem h.plan.blocks hblock
  apply h.cell_scoped _ hsame.steps hf.bound
  · exact fun s hs => List.mem_flatMap.2 ⟨_, hblock, hs⟩
  · exact fun s hs => List.mem_flatMap.2 ⟨_, hb', hs⟩
  · exact hd
  · intro c hc
    rcases hp.readable_cases hc with rfl | ⟨t, ht, hct, htk, -⟩
    · exact h.cell_zero
    · exact h.cell_tensor ht htk hct

theorem rows_eq (h : Paired g g' w lookupBits m p p' values values')
    {q : Allocation × Allocation} (hq : q ∈ p.plan.pairs p'.plan) {t t' : FoldedTable}
    (ht : t ∈ p.plan.tables) (ht' : t' ∈ p'.plan.tables) (ha : q.1.address = t.address)
    (ha' : q.2.address = t'.address) (hpos : 0 < q.1.size) : t'.rows = t.rows := by
  obtain ⟨u, hu, hsame⟩ := Sequences.forall₂_of_mem h.plan.tables ht
  have hrows : 0 < t.rows.size := by simpa using Table.fold_pos (h.first.sound.table t ht).1
  have hbase := h.twins.carry_eq (hsame.row.head (by omega))
  have hblock : SameCell (p.plan.pairs p'.plan) q.1.address.absolute q.2.address.absolute :=
    ⟨q, hq, 0, hpos, by simp, by simp⟩
  rw [ha, ha'] at hblock
  obtain rfl := h.second.sound.single u hu t' ht' (hbase.symm.trans (h.twins.carry_eq hblock))
  exact hsame.rows

theorem resolve_eq (h : Paired g g' w lookupBits m p p' values values')
    {q : Allocation × Allocation} (hq : q ∈ p.plan.pairs p'.plan) {i : Nat}
    (hi : (i : Int) < q.1.size) :
    resolve p' (q.2.address.absolute + i) ⟨q.2, i⟩ =
      resolve p (q.1.address.absolute + i) ⟨q.1, i⟩ := by
  obtain ⟨hb, hb'⟩ := List.of_mem_zip hq
  have ht := h.twins.twin hq
  have hi' : (i : Int) < q.2.size := by rwa [ht.size]
  have hcarry := h.twins.carry_eq ⟨q, hq, i, hi, rfl, rfl⟩
  cases hk : q.1.kind with
  | control =>
    have hk' := ht.kind.trans hk
    simp only [resolve, hk, hk']
  | scratch =>
    rw [h.first.resolve_scratch hb hk hi, h.second.resolve_scratch hb' (ht.kind.trans hk) hi',
      ← h.cell_scratch hb hk (Allocation.cell_mem hi), hcarry]
  | tensor =>
    obtain ⟨-, t, htensor, -⟩ := h.first.sound.tensor q.1 hb hk
    obtain ⟨-, t', htensor', -⟩ := h.second.sound.tensor q.2 hb' (ht.kind.trans hk)
    have hsame : t'.shape = t.shape := congrArg (·.shape)
      (Circuit.Graph.tensor_same h.graph htensor (ht.name ▸ htensor'))
    rw [h.first.resolve_tensor hb hk hi htensor,
      h.second.resolve_tensor hb' (ht.kind.trans hk) hi' htensor', hsame,
      ← h.cell_tensor hb hk (Allocation.cell_mem hi), hcarry]
  | table =>
    obtain ⟨t, htab, ha, r, hr, hv⟩ := h.first.resolve_table hb hk hi
    obtain ⟨t', htab', ha', r', hr', hv'⟩ := h.second.resolve_table hb' (ht.kind.trans hk) hi'
    rw [h.rows_eq hq htab htab' ha ha' (by omega), hr] at hr'
    obtain rfl := Option.some.inj hr'
    rw [hv, hv']

theorem cell_eq (h : Paired g g' w lookupBits m p p' values values') (hx : x ∈ p.plan.cells) :
    cell p' p'.plan.allocator.owners (p.plan.carry p'.plan x) =
      (cell p p.plan.allocator.owners x).map (Cell.relocate (p.plan.carry p'.plan)) := by
  obtain ⟨q, hq, i, hi, rfl, hy⟩ := h.twins.mem_cells.1 hx
  obtain ⟨hb, hb'⟩ := List.of_mem_zip hq
  have hi' : (i : Int) < q.2.size := by rwa [(h.twins.twin hq).size]
  rw [hy, cell, cell, Allocator.owner_eq h.first.sound.tiles hb hi,
    Allocator.owner_eq h.second.sound.tiles hb' hi', h.first.modulus, h.second.modulus]
  dsimp only
  rw [h.resolve_eq hq hi]
  cases resolve p (q.1.address.absolute + i) ⟨q.1, i⟩ with
  | error f => rfl
  | ok v =>
    dsimp only
    cases Field.encode? m v with
    | error f => rfl
    | ok e => exact congrArg (fun y => Except.ok (⟨y, e⟩ : Cell)) hy.symm

theorem mem_cells {r : Program} {values : Values} {g : Circuit.Graph}
    (h : Lowered g w lookupBits m r values) :
    x ∈ Region.all.flatMap (addresses r.plan.allocator) ↔ x ∈ r.plan.cells :=
  mem_all_addresses h.sound.coherent h.sound.tiles

theorem write_iff (h : Paired g g' w lookupBits m p p' values values') :
    (∃ cells, (write p).1 = .ok cells) ↔ ∃ cells, (write p').1 = .ok cells := by
  have hbij := h.twins.bijOn
  rw [write, write, writeRegions_eq, writeRegions_eq]
  constructor
  · rintro ⟨cells, hc⟩
    apply Sequences.mapM_ok_of_forall
    intro y hy
    obtain ⟨x, hx, rfl⟩ := hbij.surjOn ((mem_cells h.second).1 hy)
    obtain ⟨c, -, hok⟩ := Sequences.mapM_of_mem hc ((mem_cells h.first).2 hx)
    exact ⟨_, by rw [h.cell_eq hx, hok]; rfl⟩
  · rintro ⟨cells, hc⟩
    apply Sequences.mapM_ok_of_forall
    intro x hx
    have hx := (mem_cells h.first).1 hx
    obtain ⟨c, -, hok⟩ := Sequences.mapM_of_mem hc ((mem_cells h.second).2 (hbij.mapsTo hx))
    rw [h.cell_eq hx] at hok
    obtain ⟨e, he, -⟩ := Sequences.map_ok hok
    exact ⟨e, he⟩

theorem write_perm (h : Paired g g' w lookupBits m p p' values values') {cells cells' : List Cell}
    (hc : (write p).1 = .ok cells) (hc' : (write p').1 = .ok cells') :
    cells'.Perm (cells.map (Cell.relocate (p.plan.carry p'.plan))) := by
  have hbij := h.twins.bijOn
  have hn : (cells.map (·.address)).Nodup := by
    rw [write_addresses hc]
    exact addresses_nodup h.first.sound.coherent h.first.sound.tiles
  have hn' : (cells'.map (·.address)).Nodup := by
    rw [write_addresses hc']
    exact addresses_nodup h.second.sound.coherent h.second.sound.tiles
  have hmoved : ((cells.map (Cell.relocate (p.plan.carry p'.plan))).map (·.address)).Nodup := by
    have hmap : (cells.map (Cell.relocate (p.plan.carry p'.plan))).map (·.address) =
        (cells.map (·.address)).map (p.plan.carry p'.plan) := by
      rw [List.map_map, List.map_map]
      rfl
    rw [hmap]
    refine hn.map_on fun x hx y hy he => ?_
    rw [write_addresses hc] at hx hy
    exact hbij.injOn ((mem_cells h.first).1 hx) ((mem_cells h.first).1 hy) he
  rw [write, writeRegions_eq] at hc hc'
  rw [List.perm_ext_iff_of_nodup hn'.of_map hmoved.of_map]
  intro c
  constructor
  · intro hmem
    obtain ⟨y, hy, hok⟩ := Sequences.mapM_mem hc' hmem
    obtain ⟨x, hx, rfl⟩ := hbij.surjOn ((mem_cells h.second).1 hy)
    rw [h.cell_eq hx] at hok
    obtain ⟨e, he, rfl⟩ := Sequences.map_ok hok
    obtain ⟨u, hu, hue⟩ := Sequences.mapM_of_mem hc ((mem_cells h.first).2 hx)
    obtain rfl := Except.ok.inj (he.symm.trans hue)
    exact List.mem_map_of_mem hu
  · intro hmem
    obtain ⟨e, he, rfl⟩ := List.mem_map.1 hmem
    obtain ⟨x, hx, hok⟩ := Sequences.mapM_mem hc he
    have hx := (mem_cells h.first).1 hx
    obtain ⟨u, hu, hue⟩ := Sequences.mapM_of_mem hc' ((mem_cells h.second).2 (hbij.mapsTo hx))
    rw [h.cell_eq hx, hok] at hue
    obtain rfl := Except.ok.inj hue
    exact hu

theorem held_mem {r : Program} {values : Values} {g : Circuit.Graph}
    (h : Lowered g w lookupBits m r values) {cells : List Cell} (hc : (write r).1 = .ok cells)
    {v : Int} (hx : (cellMap (entries cells))[x]? = some v) : x ∈ r.plan.cells := by
  have hmem := List.mem_map_of_mem (f := Prod.fst) (mem_of_get_cellMap (h.entries_nodup hc) hx)
  have hk : (entries cells).map Prod.fst = cells.map (·.address) := List.map_map
  rw [hk, write_addresses hc] at hmem
  exact (mem_cells h).1 hmem

theorem start_relocated (h : Paired g g' w lookupBits m p p' values values')
    {cells cells' : List Cell} (hc : (write p).1 = .ok cells) (hc' : (write p').1 = .ok cells') :
    Machine.State.Relocated (p.plan.carry p'.plan) p.plan.cells
      (.start (cellMap (entries cells))) (.start (cellMap (entries cells'))) := by
  have hperm := h.write_perm hc hc'
  refine ⟨?_, ?_, ?_, .nil, rfl, rfl, rfl⟩
  · intro x hx
    obtain ⟨b, hb, hxb⟩ := hx
    obtain ⟨v, hv⟩ := h.first.cell_there hc hb hxb
    have hmem := mem_of_get_cellMap (h.first.entries_nodup hc) hv
    obtain ⟨c, hcm, he⟩ := List.mem_map.1 hmem
    obtain ⟨rfl, rfl⟩ := Prod.mk.inj he
    have hmoved : (p.plan.carry p'.plan c.address, c.value) ∈ entries cells' :=
      List.mem_map.2 ⟨_, hperm.mem_iff.2 (List.mem_map_of_mem hcm), rfl⟩
    exact (get_cellMap (h.second.entries_nodup hc') hmoved).trans hv.symm
  · intro x hx
    rw [← Option.not_isSome_iff_eq_none, Option.isSome_iff_exists]
    rintro ⟨v, hv⟩
    exact hx (held_mem h.first hc hv)
  · intro y hy
    rw [← Option.not_isSome_iff_eq_none, Option.isSome_iff_exists]
    rintro ⟨v, hv⟩
    exact hy (h.twins.bijOn.surjOn (held_mem h.second hc' hv))

theorem run_relocated (h : Paired g g' w lookupBits m p p' values values') {c c' : Machine.Settings}
    {memory memory' : Machine.Memory}
    (hc : c.Relocated (p.plan.carry p'.plan) p.plan.cells c')
    (hs : Machine.State.Relocated (p.plan.carry p'.plan) p.plan.cells (.start memory)
      (.start memory')) :
    (Machine.run c' p'.instructions (.start memory')).2 =
        (Machine.run c p.instructions (.start memory)).2.map
          (Fault.relocate (p.plan.carry p'.plan)) ∧
      Machine.State.Relocated (p.plan.carry p'.plan) p.plan.cells
        (Machine.run c p.instructions (.start memory)).1
        (Machine.run c' p'.instructions (.start memory')).1 := by
  obtain ⟨hcode, hmovable⟩ := h.twins.instructions_eq h.plan
  rw [Machine.run_start, Machine.run_start, Program.instructions, Program.instructions, hcode]
  exact Machine.runThrough_relocated hc hs h.twins.bijOn.injOn hmovable

theorem outputs_same (h : Paired g g' w lookupBits m p p' values values') {t t' : ProgramText}
    (ht : p.Listed t) (ht' : p'.Listed t') :
    List.Forall₂ (SameRange (p.plan.pairs p'.plan)) t.outputs t'.outputs := by
  have hout : p'.graph.outputs = p.graph.outputs := by
    rw [h.source, h.source']
    exact Circuit.Graph.outputs_same h.graph
  have houts' := ht'.outputs
  rw [hout] at houts'
  refine (Sequences.forall₂_join ht.outputs houts').imp ?_
  rintro o o' ⟨id, -, ho, ho'⟩
  obtain ⟨b, hb, hk, hn, hbase, hlen⟩ := h.first.describes_block h.source ho
  obtain ⟨b', hb', hk', hn', hbase', hlen'⟩ := h.second.describes_block h.source' ho'
  obtain ⟨q, hq, rfl⟩ := h.twins.mem_pairs hb
  have hq' := (List.of_mem_zip hq).2
  have htwin := h.twins.twin hq
  obtain rfl : q.2 = b' := h.second.sound.eq_of_name hb' hq' (.inl hk')
    (htwin.kind.trans (hk.trans hk'.symm)) (htwin.name.trans (hn.trans hn'.symm))
  refine ⟨ho'.name.trans ho.name.symm, by rw [hlen, hlen', htwin.size], fun i hi => ?_⟩
  exact ⟨q, hq, i, by omega, by rw [hbase], by rw [hbase']⟩

theorem output_iff (h : Paired g g' w lookupBits m p p' values values') {t t' : ProgramText}
    (ht : p.Listed t) (ht' : p'.Listed t') (hx : x ∈ p.plan.cells) :
    p.plan.carry p'.plan x ∈ t'.outputs.flatMap ReplayTool.outputCells ↔
      x ∈ t.outputs.flatMap ReplayTool.outputCells := by
  have houts := h.outputs_same ht ht'
  simp only [List.mem_flatMap, ReplayTool.outputCells, List.mem_map, List.mem_range]
  constructor
  · rintro ⟨o', ho', i, hi, he⟩
    obtain ⟨o, ho, hr⟩ := Sequences.forall₂_mem_right houts ho'
    have hi := hr.length ▸ hi
    obtain ⟨hy, hcarry⟩ := h.twins.sameCell_iff.1 (hr.cells i hi)
    exact ⟨o, ho, i, hi, h.twins.bijOn.injOn hy hx (hcarry.trans he)⟩
  · rintro ⟨o, ho, i, hi, rfl⟩
    obtain ⟨o', ho', hr⟩ := Sequences.forall₂_of_mem houts ho
    exact ⟨o', ho', i, hr.length ▸ hi, (h.twins.carry_eq (hr.cells i hi)).symm⟩

/-- The texts of the programs are replayed alike, whichever the strictness and the slack: the same
values of the same outputs, or the same fault about cells that go together. -/
theorem replay_same (h : Paired g g' w lookupBits m p p' values values') {t t' : ProgramText}
    (ht : p.Listed t) (ht' : p'.Listed t') {cells cells' : List Cell}
    (hc : (write p).1 = .ok cells) (hc' : (write p').1 = .ok cells') (strict : Bool)
    (x : Option Float) (k : Int) :
    ReplayTool.replay ⟨t', cellMap (entries cells')⟩ (ReplayTool.settings t' strict x k) =
      Machine.moved (p.plan.carry p'.plan)
        (ReplayTool.replay ⟨t, cellMap (entries cells)⟩ (ReplayTool.settings t strict x k)) := by
  have hsettings : (ReplayTool.settings t strict x k).Relocated (p.plan.carry p'.plan)
      p.plan.cells (ReplayTool.settings t' strict x k) :=
    ⟨rfl, rfl, rfl, fun y hy => and_congr_left' (h.output_iff ht ht' hy)⟩
  obtain ⟨hfault, hlast⟩ := h.run_relocated hsettings (h.start_relocated hc hc')
  obtain ⟨hrun, hmemory⟩ := ht.run_eq (ReplayTool.settings t strict x k) (cellMap (entries cells))
  obtain ⟨hrun', hmemory'⟩ :=
    ht'.run_eq (ReplayTool.settings t' strict x k) (cellMap (entries cells'))
  rw [← hrun, ← hrun'] at hfault
  rw [ReplayTool.replay, ReplayTool.replay]
  rcases hr : Machine.run (ReplayTool.settings t strict x k) t.instructions
    (.start (cellMap (entries cells))) with ⟨last, f⟩
  rcases hr' : Machine.run (ReplayTool.settings t' strict x k) t'.instructions
    (.start (cellMap (entries cells'))) with ⟨last', f'⟩
  rw [hr, hr'] at hfault
  obtain rfl : f' = f.map (Fault.relocate (p.plan.carry p'.plan)) := hfault
  rw [hr] at hmemory
  rw [hr'] at hmemory'
  cases f with
  | some f => rfl
  | none =>
    refine Machine.moved_bind (Machine.moved_mapM (h.outputs_same ht ht') ?_) fun _ _ => rfl
    intro o o' ho hsame
    have hread : last'.readSigned k o'.base o'.length.toNat =
        Machine.moved (p.plan.carry p'.plan) (last.readSigned k o.base o.length.toNat) := by
      rw [hsame.length]
      apply Machine.readSignedAfter_moved
      intro i hi
      obtain ⟨hmem, hcarry⟩ := h.twins.sameCell_iff.1 (hsame.cells i hi)
      obtain ⟨b, hb, hcell⟩ := hmem
      obtain ⟨v, hv⟩ := (Machine.runThrough_eq_none.1 hr).there (h.first.cell_there hc hb hcell)
      refine ⟨v, hv, ?_⟩
      rw [← hcarry]
      dsimp only at hmemory hmemory'
      rw [hmemory', hlast.memory _ ⟨b, hb, hcell⟩, ← hmemory, hv]
    exact Machine.moved_bind hread fun _ _ => by rw [hsame.name]; rfl

theorem region_eq (h : Paired g g' w lookupBits m p p' values values')
    (hfixed : ∀ id t t', g.tensor? id = some t → g'.tensor? id = some t' →
      (t'.visibility = .fixed ↔ t.visibility = .fixed))
    {q : Allocation × Allocation} (hq : q ∈ p.plan.pairs p'.plan) :
    q.2.address.region = q.1.address.region := by
  obtain ⟨hb, hb'⟩ := List.of_mem_zip hq
  have ht := h.twins.twin hq
  cases hk : q.1.kind with
  | control =>
    rw [(h.first.sound.control q.1 hb hk).2.2,
      (h.second.sound.control q.2 hb' (ht.kind.trans hk)).2.2]
  | table =>
    rw [(h.first.sound.folded q.1 hb hk).1,
      (h.second.sound.folded q.2 hb' (ht.kind.trans hk)).1]
  | scratch =>
    rw [h.first.scratch_region hb hk, h.second.scratch_region hb' (ht.kind.trans hk)]
  | tensor =>
    obtain ⟨-, t, htensor, -, hr⟩ := h.first.sound.tensor q.1 hb hk
    obtain ⟨-, t', htensor', -, hr'⟩ := h.second.sound.tensor q.2 hb' (ht.kind.trans hk)
    have hvis := hfixed q.1.name t t' htensor (ht.name ▸ htensor')
    obtain ⟨_, _, _, _, _, hp⟩ := h.first.planned
    obtain ⟨_, _, _, _, _, hp'⟩ := h.second.planned
    have hin : g'.inputs = g.inputs := congrArg (·.inputs) h.graph
    rw [hr, hr', Allocator.regionOf, Allocator.regionOf, hp.inputs, hp'.inputs, hp.outputs,
      hp'.outputs, hin, Circuit.Graph.outputs_same h.graph, ht.name]
    simp only [hvis]

theorem allocations_eq (h : Paired g g' w lookupBits m p p' values values')
    (hfixed : ∀ id t t', g.tensor? id = some t → g'.tensor? id = some t' →
      (t'.visibility = .fixed ↔ t.visibility = .fixed))
    (hlayout : p'.plan.allocator.layout = p.plan.allocator.layout) :
    p'.plan.allocator.allocations = p.plan.allocator.allocations := by
  have htiles := h.second.sound.tiles
  rw [hlayout] at htiles
  apply h.first.sound.tiles.eq_of_same htiles
  rw [List.forall₂_iff_zip]
  exact ⟨h.plan.allocations.length_eq, fun hq => ⟨h.twins.twin hq, h.region_eq hfixed hq⟩⟩

theorem carry_self (h : Paired g g' w lookupBits m p p' values values')
    (ha : p'.plan.allocator.allocations = p.plan.allocator.allocations) (hx : x ∈ p.plan.cells) :
    p.plan.carry p'.plan x = x := by
  obtain ⟨q, hq, i, hi, hxi, hy⟩ := h.twins.mem_cells.1 hx
  rw [Plan.pairs, ha] at hq
  have hsame : q.1 = q.2 :=
    (List.forall₂_iff_zip.1 (List.forall₂_same.2 fun _ _ => rfl)).2 hq
  rw [hy, hxi, hsame]

theorem instructions_same (h : Paired g g' w lookupBits m p p' values values')
    (ha : p'.plan.allocator.allocations = p.plan.allocator.allocations) :
    p'.instructions = p.instructions := by
  obtain ⟨hcode, hmovable⟩ := h.twins.instructions_eq h.plan
  rw [Program.instructions, Program.instructions, hcode]
  have hself : ∀ i ∈ p.plan.instructions, i.relocate (p.plan.carry p'.plan) = i := fun i hi =>
    (hmovable i hi).relocate_eq fun x hx => h.carry_self ha hx
  rw [List.map_congr_left hself, List.map_id']

theorem write_same (h : Paired g g' w lookupBits m p p' values values')
    (ha : p'.plan.allocator.allocations = p.plan.allocator.allocations)
    (hlayout : p'.plan.allocator.layout = p.plan.allocator.layout) :
    (write p').1 = (write p).1 := by
  have hadr : addresses p'.plan.allocator = addresses p.plan.allocator := by
    funext r
    rw [addresses, addresses, h.first.sound.coherent.used_eq, h.second.sound.coherent.used_eq, ha,
      hlayout]
  rw [write, write, writeRegions_eq, writeRegions_eq, hadr]
  apply Sequences.mapM_congr
  intro x hx
  have hx := (mem_cells h.first).1 hx
  have hcell := h.cell_eq hx
  rw [h.carry_self ha hx] at hcell
  rw [hcell]
  cases hc : cell p p.plan.allocator.owners x with
  | error f => rfl
  | ok c =>
    obtain ⟨v, rfl⟩ := MemoryTable.cell_eq hc
    exact congrArg (fun y => Except.ok (⟨y, _⟩ : Cell)) (h.carry_self ha hx)

end Paired

/-- A program carried onto another by a map of its cells: block by block, with its instructions, its
memory table and its replays. Texts of the two are replayed to the same outputs. The check of a
program gives slack to its output region, so with slack it is carried along where that region is. -/
structure Carried (φ : Int → Int) (p p' : Program) : Prop where
  blocks : List.Forall₂ Twin p.plan.allocator.allocations p'.plan.allocator.allocations
  cells : ∀ (k i : Nat) (b b' : Allocation), p.plan.allocator.allocations[k]? = some b →
    p'.plan.allocator.allocations[k]? = some b' → (i : Int) < b.size →
      φ (b.address.absolute + i) = b'.address.absolute + i
  bijection : Set.BijOn φ p.plan.cells p'.plan.cells
  instructions : p'.instructions = p.instructions.map (Instruction.relocate φ)
  written : (∃ cells, (write p).1 = .ok cells) ↔ ∃ cells, (write p').1 = .ok cells
  table : ∀ cells cells', (write p).1 = .ok cells → (write p').1 = .ok cells' →
    cells'.Perm (cells.map (Cell.relocate φ)) ∧
      Machine.State.Relocated φ p.plan.cells (.start (cellMap (entries cells)))
        (.start (cellMap (entries cells')))
  replay : ∀ (c c' : Machine.Settings) (memory memory' : Machine.Memory),
    c.Relocated φ p.plan.cells c' →
    Machine.State.Relocated φ p.plan.cells (.start memory) (.start memory') →
      (Machine.run c' p'.instructions (.start memory')).2 =
          (Machine.run c p.instructions (.start memory)).2.map (Fault.relocate φ) ∧
        Machine.State.Relocated φ p.plan.cells (Machine.run c p.instructions (.start memory)).1
          (Machine.run c' p'.instructions (.start memory')).1
  outputs : ∀ (t t' : ProgramText) (cells cells' : List Cell) (strict : Bool) (x : Option Float)
    (k : Int), p.Listed t → p'.Listed t' → (write p).1 = .ok cells → (write p').1 = .ok cells' →
      ReplayTool.replay ⟨t', cellMap (entries cells')⟩ (ReplayTool.settings t' strict x k) =
        Machine.moved φ
          (ReplayTool.replay ⟨t, cellMap (entries cells)⟩ (ReplayTool.settings t strict x k))
  check : ∀ (x : Float) (cells cells' : List Cell), (write p).1 = .ok cells →
    (write p').1 = .ok cells' →
    (x ≤ 0.0 ∨ ∀ y ∈ p.plan.cells, φ y ∈ addresses p'.plan.allocator .output ↔
      y ∈ addresses p.plan.allocator .output) →
      (Pipeline.replay p' x cells').2 = (Pipeline.replay p x cells).2.map (Fault.relocate φ)

theorem Paired.carried {g g' : Circuit.Graph} {w : Witness} {lookupBits : Json} {m : Int}
    {p p' : Program} {values values' : Values}
    (h : Paired g g' w lookupBits m p p' values values') :
    Carried (p.plan.carry p'.plan) p p' where
  blocks := h.plan.allocations
  cells := by
    intro k i b b' hb hb' hi
    apply h.twins.carry_eq
    refine ⟨(b, b'), List.mem_of_getElem? (i := k) ?_, i, hi, rfl, rfl⟩
    rw [Plan.pairs, List.getElem?_zip_eq_some]
    exact ⟨hb, hb'⟩
  bijection := h.twins.bijOn
  instructions := (h.twins.instructions_eq h.plan).1
  written := h.write_iff
  table := fun _ _ hc hc' => ⟨h.write_perm hc hc', h.start_relocated hc hc'⟩
  replay := fun _ _ _ _ hc hs => h.run_relocated hc hs
  outputs := fun _ _ _ _ strict x k ht ht' hc hc' => h.replay_same ht ht' hc hc' strict x k
  check := by
    intro x cells cells' hc hc' hslack
    have hsettings : (Pipeline.replaySettings p x).Relocated (p.plan.carry p'.plan) p.plan.cells
        (Pipeline.replaySettings p' x) := by
      refine ⟨h.second.modulus.trans h.first.modulus.symm, rfl, rfl, ?_⟩
      intro y hy
      have hno (q : Program) (z : Int) (hx : x ≤ 0.0) :
          ¬ (Pipeline.replaySettings q x).Slack z := fun hs => hs.2 ⟨x, rfl, hx⟩
      by_cases hx : x ≤ 0.0
      · exact iff_of_false (hno p' _ hx) (hno p y hx)
      · exact and_congr_left' ((hslack.resolve_left hx) y hy)
    exact (h.run_relocated hsettings (h.start_relocated hc hc')).1

end Program

namespace Circuit.Graph

variable {g g' : Graph}

theorem tensors_same (h : g'.veiled = g.veiled) :
    List.Forall₂ (fun t t' => t'.veiled = t.veiled) g.tensors g'.tensors := by
  have htensors : g'.tensors.map Tensor.veiled = g.tensors.map Tensor.veiled :=
    congrArg (·.tensors) h
  rw [← List.forall₂_eq_eq_eq, List.forall₂_map_left_iff, List.forall₂_map_right_iff] at htensors
  exact htensors.flip

theorem fixed_same (h : g'.veiled = g.veiled)
    (hf : List.Forall₂ (fun t t' : Tensor => t'.visibility = .fixed ↔ t.visibility = .fixed)
      g.tensors g'.tensors) {id : String} {t t' : Tensor} (ht : g.tensor? id = some t)
    (ht' : g'.tensor? id = some t') : t'.visibility = .fixed ↔ t.visibility = .fixed := by
  have hboth : List.Forall₂ (fun t t' : Tensor => t'.veiled = t.veiled ∧
      (t'.visibility = .fixed ↔ t.visibility = .fixed)) g.tensors g'.tensors :=
    (tensors_same h).mp (fun _ _ => And.intro) hf
  have hid (u u' : Tensor) (hu : u'.veiled = u.veiled ∧
      (u'.visibility = .fixed ↔ u.visibility = .fixed)) : (u'.id == id) = (u.id == id) := by
    rw [show u'.id = u.id from congrArg (·.id) hu.1]
  rcases Sequences.find?_forall₂ hboth hid with ⟨hnone, -⟩ | ⟨z, -, hz, hfound, hfound'⟩
  · exact absurd (ht.symm.trans hnone) (by simp)
  · obtain rfl := Option.some.inj (ht.symm.trans hfound)
    obtain rfl := Option.some.inj (ht'.symm.trans hfound')
    exact hz.2

end Circuit.Graph

theorem Witness.readEntries_same [Platform] {m : Int} {g g' : Circuit.Graph}
    (h : g'.veiled = g.veiled) (given : List (String × Json)) (ids : List String) :
    readEntries m g' given ids = readEntries m g given ids := by
  have hentry {t t' : Circuit.Tensor} (ht : t'.veiled = t.veiled) (j : Json) :
      readEntry m t' j = readEntry m t j := by
    change readEntry m t'.veiled j = readEntry m t.veiled j
    rw [ht]
  induction ids with
  | nil => rfl
  | cons id ids ih =>
    have hmap := congrArg (·.tensor? id) h
    simp only [Circuit.Graph.tensor?_veiled] at hmap
    rw [readEntries, readEntries, ih]
    cases ht : g.tensor? id with
    | none =>
      rw [ht] at hmap
      rw [Option.map_eq_none_iff.1 hmap]
    | some t =>
      rw [ht] at hmap
      obtain ⟨t', ht', hv⟩ := Option.map_eq_some_iff.1 hmap
      rw [ht']
      dsimp only
      cases Ordered.get? id given with
      | none => rfl
      | some j =>
        dsimp only
        rw [hentry hv j]

theorem Witness.read_same [Platform] {m : Int} {g g' : Circuit.Graph} (h : g'.veiled = g.veiled)
    (given : Json) : read m g' given = read m g given := by
  have hrequired : g'.required = g.required := congrArg (·.required) h
  rw [read, read, hrequired]
  cases fields? given with
  | none => rfl
  | some fields => exact readEntries_same h fields _

namespace Sample

def shownGraph (x y z : Circuit.Visibility) : Circuit.Graph :=
  ⟨[⟨"x", [1], 1, x⟩, ⟨"k", [1], 0, .fixed⟩, ⟨"y", [1], 0, y⟩, ⟨"z", [1], 0, z⟩],
    graph.operations, ["x"], ["z"]⟩

def shown (x y z : Circuit.Visibility) : Json := (shownGraph x y z).document

/-- A small address space without a place for inputs and outputs. -/
def tight : Layout :=
  ⟨fun
    | .control => 2
    | .input => 0
    | .fixed => 24
    | .intermediate => 16
    | .output => 0, 42, by intro r; cases r <;> decide, by decide⟩

theorem read_moved : Circuit.read (shown .fixed .pub .fixed) =
    .ok (shownGraph .fixed .pub .fixed) := by
  cbv

theorem read_public : Circuit.read (shown .pub .priv .pub) =
    .ok (shownGraph .pub .priv .pub) := by
  cbv

theorem lowers_output : ∃ p,
    (Program.lower "sample" graph witness default (.int 3) Field.defaultModulus).1 = .ok p ∧
      983040 ∈ Lowering.targets p.instructions :=
  Clamped.exists_ok_and (by decide +kernel)

theorem lowers_tight : ∃ p,
    (Program.lower "tight" (shownGraph .fixed .pub .fixed) witness tight (.int 3)
      Field.defaultModulus).1 = .ok p ∧ 983040 ∉ Lowering.targets p.instructions :=
  Clamped.exists_ok_and (by decide +kernel)

theorem lowers_public : ∃ p,
    (Program.lower "shown" (shownGraph .pub .priv .pub) witness default (.int 3)
      Field.defaultModulus).1 = .ok p :=
  exists_ok (by decide +kernel)

end Sample

namespace Program

open Lowering

/-- Placement does not change what is computed. Two circuits that differ in visibilities only,
lowered for one witness under any two layouts, give programs of which one is the other moved;
nothing moves if the same tensors are fixed and the layout is the same. -/
theorem placement_carries [Platform] {doc doc' given : Json} {g g' : Circuit.Graph} {w : Witness}
    {name name' : String} {layout layout' : Layout} {lookupBits : Json} {m : Int} {p p' : Program}
    (hg : Circuit.read doc = .ok g) (hg' : Circuit.read doc' = .ok g')
    (hv : g'.veiled = g.veiled) (hw : Witness.read m g given = .ok w)
    (h : (lower name g w layout lookupBits m).1 = .ok p)
    (h' : (lower name' g' w layout' lookupBits m).1 = .ok p') :
    Carried (p.plan.carry p'.plan) p p' ∧
      (List.Forall₂ (fun t t' : Circuit.Tensor => t'.visibility = .fixed ↔ t.visibility = .fixed)
          g.tensors g'.tensors → layout' = layout →
        p'.plan.allocator.allocations = p.plan.allocator.allocations ∧
          p'.instructions = p.instructions ∧
          (MemoryTable.write p').1 = (MemoryTable.write p).1) := by
  have hw' : Witness.read m g' given = .ok w := (Witness.read_same hv given).trans hw
  obtain ⟨values, hl⟩ := lower_lowered hg hw h
  obtain ⟨values', hl'⟩ := lower_lowered hg' hw' h'
  obtain ⟨plan, journal, _, _, hplan, -, rfl⟩ := lower_eq_ok hl.complete h
  obtain ⟨plan', journal', _, _, hplan', -, rfl⟩ := lower_eq_ok hl'.complete h'
  have hpair : Paired g g' w lookupBits m _ _ values values' :=
    ⟨hl, hl', hv, rfl, rfl, plan_same hv hl.complete.measured hl.wellFormed hplan hplan'⟩
  refine ⟨hpair.carried, ?_⟩
  rintro hf rfl
  obtain ⟨_, _, _, hp⟩ := plan_planned hl.complete.measured hl.wellFormed hplan
  obtain ⟨_, _, _, hp'⟩ := plan_planned hl'.complete.measured hl'.wellFormed hplan'
  have hlayout : plan'.allocator.layout = plan.allocator.layout :=
    hp'.layout_eq.trans hp.layout_eq.symm
  have ha := hpair.allocations_eq (fun _ _ _ ht ht' => Circuit.Graph.fixed_same hv hf ht ht')
    hlayout
  exact ⟨ha, hpair.instructions_same ha, hpair.write_same ha hlayout⟩

/-- In a small address space, with a fixed input and output, the sample has other instructions; with
a public input and output it has the same. -/
theorem sample_placement : ∃ p q r,
    (lower "sample" Sample.graph Sample.witness default (.int 3) Field.defaultModulus).1 = .ok p ∧
      (lower "tight" (Sample.shownGraph .fixed .pub .fixed) Sample.witness Sample.tight (.int 3)
        Field.defaultModulus).1 = .ok q ∧
      (lower "shown" (Sample.shownGraph .pub .priv .pub) Sample.witness default (.int 3)
        Field.defaultModulus).1 = .ok r ∧
      q.instructions ≠ p.instructions ∧ Carried (p.plan.carry q.plan) p q ∧
      r.instructions = p.instructions ∧ (MemoryTable.write r).1 = (MemoryTable.write p).1 := by
  obtain ⟨p, hp, hout⟩ := Sample.lowers_output
  obtain ⟨q, hq, hnot⟩ := Sample.lowers_tight
  obtain ⟨r, hr⟩ := Sample.lowers_public
  obtain ⟨hcarried, -⟩ := placement_carries Sample.read_circuit Sample.read_moved rfl
    Sample.read_values hp hq
  obtain ⟨-, hsame⟩ := placement_carries Sample.read_circuit Sample.read_public rfl
    Sample.read_values hp hr
  obtain ⟨-, hcode, htable⟩ := hsame (by simp [Sample.graph, Sample.shownGraph]) rfl
  refine ⟨p, q, r, hp, hq, hr, ?_, hcarried, hcode, htable⟩
  intro he
  rw [he] at hnot
  exact hnot hout

end Program

end TensorAsm
