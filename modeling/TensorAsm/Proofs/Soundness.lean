import TensorAsm.Proofs.Replay
import TensorAsm.Proofs.SingleAssignment
/-!
A strict replay of a program over its memory table gets through just when the witness agrees with
the references of all operations, up to the modulus.
-/

namespace TensorAsm

/-- On values that fit, an instruction of the field results in what the exact one does. -/
theorem Instruction.eval_encode [Platform] {m : Int} {look : Int → List Table.Row} {k : Int → Int}
    {i : Instruction} (h : ∀ c ∈ i.sources, Field.centre m (Field.encode m (k c)) = k c) :
    i.eval (.field m) look (fun c => Field.encode m (k c)) =
      (i.eval .exact look k).map (Field.encode m) := by
  have hadd (x y : Int) : Field.encode m (x + Field.encode m y) = Field.encode m (x + y) := by
    rw [Int.add_comm, Field.encode_add, Int.add_comm]
  have hmul (x y : Int) : Field.encode m (x * Field.encode m y) = Field.encode m (x * y) := by
    rw [Int.mul_comm, Field.encode_mul, Int.mul_comm]
  cases i with
  | add _ a b => simp [Instruction.eval, Semantics.field, Semantics.exact, Field.encode_add, hadd]
  | sub _ a b =>
    simp only [Instruction.eval, Semantics.field, Semantics.exact, id_eq, Option.map_some,
      Option.some.injEq]
    rw [Field.encode_sub, Int.sub_eq_add_neg, Field.encode_add, Int.sub_eq_add_neg]
  | mul _ a b => simp [Instruction.eval, Semantics.field, Semantics.exact, Field.encode_mul, hmul]
  | mac _ c a b =>
    simp only [Instruction.eval, Semantics.field, Semantics.exact, id_eq, Option.map_some,
      Option.some.injEq]
    rw [Field.encode_add, ← hadd, Field.encode_mul, hmul, hadd]
  | rescale _ a shift =>
    have ha := h a (by simp [Instruction.sources])
    simp only [Instruction.eval, Semantics.moved, Semantics.field, Semantics.exact, id_eq, ha]
    cases Quantity.rescaleFault? (k a) shift <;> rfl
  | clamp _ a lo hi =>
    have ha := h a (by simp [Instruction.sources])
    simp [Instruction.eval, Semantics.clamped, Semantics.field, Semantics.exact, ha]
  | lookup _ a table _ =>
    have ha := h a (by simp [Instruction.sources])
    simp only [Instruction.eval, Semantics.field, Semantics.exact, id_eq, ha, Option.map_map]
    rfl
  | halt => rfl

def Lowering.Plan.look (p : Lowering.Plan) (base : Int) : List Table.Row :=
  ((p.tables.find? (·.address.absolute == base)).map (·.rows.toList)).getD []

/-- Each element of the output of an operation is the reference on its inputs, up to the
modulus. -/
def Witness.Agrees [Platform] (w : Witness) (g : Circuit.Graph) (lookupBits : Json) (m : Int)
    (o : Circuit.Operation) : Prop :=
  ∀ t ∈ g.tensor? o.output, ∀ index ∈ Shape.indices t.shape,
    ∃ r ∈ Semantics.exact.reference g lookupBits w.value o index,
      w.value o.output (Shape.flat t.shape index) ≡ r [ZMOD m]

def Witness.Congruent [Platform] (w : Witness) (g : Circuit.Graph) (lookupBits : Json) (m : Int) :
    Prop :=
  ∀ o ∈ g.operations, w.Agrees g lookupBits m o

instance [Platform] (w : Witness) (g : Circuit.Graph) (lookupBits : Json) (m : Int)
    (o : Circuit.Operation) : Decidable (w.Agrees g lookupBits m o) :=
  inferInstanceAs (Decidable (∀ t ∈ g.tensor? o.output, ∀ index ∈ Shape.indices t.shape,
    ∃ r ∈ Semantics.exact.reference g lookupBits w.value o index,
      w.value o.output (Shape.flat t.shape index) ≡ r [ZMOD m]))

instance [Platform] (w : Witness) (g : Circuit.Graph) (lookupBits : Json) (m : Int) :
    Decidable (w.Congruent g lookupBits m) :=
  inferInstanceAs (Decidable (∀ o ∈ g.operations, w.Agrees g lookupBits m o))

/-- A machine that accepts no other value than the one a cell holds. -/
def Machine.Settings.exacting (m : Int) (tolerant : List Int) : Machine.Settings :=
  ⟨m, true, some 0.0, tolerant⟩

namespace Program.Lowered

open Lowering

variable [Platform] {g : Circuit.Graph} {w : Witness} {lookupBits : Json} {m : Int} {p : Program}
  {values : Values}

theorem look_eq (h : Lowered g w lookupBits m p values) :
    ∀ t ∈ p.plan.tables, p.plan.look t.address.absolute = t.rows.toList := by
  intro t ht
  unfold Plan.look
  cases hf : p.plan.tables.find? (·.address.absolute == t.address.absolute) with
  | none => simpa using List.find?_eq_none.1 hf t ht
  | some u =>
    have he := List.find?_some (p := fun u : FoldedTable =>
      u.address.absolute == t.address.absolute) hf
    rw [h.sound.single u (List.mem_of_find?_eq_some hf) t ht (by simpa using he)]
    rfl

theorem known (h : Lowered g w lookupBits m p values) (hm : 2 ^ 24 < m) {s : Step}
    (hs : s ∈ p.plan.steps) : Machine.Known m p.plan.tables s.instruction := by
  obtain ⟨layout, journal, zb, xs, outs, hp⟩ := h.planned
  rw [hp.steps_eq] at hs
  obtain ⟨x, hx, hs⟩ := List.mem_flatMap.1 hs
  obtain ⟨before, hv⟩ := hp.valid hx
  rcases hv.template.instruction hs with ha | ⟨-, t, ht, ⟨id, u, spec, -, -, hspec, hf⟩, d, key, hi⟩
  · exact .inl ha
  · exact .inr ⟨t, ht, Machine.legible_fold hm (Table.specFor_bits hspec) hf, d, key, hi⟩

theorem cell_fits (h : Lowered g w lookupBits m p values) (hm : 0 < m) {b : Allocation}
    (hb : b ∈ p.plan.allocator.allocations) (hk : b.kind ≠ .table) {c : Int} (hc : c ∈ b.cells) :
    Field.Fits m (values.cell c) := by
  have hzero := Field.fits_zero hm
  obtain ⟨i, hi, rfl⟩ := Allocation.exists_cell hc
  cases hkind : b.kind with
  | table => exact absurd hkind hk
  | control =>
    have hr := h.resolve_control hb hkind hi
    simp only [MemoryTable.resolve, hkind, Except.ok.injEq] at hr
    rwa [← hr]
  | scratch => exact (h.cell_scratch hb hkind hi).1
  | tensor =>
    obtain ⟨hr, -⟩ := h.sound.tensor b hb hkind
    obtain ⟨t, e, -, he, hf⟩ := h.complete b.name hr
    rw [h.derivation.tensor b hb hkind i hi, Witness.value, Witness.values?, he]
    cases hv : e.values[i]? with
    | none => simpa [hv] using hzero
    | some v => simpa [hv] using hf.fits v (Array.mem_of_getElem? hv)

theorem instruction_stands (h : Lowered g w lookupBits m p values) (hm : 2 ^ 24 < m)
    {cells : List Cell} (hc : (MemoryTable.write p).1 = .ok cells) {i : Instruction}
    (hi : i ∈ p.instructions) :
    Machine.Known m p.plan.tables i ∧
      (∀ a ∈ i.sources, (MemoryTable.cellMap (MemoryTable.entries cells))[a]? =
        some (Field.encode m (values.cell a)) ∧
          Field.encode m (Field.encode m (values.cell a)) = Field.encode m (values.cell a)) ∧
      ∃ d, i.dest? = some d ∧ (MemoryTable.cellMap (MemoryTable.entries cells))[d]? =
        some (Field.encode m (values.cell d)) := by
  have hcon := h.contents (by omega) hc
  obtain ⟨layout, journal, zb, xs, outs, hp⟩ := h.planned
  obtain ⟨s, hs, rfl⟩ := List.mem_map.1 hi
  have hcell : ∀ a, a ∈ s.instruction.sources ∨ s.instruction.dest? = some a →
      (MemoryTable.cellMap (MemoryTable.entries cells))[a]? =
        some (Field.encode m (values.cell a)) := by
    intro a ha
    obtain ⟨b, hb, hk, hab⟩ := hp.step_block h.wellFormed hs ha
    exact MemoryTable.get_cellMap hcon.nodup (hcon.cell b hb hk (Region.mem_all _) a hab)
  obtain ⟨d, hd⟩ := Option.isSome_iff_exists.1 (hp.total hs)
  refine ⟨h.known hm hs, fun a ha => ⟨hcell a (.inl ha), ?_⟩, d, hd, hcell d (.inr hd)⟩
  exact (Semantics.field m).wrap_wrap (values.cell a)

theorem stocked (h : Lowered g w lookupBits m p values) (hm : m ≠ 0) {cells : List Cell}
    (hc : (MemoryTable.write p).1 = .ok cells) :
    Machine.Stocked m p.plan.tables (.start (MemoryTable.cellMap (MemoryTable.entries cells))) := by
  have hcon := h.contents hm hc
  exact Machine.stocked_start hcon.nodup (hcon.table (Region.mem_all _))

theorem strict_iff_holds (h : Lowered g w lookupBits m p values) (hm : 2 ^ 24 < m)
    {cells : List Cell} (hc : (MemoryTable.write p).1 = .ok cells) (tolerant : List Int) :
    (Machine.run (.exacting m tolerant) p.instructions
        (.start (MemoryTable.cellMap (MemoryTable.entries cells)))).2 = none ↔
      ∀ s ∈ p.plan.steps,
        Holds (.field m) p.plan.look (fun a => Field.encode m (values.cell a)) s.instruction := by
  have hm0 : m ≠ 0 := by omega
  rw [Machine.run_start, Machine.runThrough_strict hm0 rfl rfl h.sound.single h.look_eq
    (h.stocked hm0 hc) rfl fun i => h.instruction_stands hm hc, instructions, Plan.instructions,
    List.forall_mem_map]
  rfl

theorem mem_blocks (h : Lowered g w lookupBits m p values) {o : Circuit.Operation} :
    o ∈ g.operations ↔ ∃ blk ∈ p.plan.blocks, blk.op = o := by
  obtain ⟨layout, journal, zb, xs, outs, hp⟩ := h.planned
  rw [hp.mem_entry h.wellFormed, hp.blocks]
  simp [Entry.block]

theorem template (h : Lowered g w lookupBits m p values) {blk : Block}
    (hb : blk ∈ p.plan.blocks) :
    ∃ bs, Template g lookupBits p.plan.zero p.plan.allocator p.plan.tables blk.op bs blk.steps := by
  obtain ⟨layout, journal, zb, xs, outs, hp⟩ := h.planned
  rw [hp.blocks] at hb
  obtain ⟨x, hx, rfl⟩ := List.mem_map.1 hb
  obtain ⟨before, hv⟩ := hp.valid hx
  exact ⟨_, hv.template⟩

theorem block_finals (h : Lowered g w lookupBits m p values) {S : Semantics}
    {look : Int → List Table.Row} {k : Int → Int} {v : String → Nat → Int} {blk : Block}
    (hi : Interprets S look k g p.plan.zero p.plan.allocator p.plan.tables v blk.op)
    (hd : ∀ s ∈ p.plan.steps, s.derived = true → Holds S look k s.instruction)
    (hb : blk ∈ p.plan.blocks) :
    ∃ out, Placed g p.plan.allocator blk.op.output out ∧
      finals S look k blk.steps = (Shape.indices out.shape).map fun index =>
        (out.base + Shape.flat out.shape index, S.reference g lookupBits v blk.op index) := by
  obtain ⟨bs, ht⟩ := h.template hb
  exact ht.meaning hi fun s hs => hd s (List.mem_flatMap.2 ⟨blk, hb, hs⟩)

theorem cell_placed (h : Lowered g w lookupBits m p values) {id : String} {x : Operand}
    (hx : Placed g p.plan.allocator id x) {i : Nat} (hi : i < Shape.volume x.shape) :
    values.cell (x.cell i) = w.value id i := by
  obtain ⟨b, hb, hbase, hcells⟩ := hx.block h.sound
  obtain ⟨hm, hk, rfl⟩ := h.sound.coherent.bound_mem hb
  have hc : x.cell i ∈ b.cells := by
    rw [hcells]
    exact mem_elementCells.2 ⟨i, hi, rfl⟩
  rw [Allocation.mem_cells, hbase, Operand.cell] at hc
  rw [Operand.cell, ← hbase]
  exact h.derivation.tensor b hm hk i (by omega)

theorem interprets (h : Lowered g w lookupBits m p values) (o : Circuit.Operation) :
    Interprets .exact p.plan.look values.cell g p.plan.zero p.plan.allocator p.plan.tables
      w.value o :=
  ⟨h.derivation.zero, fun _ => rfl, h.look_eq, fun _ _ _ hx _ hi => h.cell_placed hx hi⟩

theorem derived_holds (h : Lowered g w lookupBits m p values) {s : Step} (hs : s ∈ p.plan.steps)
    (hd : s.derived = true) : Holds .exact p.plan.look values.cell s.instruction := by
  intro d hdest
  have hx := (h.derivation.derived s hs hd d hdest).1
  obtain ⟨layout, journal, zb, xs, outs, hp⟩ := h.planned
  rw [hp.steps_eq] at hs
  obtain ⟨x, hx', hs⟩ := List.mem_flatMap.1 hs
  obtain ⟨before, hv⟩ := hp.valid hx'
  rcases hv.template.instruction hs with ha | ⟨hfalse, -⟩
  · rw [← Instruction.toOption_exact ha, hx]
    rfl
  · rw [hd] at hfalse
    exact absurd hfalse (by simp)

theorem block_step (h : Lowered g w lookupBits m p values) {blk : Block}
    (hblk : blk ∈ p.plan.blocks) {t : Circuit.Tensor} (ht : t ∈ g.tensor? blk.op.output)
    {index : List Nat} (hi : index ∈ Shape.indices t.shape) :
    ∃ s ∈ blk.steps, s.derived = false ∧ ∃ d, s.instruction.dest? = some d ∧
      values.cell d = w.value blk.op.output (Shape.flat t.shape index) ∧
      s.instruction.eval .exact p.plan.look values.cell =
        Semantics.exact.reference g lookupBits w.value blk.op index := by
  obtain ⟨out, hout, hf⟩ := h.block_finals (h.interprets _) (fun s => h.derived_holds) hblk
  obtain rfl : out.tensor = t := Option.some.inj (hout.tensor.symm.trans ht)
  have hmem : (out.base + Shape.flat out.shape index,
      Semantics.exact.reference g lookupBits w.value blk.op index) ∈
        finals .exact p.plan.look values.cell blk.steps := by
    rw [hf]
    exact List.mem_map.2 ⟨index, hi, rfl⟩
  obtain ⟨s, hs, hder, hdest, heval⟩ := mem_finals.1 hmem
  exact ⟨s, hs, hder, _, hdest, h.cell_placed hout (Shape.flat_lt hi), heval⟩

theorem final_step (h : Lowered g w lookupBits m p values) {o : Circuit.Operation}
    (ho : o ∈ g.operations) {t : Circuit.Tensor} (ht : t ∈ g.tensor? o.output) {index : List Nat}
    (hi : index ∈ Shape.indices t.shape) :
    ∃ blk ∈ p.plan.blocks, blk.op = o ∧ ∃ s ∈ blk.steps, s.derived = false ∧
      ∃ d, s.instruction.dest? = some d ∧
        values.cell d = w.value o.output (Shape.flat t.shape index) ∧
        s.instruction.eval .exact p.plan.look values.cell =
          Semantics.exact.reference g lookupBits w.value o index := by
  obtain ⟨blk, hblk, rfl⟩ := h.mem_blocks.1 ho
  exact ⟨blk, hblk, rfl, h.block_step hblk ht hi⟩

theorem step_element (h : Lowered g w lookupBits m p values) {blk : Block}
    (hblk : blk ∈ p.plan.blocks) {s : Step} (hs : s ∈ blk.steps) (hder : s.derived = false)
    {d : Int}
    (hd : s.instruction.dest? = some d) :
    ∃ out index, Placed g p.plan.allocator blk.op.output out ∧ index ∈ Shape.indices out.shape ∧
      d = out.base + Shape.flat out.shape index ∧
      s.instruction.eval .exact p.plan.look values.cell =
        Semantics.exact.reference g lookupBits w.value blk.op index := by
  obtain ⟨out, hout, hf⟩ := h.block_finals (h.interprets _) (fun s => h.derived_holds) hblk
  have hmem : (d, s.instruction.eval .exact p.plan.look values.cell) ∈
      finals .exact p.plan.look values.cell blk.steps :=
    mem_finals.2 ⟨s, hs, hder, hd, rfl⟩
  rw [hf] at hmem
  obtain ⟨index, hi, he⟩ := List.mem_map.1 hmem
  obtain ⟨hdest, heval⟩ := Prod.mk.inj he
  exact ⟨out, index, hout, hi, hdest.symm, heval.symm⟩

theorem centre_source (h : Lowered g w lookupBits m p values) (hodd : m % 2 = 1) (hm : 0 < m)
    {s : Step} (hs : s ∈ p.plan.steps) {c : Int} (hc : c ∈ s.instruction.sources) :
    Field.centre m (Field.encode m (values.cell c)) = values.cell c := by
  obtain ⟨layout, journal, zb, xs, outs, hp⟩ := h.planned
  obtain ⟨b, hb, hk, hcb⟩ := hp.step_block h.wellFormed hs (.inl hc)
  exact (h.cell_fits hm hb hk hcb).centre_encode hodd

theorem eval_encode (h : Lowered g w lookupBits m p values) (hodd : m % 2 = 1) (hm : 0 < m)
    {s : Step} (hs : s ∈ p.plan.steps) :
    s.instruction.eval (.field m) p.plan.look (fun a => Field.encode m (values.cell a)) =
      (s.instruction.eval .exact p.plan.look values.cell).map (Field.encode m) :=
  Instruction.eval_encode fun _ => h.centre_source hodd hm hs

theorem holds_encode_iff (h : Lowered g w lookupBits m p values) (hodd : m % 2 = 1) (hm : 0 < m)
    {s : Step} (hs : s ∈ p.plan.steps) {d : Int} (hd : s.instruction.dest? = some d) :
    Holds (.field m) p.plan.look (fun a => Field.encode m (values.cell a)) s.instruction ↔
      ∃ r, s.instruction.eval .exact p.plan.look values.cell = some r ∧
        values.cell d ≡ r [ZMOD m] := by
  have hone : Holds (.field m) p.plan.look (fun a => Field.encode m (values.cell a))
      s.instruction ↔ s.instruction.eval (.field m) p.plan.look
        (fun a => Field.encode m (values.cell a)) = some (Field.encode m (values.cell d)) :=
    ⟨fun hh => hh d hd, fun he e hde => by
      obtain rfl : d = e := Option.some.inj (hd.symm.trans hde)
      exact he⟩
  rw [hone, h.eval_encode hodd hm hs, Option.map_eq_some_iff]
  refine exists_congr fun r => and_congr_right fun _ => ?_
  rw [Field.encode_eq_iff hm]
  exact ⟨Int.ModEq.symm, Int.ModEq.symm⟩

theorem derived_holds_encode (h : Lowered g w lookupBits m p values) (hodd : m % 2 = 1)
    (hm : 0 < m) {s : Step} (hs : s ∈ p.plan.steps) (hder : s.derived = true) :
    Holds (.field m) p.plan.look (fun a => Field.encode m (values.cell a)) s.instruction := by
  intro d hd
  exact (h.holds_encode_iff hodd hm hs hd).2 ⟨_, h.derived_holds hs hder d hd, rfl⟩ d hd

theorem block_holds_iff (h : Lowered g w lookupBits m p values) (hodd : m % 2 = 1) (hm : 0 < m)
    {blk : Block} (hblk : blk ∈ p.plan.blocks) :
    (∀ s ∈ blk.steps,
        Holds (.field m) p.plan.look (fun a => Field.encode m (values.cell a)) s.instruction) ↔
      w.Agrees g lookupBits m blk.op := by
  have hsteps : ∀ s ∈ blk.steps, s ∈ p.plan.steps :=
    fun s hs => List.mem_flatMap.2 ⟨blk, hblk, hs⟩
  constructor
  · intro hall t ht index hi
    obtain ⟨s, hs, -, d, hdest, hcell, heval⟩ := h.block_step hblk ht hi
    obtain ⟨r, hr, hcong⟩ := (h.holds_encode_iff hodd hm (hsteps s hs) hdest).1 (hall s hs)
    exact ⟨r, heval.symm.trans hr, hcell ▸ hcong⟩
  · intro href s hs
    -- derived steps hold by what was recorded, the others by the reference of their element
    cases hder : s.derived with
    | true => exact h.derived_holds_encode hodd hm (hsteps s hs) hder
    | false =>
      obtain ⟨layout, journal, zb, xs, outs, hp⟩ := h.planned
      obtain ⟨d, hdest⟩ := Option.isSome_iff_exists.1 (hp.total (hsteps s hs))
      obtain ⟨out, index, hout, hi, rfl, heval⟩ := h.step_element hblk hs hder hdest
      obtain ⟨r, hr, hcong⟩ := href out.tensor hout.tensor index hi
      have hcell : values.cell (out.base + Shape.flat out.shape index) =
          w.value blk.op.output (Shape.flat out.tensor.shape index) :=
        h.cell_placed hout (Shape.flat_lt hi)
      rw [h.holds_encode_iff hodd hm (hsteps s hs) hdest]
      exact ⟨r, by rw [heval, hr], by rwa [hcell]⟩

theorem holds_iff_congruent (h : Lowered g w lookupBits m p values) (hodd : m % 2 = 1)
    (hm : 0 < m) :
    (∀ s ∈ p.plan.steps,
        Holds (.field m) p.plan.look (fun a => Field.encode m (values.cell a)) s.instruction) ↔
      w.Congruent g lookupBits m := by
  constructor
  · intro hall o ho
    obtain ⟨blk, hblk, rfl⟩ := h.mem_blocks.1 ho
    exact (h.block_holds_iff hodd hm hblk).1 fun s hs =>
      hall s (List.mem_flatMap.2 ⟨blk, hblk, hs⟩)
  · intro href s hs
    obtain ⟨blk, hblk, hs⟩ := List.mem_flatMap.1 hs
    exact (h.block_holds_iff hodd hm hblk).2 (href _ (h.mem_blocks.2 ⟨blk, hblk, rfl⟩)) s hs

theorem accepted (h : Lowered g w lookupBits m p values) (hodd : m % 2 = 1) (hm : 2 ^ 24 < m)
    (hax : ∀ id ∈ g.required, ∀ t, g.tensor? id = some t →
      t.shape.length ≤ Platform.axisLimit ∨ Shape.volume t.shape = 0)
    (hcong : w.Congruent g lookupBits m) (tolerant : List Int) :
    ∃ cells, (MemoryTable.write p).1 = .ok cells ∧
      (Machine.run (.exacting m tolerant) p.instructions
        (.start (MemoryTable.cellMap (MemoryTable.entries cells)))).2 = none := by
  have hpos : 0 < m := by omega
  obtain ⟨cells, hc⟩ := (h.write_iff (by omega)).2 hax
  exact ⟨cells, hc,
    (h.strict_iff_holds hm hc tolerant).2 ((h.holds_iff_congruent hodd hpos).2 hcong)⟩

end Program.Lowered

/-- Memory can be written but for tensors of too many axes, and a strict replay over it is accepted
just when the witness is congruent to the references. -/
theorem Program.strict_run_iff_congruent [Platform] {doc given : Json} {g : Circuit.Graph}
    {w : Witness} {name : String} {layout : Layout} {lookupBits : Json} {m : Int} {p : Program}
    (hg : Circuit.read doc = .ok g) (hw : Witness.read m g given = .ok w) (hodd : m % 2 = 1)
    (hm : 2 ^ 24 < m) (h : (lower name g w layout lookupBits m).1 = .ok p) (tolerant : List Int) :
    ((∃ cells, (MemoryTable.write p).1 = .ok cells) ↔
      ∀ id ∈ g.required, ∀ t, g.tensor? id = some t →
        t.shape.length ≤ Platform.axisLimit ∨ Shape.volume t.shape = 0) ∧
    ∀ cells, (MemoryTable.write p).1 = .ok cells →
      ((Machine.run (.exacting m tolerant) p.instructions
          (.start (MemoryTable.cellMap (MemoryTable.entries cells)))).2 = none ↔
        w.Congruent g lookupBits m) := by
  obtain ⟨values, hl⟩ := lower_lowered hg hw h
  have hpos : 0 < m := by omega
  refine ⟨hl.write_iff (by omega), fun cells hc => ?_⟩
  rw [hl.strict_iff_holds hm hc tolerant, hl.holds_iff_congruent hodd hpos]

theorem Sample.required : graph.required = ["k", "x", "y", "z"] := by
  cbv

theorem Program.sample_strict_run :
    ∃ p cells,
      (lower "sample" Sample.graph Sample.witness default (.int 3) Field.defaultModulus).1
        = .ok p ∧
      (MemoryTable.write p).1 = .ok cells ∧
      (Machine.run (.exacting Field.defaultModulus []) p.instructions
        (.start (MemoryTable.cellMap (MemoryTable.entries cells)))).2 = none := by
  obtain ⟨p, h⟩ := Sample.lowers
  obtain ⟨hwrite, hrun⟩ := strict_run_iff_congruent Sample.read_circuit Sample.read_values
    (by decide) (by decide) h []
  obtain ⟨cells, hc⟩ := hwrite.2 (by rw [Sample.required]; decide)
  exact ⟨p, cells, h, hc, (hrun cells hc).2 (by decide +kernel)⟩

namespace FarRescale

def graph : Circuit.Graph :=
  ⟨[⟨"x", [1], 2 ^ 70, .priv⟩, ⟨"y", [1], 0, .priv⟩], [⟨1, "rescale", ["x"], "y", 0, []⟩],
    ["x"], ["y"]⟩

def circuit : Json := graph.document

def values : Json := .obj [("x", .arr [.int 0]), ("y", .arr [.int 0])]

def witness : Witness := [("x", ⟨[1], #[0]⟩), ("y", ⟨[1], #[0]⟩)]

theorem read_circuit : Circuit.read circuit = .ok graph := by
  cbv

theorem read_values : Witness.read Field.defaultModulus graph values = .ok witness := by
  cbv

theorem lowers :
    ∃ p, (Program.lower "far" graph witness default (.int 8) Field.defaultModulus).1 = .ok p :=
  Sample.exists_ok (by decide +kernel)

theorem required : graph.required = ["x", "y"] := by
  cbv

end FarRescale

/-- Zero at the scale `2 ^ 70` is zero at any scale, but a replay cannot bring it down so far. -/
theorem Program.far_rescale_refused :
    ∃ p cells,
      Circuit.read FarRescale.circuit = .ok FarRescale.graph ∧
      Witness.read Field.defaultModulus FarRescale.graph FarRescale.values
        = .ok FarRescale.witness ∧
      (lower "far" FarRescale.graph FarRescale.witness default (.int 8) Field.defaultModulus).1
        = .ok p ∧
      (MemoryTable.write p).1 = .ok cells ∧
      FarRescale.witness.value "y" 0 = Quantity.rescale (FarRescale.witness.value "x" 0) (2 ^ 70) ∧
      (Machine.run (.exacting Field.defaultModulus []) p.instructions
        (.start (MemoryTable.cellMap (MemoryTable.entries cells)))).2 ≠ none := by
  obtain ⟨p, h⟩ := FarRescale.lowers
  obtain ⟨values, hl⟩ := lower_lowered FarRescale.read_circuit FarRescale.read_values h
  obtain ⟨cells, hc⟩ := (hl.write_iff (by decide)).2 (by rw [FarRescale.required]; decide)
  refine ⟨p, cells, FarRescale.read_circuit, FarRescale.read_values, h, hc,
    (Quantity.rescale_eq_zero (by decide)).symm, ?_⟩
  rw [Ne, hl.strict_iff_holds (by decide) hc [],
    hl.holds_iff_congruent (by decide) (by decide)]
  decide +kernel

end TensorAsm
