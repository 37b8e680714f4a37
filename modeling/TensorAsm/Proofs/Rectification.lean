import Mathlib
import TensorAsm.Proofs.Memoization
import TensorAsm.Proofs.Recovery
/-!
Rectification by lookup. A lookup of a lowered rectifier reads the cells of its own table and no
others, and writes the rectified key at the scale of the output.
-/

namespace TensorAsm.Machine

variable {s u : State} {base rows : Int}

theorem addRows_isOk_iff {t : Memory} {n : Nat} : (∃ r, s.addRows t base n = .ok r) ↔
    ∀ a, base ≤ a → a < base + 2 * n → ∃ v, s.memory[a]? = some v := by
  induction n generalizing t base with
  | zero => exact ⟨fun _ a hl hu => by omega, fun _ => ⟨t, rfl⟩⟩
  | succ n ih =>
    have hsplit : (∀ a, base ≤ a → a < base + 2 * (n + 1 : Nat) → ∃ v, s.memory[a]? = some v) ↔
        (∃ v, s.memory[base]? = some v) ∧ (∃ v, s.memory[base + 1]? = some v) ∧
          ∀ a, base + 2 ≤ a → a < base + 2 + 2 * n → ∃ v, s.memory[a]? = some v := by
      constructor
      · intro h
        exact ⟨h base (by omega) (by omega), h (base + 1) (by omega) (by omega),
          fun a hl hu => h a (by omega) (by omega)⟩
      · rintro ⟨h0, h1, h⟩ a hl hu
        by_cases ha : a = base
        · exact ha ▸ h0
        by_cases ha' : a = base + 1
        · exact ha' ▸ h1
        · exact h a (by omega) (by omega)
    rw [hsplit]
    simp only [State.addRows, State.read]
    cases hk : s.memory[base]? with
    | none => simp
    | some key =>
      cases hv : s.memory[base + 1]? with
      | none => simp
      | some value =>
        simp only [Option.some.injEq, exists_eq', true_and]
        exact ih

/-- The cells that a table is read from: it can be read just when all of them are there, and what
they hold settles what is read. -/
structure ReadFrom (base rows : Int) (cells : List Int) : Prop where
  needed : ∀ s : State, (∃ t, s.buildTable base rows = .ok t) ↔
    ∀ a ∈ cells, ∃ v, s.memory[a]? = some v
  settled : ∀ (s u : State) (t : Memory), s.buildTable base rows = .ok t →
    (∀ a ∈ cells, u.memory[a]? = s.memory[a]?) → u.buildTable base rows = .ok t

theorem readFrom_cells {b : Allocation} (hbase : b.address.absolute = base)
    (hsize : b.size = 2 * rows) : ReadFrom base rows b.cells where
  needed := by
    intro s
    rw [State.buildTable, addRows_isOk_iff]
    constructor
    · intro h a ha
      rw [Allocation.mem_cells] at ha
      exact h a (by omega) (by omega)
    · intro h a hl hu
      exact h a (Allocation.mem_cells.2 (by omega))
  settled := fun s u t ht h =>
    buildTable_frame ht fun a hl hu => h a (Allocation.mem_cells.2 (by omega))

/-- A lookup over the rows of a table that stand in memory, as long as no other table is kept for
them: it finds the row of the key that is asked for, or stops. -/
theorem step_lookup [Platform] {c : Settings} {t : Lowering.FoldedTable} {dest key e : Int}
    (hm : c.modulus ≠ 0) (hs : c.strict = false) (hleg : Legible c.modulus t.rows.toList)
    (hrows : ∀ (i : Nat) (r : Table.Row), t.rows[i]? = some r →
      s.memory[t.address.absolute + 2 * (i : Int)]? = some (Field.encode c.modulus r.x) ∧
        s.memory[t.address.absolute + 2 * (i : Int) + 1]? = some (Field.encode c.modulus r.y))
    (hkept : ∀ kept, s.tables.lookup (t.address.absolute, (t.rows.size : Int)) = some kept →
      s.buildTable t.address.absolute t.rows.size = .ok kept)
    (hkey : s.memory[key]? = some e) (he : Field.encode c.modulus e = e) :
    (∃ r ∈ t.rows.toList, r.x = Field.centre c.modulus e ∧ ∃ tables,
        step c s (.lookup dest key t.address.absolute t.rows.size) =
          (⟨s.memory.insert dest (Field.encode c.modulus r.y), tables, s.pc, s.steps + 1,
            s.halted⟩, none)) ∨
      (∀ r ∈ t.rows.toList, r.x ≠ Field.centre c.modulus e) ∧
        ∃ s' f, step c s (.lookup dest key t.address.absolute t.rows.size) = (s', some f) := by
  have hbuild : s.buildTable t.address.absolute t.rows.size =
      .ok (rowMap c.modulus t.rows.toList) := by
    have hr := addRows_eq t.rows.toList ∅ fun i r hi => hrows i r (by simpa using hi)
    rw [Array.length_toList] at hr
    exact hr
  have hstock : Stocked c.modulus [t] s := by
    constructor
    · simpa using hrows
    · intro v hv kept hk
      obtain rfl := List.mem_singleton.1 hv
      exact (Except.ok.inj (hbuild.symm.trans (hkept kept hk))).symm
  have hapart : Apart [t] := by simp [Apart]
  obtain ⟨look, hlook⟩ : ∃ look : Int → List Table.Row, look = fun _ => t.rows.toList := ⟨_, rfl⟩
  have hl : ∀ v ∈ [t], look v.address.absolute = v.rows.toList := by simp [hlook]
  have hknown : Known c.modulus [t] (.lookup dest key t.address.absolute t.rows.size) :=
    .inr ⟨t, by simp, hleg, dest, key, rfl⟩
  have hsource : ∀ a ∈ (Instruction.lookup dest key t.address.absolute t.rows.size).sources,
      s.memory[a]? = some (s.cell a) ∧ Field.encode c.modulus (s.cell a) = s.cell a := by
    intro a ha
    obtain rfl : a = key := by simpa [Instruction.sources] using ha
    rw [State.cell_eq hkey]
    exact ⟨hkey, he⟩
  have heval : (Instruction.lookup dest key t.address.absolute t.rows.size).eval
      (.field c.modulus) look s.cell =
        (t.rows.toList.find? (·.x == Field.centre c.modulus e)).map
          fun r => Field.encode c.modulus r.y := by
    simp [Instruction.eval, Semantics.field, State.cell_eq hkey, hlook]
  rcases step_lenient hm hs hstock hapart hl hknown hsource rfl with
    ⟨v, tables, hv, -, hstep⟩ | ⟨s', f, hstep, hnone, -⟩
  · rw [heval] at hv
    obtain ⟨r, hr, rfl⟩ := Option.map_eq_some_iff.1 hv
    exact .inl ⟨r, List.mem_of_find?_eq_some hr, by simpa using List.find?_some hr, tables, hstep⟩
  · rw [heval, Option.map_eq_none_iff, List.find?_eq_none] at hnone
    exact .inr ⟨fun r hr => by simpa using hnone r hr, s', f, hstep⟩

/-- A lookup in the table of a rectifier gets through just for the keys of its width, and writes
what the key is rectified to. -/
theorem step_relu [Platform] {c : Settings} {spec : Table.Spec} {t : Lowering.FoldedTable}
    {key e : Int} (dest : Int) (hfun : spec.function = "relu")
    (hfold : Table.fold spec = .ok t.rows.toList) (hm : spec.rows < c.modulus)
    (hs : c.strict = false) (hrows : ∀ (i : Nat) (r : Table.Row), t.rows[i]? = some r →
      s.memory[t.address.absolute + 2 * (i : Int)]? = some (Field.encode c.modulus r.x) ∧
        s.memory[t.address.absolute + 2 * (i : Int) + 1]? = some (Field.encode c.modulus r.y))
    (hkept : ∀ kept, s.tables.lookup (t.address.absolute, (t.rows.size : Int)) = some kept →
      s.buildTable t.address.absolute t.rows.size = .ok kept) (hkey : s.memory[key]? = some e)
    (hlo : 0 ≤ e) (hhi : e < c.modulus) :
    ((step c s (.lookup dest key t.address.absolute t.rows.size)).2 = none ↔
        -spec.half ≤ Field.centre c.modulus e ∧ Field.centre c.modulus e ≤ spec.half - 1) ∧
      ((step c s (.lookup dest key t.address.absolute t.rows.size)).2 = none →
        (step c s (.lookup dest key t.address.absolute t.rows.size)).1.memory =
          s.memory.insert dest (Field.encode c.modulus
            (Quantity.rescale (max (Field.centre c.modulus e) 0)
              (spec.inScale - spec.outScale)))) := by
  rcases step_lookup (by omega) hs (legible_rows hm hfold) hrows hkept hkey
      (Int.fmod_eq_of_lt hlo hhi) with ⟨r, hr, hrx, tables, hstep⟩ | ⟨hnot, s', f, hstep⟩
  · have hrange := (Table.mem_fold_inputs hfold).1 (List.mem_map_of_mem hr)
    rw [hrx] at hrange
    rw [hstep]
    refine ⟨⟨fun _ => by omega, fun _ => rfl⟩, fun _ => ?_⟩
    rw [Table.relu_row hfun hfold hr, hrx]
  · rw [hstep]
    refine ⟨⟨fun hn => by simp at hn, fun hrange => ?_⟩, fun hn => by simp at hn⟩
    obtain ⟨r, hr, hrx⟩ := List.mem_map.1
      ((Table.mem_fold_inputs hfold).2 ⟨hrange.1, by omega⟩)
    exact absurd hrx (hnot r hr)

end TensorAsm.Machine

namespace TensorAsm.Lowering

variable {g : Circuit.Graph} {lookupBits : Json} {zero : Int} {a : Allocator}
  {ts : List FoldedTable} {o : Circuit.Operation} {bs : List Allocation} {ss : List Step}

theorem Template.lookups [Platform] {kind : Circuit.Kind}
    (h : Template g lookupBits zero a ts o bs ss) (hk : o.kind? = some kind)
    (hcat : kind.category = .nonlinearity) :
    ∃ id x out spec t, o.inputs = [id] ∧ Placed g a id x ∧ Placed g a o.output out ∧
      Table.specFor o x.scale lookupBits = .ok spec ∧ t ∈ ts ∧
      Table.fold spec = .ok t.rows.toList ∧
      ss = lookupSteps o x t.address.absolute spec.rows out.base (Shape.volume x.shape) := by
  have hother : ∀ other, o.kind? = some other → other.category ≠ .nonlinearity → False := by
    intro other ho hne
    obtain rfl := Option.some.inj (hk.symm.trans ho)
    exact hne hcat
  cases h with
  | linear ho =>
    rcases ho with ⟨ho, -⟩ | ⟨ho, -⟩ <;> exact (hother _ ho (by decide)).elim
  | unary ho =>
    rcases ho with ⟨ho, -⟩ | ⟨ho, -⟩ <;> exact (hother _ ho (by decide)).elim
  | product ho | rescale ho | clamp ho => exact (hother _ ho (by decide)).elim
  | reduction hs =>
    obtain ⟨other, ho, hne⟩ := hs.contraction
    exact (hother other ho (by simp [hne])).elim
  | lookup _ _ hi hx hout _ hspec ht hf => exact ⟨_, _, _, _, _, hi, hx, hout, hspec, ht, hf, rfl⟩

end TensorAsm.Lowering

namespace TensorAsm.Program

open Lowering Machine

section

variable [Platform] {g : Circuit.Graph} {w : Witness} {lookupBits : Json} {m : Int} {p : Program}
  {values : Values}

/-- What the lookups of a rectifier of the given width do, over the table that the cells of a memory
table hold. -/
structure Rectifies (g : Circuit.Graph) (p : Program) (m : Int) (cells : List Cell) (blk : Block)
    (bits : Int) (x out : Operand) (b : Allocation) : Prop where
  width : 1 ≤ bits ∧ bits ≤ 24
  source : ∃ id, blk.op.inputs = [id] ∧ Placed g p.plan.allocator id x
  target : Placed g p.plan.allocator blk.op.output out
  block : b ∈ p.plan.allocator.allocations ∧ b.kind = .table ∧ b.size = 2 * 2 ^ bits.toNat
  own : ReadFrom b.address.absolute (2 ^ bits.toNat) b.cells
  steps : blk.steps.map (·.instruction) = (List.range (Shape.volume x.shape)).map fun (i : Nat) =>
    .lookup (out.base + i) (x.base + i) b.address.absolute (2 ^ bits.toNat)
  runs : ∀ (c : Settings) (s : State), c.modulus = m → c.strict = false →
    (∀ a ∈ b.cells, s.memory[a]? = (MemoryTable.cellMap (MemoryTable.entries cells))[a]?) →
    (∀ t, s.tables.lookup (b.address.absolute, 2 ^ bits.toNat) = some t →
      s.buildTable b.address.absolute (2 ^ bits.toNat) = .ok t) →
    ∀ dest key e : Int, s.memory[key]? = some e → 0 ≤ e → e < m →
      ((step c s (.lookup dest key b.address.absolute (2 ^ bits.toNat))).2 = none ↔
        -2 ^ (bits.toNat - 1) ≤ Field.centre m e ∧
          Field.centre m e ≤ 2 ^ (bits.toNat - 1) - 1) ∧
      ((step c s (.lookup dest key b.address.absolute (2 ^ bits.toNat))).2 = none →
        (step c s (.lookup dest key b.address.absolute (2 ^ bits.toNat))).1.memory =
          s.memory.insert dest (Field.encode m
            (Quantity.rescale (max (Field.centre m e) 0) (x.scale - blk.op.scale))))

/-- The rows of a table stand in any memory that has the cells of its block from a memory table. -/
theorem Lowered.rows_stand (h : Lowered g w lookupBits m p values) (hm : m ≠ 0) {cells : List Cell}
    (hc : (MemoryTable.write p).1 = .ok cells) {t : FoldedTable} (ht : t ∈ p.plan.tables)
    {memory : Memory} (hmem : ∀ a, t.address.absolute ≤ a →
      a < t.address.absolute + 2 * t.rows.size →
        memory[a]? = (MemoryTable.cellMap (MemoryTable.entries cells))[a]?) (i : Nat)
    (r : Table.Row) (hr : t.rows[i]? = some r) :
    memory[t.address.absolute + 2 * (i : Int)]? = some (Field.encode m r.x) ∧
      memory[t.address.absolute + 2 * (i : Int) + 1]? = some (Field.encode m r.y) := by
  have hi : i < t.rows.size := (Array.getElem?_eq_some_iff.1 hr).1
  obtain ⟨hx, hy⟩ := h.row_mem_entries hm hc ht hr
  rw [hmem _ (by omega) (by omega), hmem _ (by omega) (by omega)]
  exact ⟨MemoryTable.get_cellMap (h.entries_nodup hc) hx,
    MemoryTable.get_cellMap (h.entries_nodup hc) hy⟩

theorem Lowered.rectifies (h : Lowered g w lookupBits m p values) {cells : List Cell}
    (hc : (MemoryTable.write p).1 = .ok cells) {blk : Block} (hblk : blk ∈ p.plan.blocks)
    (hkind : blk.op.kind = "relu") {bits : Int}
    (hbits : Table.readBits blk.op lookupBits = .ok bits)
    (hm : 2 ^ bits.toNat < m) : ∃ x out b, Rectifies g p m cells blk bits x out b := by
  obtain ⟨bs, htem⟩ := h.template hblk
  have hrelu : blk.op.kind? = some .relu := by
    rw [Circuit.Operation.kind?, hkind]
    decide
  obtain ⟨id, x, out, spec, t, hin, hx, hout, hspec, ht, hfold, hsteps⟩ := htem.lookups hrelu rfl
  obtain ⟨bits', alpha, points, hb, heq⟩ := Table.specFor_eq hspec
  obtain rfl : bits = bits' := Except.ok.inj (hbits.symm.trans hb)
  obtain ⟨-, b, hmem, hk, hadr, hsz⟩ := h.sound.table t ht
  have hwidth := Table.readBits_bounds hb
  have hrows : spec.rows = 2 ^ bits.toNat := by
    rw [heq, Table.Spec.rows]
    norm_num
  have hhalf : spec.half = 2 ^ (bits.toNat - 1) := by
    have hn : (bits - 1).toNat = bits.toNat - 1 := by omega
    rw [heq, Table.Spec.half, hn]
    norm_num
  have hlen : (t.rows.size : Int) = 2 ^ bits.toNat := by
    rw [← hrows, ← Table.length_fold hfold, Array.length_toList]
  refine ⟨x, out, b, hwidth, ⟨id, hin, hx⟩, hout, ⟨hmem, hk, by rw [hsz, hlen]⟩,
    readFrom_cells rfl (by rw [hsz, hlen]), ?_, ?_⟩
  · rw [hsteps, lookupSteps, List.map_map, hadr, ← hrows]
    rfl
  · intro c s hmod hstrict hcells hkept dest key e hkey hlo hhi
    obtain rfl := hmod
    rw [hadr, ← hlen] at hkept ⊢
    have hstand := h.rows_stand (by omega) hc ht fun a hl hu =>
      hcells a (Allocation.mem_cells.2 (by rw [hadr, hsz]; omega))
    have hstep := step_relu dest (by rw [heq, hkind]) hfold (by rw [hrows]; exact hm)
      hstrict hstand hkept hkey hlo hhi
    rw [hhalf, heq] at hstep
    exact hstep

/-- Rectifiers are looked up. The lookups of a lowered rectifier read just the cells of the block of
their table; one over that table gets through if and only if its key is of the width of the table,
and then writes the rectified key at the scale of the output. -/
theorem lower_rectifies {doc given : Json} {name : String} {layout : Layout} {cells : List Cell}
    {blk : Block} {bits : Int} (hg : Circuit.read doc = .ok g) (hw : Witness.read m g given = .ok w)
    (h : (lower name g w layout lookupBits m).1 = .ok p)
    (hc : (MemoryTable.write p).1 = .ok cells) (hblk : blk ∈ p.plan.blocks)
    (hkind : blk.op.kind = "relu") (hbits : Table.readBits blk.op lookupBits = .ok bits)
    (hm : 2 ^ bits.toNat < m) : ∃ x out b, Rectifies g p m cells blk bits x out b := by
  obtain ⟨values, hl⟩ := lower_lowered hg hw h
  exact hl.rectifies hc hblk hkind hbits hm

end

namespace Narrow

def graph : Circuit.Graph :=
  ⟨[⟨"x", [2], 1, .priv⟩, ⟨"y", [2], 0, .priv⟩],
    [⟨1, "relu", ["x"], "y", 0, [("bits", .int 2)]⟩], ["x"], ["y"]⟩

def circuit : Json := graph.document

def values : Json := .obj [("x", .arr [.int (-2), .int 1]), ("y", .arr [.int 0, .int 1])]

def witness : Witness := [("x", ⟨[2], #[-2, 1]⟩), ("y", ⟨[2], #[0, 1]⟩)]

theorem read_circuit : Circuit.read circuit = .ok graph := by
  cbv

theorem read_values : Witness.read 5 graph values = .ok witness := by
  cbv

theorem lowers : ∃ p, (Program.lower "narrow" graph witness default (.int 8) 5).1 = .ok p :=
  Sample.exists_ok (by decide +kernel)

theorem required : graph.required = ["x", "y"] := by
  cbv

end Narrow

/-- A rectifier of width two, in a field that has one element more than its table has rows. -/
theorem narrow_rectifies : ∃ p cells blk x out b,
    (lower "narrow" Narrow.graph Narrow.witness default (.int 8) 5).1 = .ok p ∧
      (MemoryTable.write p).1 = .ok cells ∧ blk ∈ p.plan.blocks ∧ blk.op.kind = "relu" ∧
      Table.readBits blk.op (.int 8) = .ok 2 ∧ Rectifies Narrow.graph p 5 cells blk 2 x out b := by
  obtain ⟨p, h⟩ := Narrow.lowers
  obtain ⟨values, hl⟩ := lower_lowered Narrow.read_circuit Narrow.read_values h
  obtain ⟨cells, hc⟩ := (hl.write_iff (by decide)).2 (by rw [Narrow.required]; decide)
  obtain ⟨blk, hblk, hop⟩ := hl.mem_blocks.1
    (List.mem_singleton_self (⟨1, "relu", ["x"], "y", 0, [("bits", .int 2)]⟩ : Circuit.Operation))
  have hkind : blk.op.kind = "relu" := by rw [hop]
  have hbits : Table.readBits blk.op (.int 8) = .ok 2 := by
    rw [hop]
    rfl
  obtain ⟨x, out, b, hr⟩ := lower_rectifies Narrow.read_circuit Narrow.read_values h hc hblk hkind
    hbits (by decide)
  exact ⟨p, cells, blk, x, out, b, h, hc, hblk, hkind, hbits, hr⟩

end TensorAsm.Program
