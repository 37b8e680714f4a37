import TensorAsm.Proofs.Contents
import TensorAsm.Proofs.Soundness
/-!
The memory table of a lowered program as an image of its blocks: one cell for each address in use,
in ascending order and without gaps, with the encoded value that the owner of the cell gives it.
-/

namespace TensorAsm

theorem Field.encode_bounds {m : Int} (h : 0 < m) (v : Int) : 0 ≤ encode m v ∧ encode m v < m :=
  ⟨Int.fmod_nonneg_of_pos v h, Int.fmod_lt_of_pos v h⟩

theorem Layout.regions_ascend (l : Layout) :
    Region.all.Pairwise fun r q => l.base r + l.size r ≤ l.base q := by
  have hc := l.size_nonneg .control
  have hi := l.size_nonneg .input
  have hf := l.size_nonneg .fixed
  have hm := l.size_nonneg .intermediate
  simp only [Region.all, List.pairwise_cons, List.mem_cons, List.not_mem_nil, or_false,
    forall_eq_or_imp, forall_eq, base, List.Pairwise.nil, and_true, false_implies, implies_true]
  omega

namespace MemoryTable

section

variable {a : Allocator}

theorem addresses_ascend (hc : a.Coherent) (h : Tiles a.layout a.allocations) :
    (Region.all.flatMap (addresses a)).Pairwise (· < ·) := by
  rw [List.pairwise_flatMap]
  constructor
  · intro r _
    rw [addresses, List.pairwise_map]
    exact List.pairwise_lt_range.imp fun hlt => by omega
  · refine a.layout.regions_ascend.imp fun {r q} hle x hx y hy => ?_
    have hx := mem_addresses.1 hx
    have hy := mem_addresses.1 hy
    have hr := h.taken_bounds r
    rw [hc.used_eq] at hx
    omega

theorem length_addresses (hc : a.Coherent) (h : Tiles a.layout a.allocations) :
    ((Region.all.flatMap (addresses a)).length : Int) = a.totalUsed := by
  have key (rs : List Region) : ((rs.flatMap (addresses a)).length : Int) =
      rs.foldr (fun r n => a.used r + n) 0 := by
    induction rs with
    | nil => rfl
    | cons r rs ih =>
      have hr := (h.taken_bounds r).1
      rw [← hc.used_eq] at hr
      rw [List.flatMap_cons, List.length_append, List.foldr_cons, ← ih, addresses,
        List.length_map, List.length_range]
      omega
  exact key Region.all

end

/-- The value that a block gives to one of its cells. A tensor has the values of the witness row by
row, a table its rows as pairs, a scratch block what was derived, and the zero cell has zero. -/
def Gives (p : Program) (address : Int) (o : Allocator.Owner) (v : Int) : Prop :=
  match o.block.kind with
  | .control => v = 0
  | .table => ∃ t ∈ p.plan.tables, t.address = o.block.address ∧
    (∀ u ∈ p.plan.tables, u.address.absolute = o.block.address.absolute → u = t) ∧
    ∃ r, t.rows[o.index / 2]? = some r ∧ v = if o.index % 2 = 0 then r.x else r.y
  | .scratch => p.derived[address]? = some v
  | .tensor => ∃ e, Ordered.get? o.block.name p.witness = some e ∧ e.values[o.index]? = some v

/-- The cells of a program in full. -/
structure Image (p : Program) (cells : List Cell) : Prop where
  ascending : (cells.map (·.address)).Pairwise (· < ·)
  addresses : ∀ x, x ∈ cells.map (·.address) ↔ ∃ r, p.plan.allocator.layout.base r ≤ x ∧
    x < p.plan.allocator.layout.base r + p.plan.allocator.used r
  length : (cells.length : Int) = p.plan.allocator.totalUsed
  canonical : ∀ c ∈ cells, 0 ≤ c.value ∧ c.value < p.modulus
  given : ∀ c ∈ cells, ∃ o v, p.plan.allocator.owners[c.address]? = some o ∧
    Gives p c.address o v ∧ c.value = Field.encode p.modulus v

/-- Some tensor in use has elements but too many dimensions. -/
def Unreadable [Platform] (g : Circuit.Graph) (f : Fault) : Prop :=
  ∃ id ∈ g.required, ∃ t, g.tensor? id = some t ∧ Shape.volume t.shape ≠ 0 ∧
    Platform.axisLimit < t.shape.length ∧ f = .tooManyAxes Platform.axisLimit t.shape.length

end MemoryTable

namespace Program.Lowered

open Lowering MemoryTable

variable [Platform] {g : Circuit.Graph} {w : Witness} {lookupBits : Json} {m : Int} {p : Program}
  {values : Values} {b : Allocation} {i : Nat}

theorem resolve_cases (h : Lowered g w lookupBits m p values)
    (hb : b ∈ p.plan.allocator.allocations) (hi : (i : Int) < b.size) :
    (∃ v, resolve p (b.address.absolute + i) ⟨b, i⟩ = .ok v ∧
      Gives p (b.address.absolute + i) ⟨b, i⟩ v) ∨
    ∃ f, resolve p (b.address.absolute + i) ⟨b, i⟩ = .error f ∧ Unreadable g f := by
  cases hk : b.kind with
  | control =>
    refine .inl ⟨0, by simp only [resolve, hk], ?_⟩
    simp only [Gives, hk]
  | scratch =>
    refine .inl ⟨_, h.resolve_scratch hb hk hi, ?_⟩
    simp only [Gives, hk]
    exact (h.cell_scratch hb hk hi).2
  | table =>
    obtain ⟨t, ht, hadr, r, hr, hv⟩ := h.resolve_table hb hk hi
    refine .inl ⟨_, hv, ?_⟩
    simp only [Gives, hk]
    exact ⟨t, ht, hadr.symm, fun u hu he => h.sound.single u hu t ht (by rw [he, hadr]), r, hr,
      rfl⟩
  | tensor =>
    obtain ⟨hreq, t, ht, hs, -⟩ := h.sound.tensor b hb hk
    have hr := h.resolve_tensor hb hk hi ht
    by_cases hax : t.shape.length ≤ Platform.axisLimit
    · refine .inl ⟨_, by rw [hr, if_pos hax], ?_⟩
      obtain ⟨u, e, hu, he, hf⟩ := h.complete b.name hreq
      obtain rfl : t = u := Option.some.inj (ht.symm.trans hu)
      have hlt : i < e.values.size := by
        rw [hf.size]
        omega
      simp only [Gives, hk, h.witness]
      refine ⟨e, he, ?_⟩
      rw [h.derivation.tensor b hb hk i hi]
      simp [Witness.value, Witness.values?, he, hlt]
    · exact .inr ⟨_, by rw [hr, if_neg hax], b.name, hreq, t, ht, by omega, by omega, rfl⟩

theorem owner_of_address (h : Lowered g w lookupBits m p values) {x : Int}
    (hx : x ∈ Region.all.flatMap (addresses p.plan.allocator)) :
    ∃ b ∈ p.plan.allocator.allocations, ∃ i : Nat, (i : Int) < b.size ∧
      b.address.absolute + i = x ∧ p.plan.allocator.owners[x]? = some ⟨b, i⟩ := by
  obtain ⟨b, hb, hxb⟩ := (mem_all_addresses h.sound.coherent h.sound.tiles).1 hx
  obtain ⟨i, hi, rfl⟩ := Allocation.exists_cell hxb
  exact ⟨b, hb, i, hi, rfl, Allocator.owner_eq h.sound.tiles hb hi⟩

theorem image (h : Lowered g w lookupBits m p values) (hm : 0 < m) {cells : List Cell}
    (hc : (write p).1 = .ok cells) : Image p cells := by
  have hadr := write_addresses hc
  have hcell : ∀ c ∈ cells, ∃ b ∈ p.plan.allocator.allocations, ∃ i : Nat, (i : Int) < b.size ∧
      p.plan.allocator.owners[c.address]? = some ⟨b, i⟩ ∧ c.address = b.address.absolute + i ∧
      ∃ v, resolve p (b.address.absolute + i) ⟨b, i⟩ = .ok v ∧ c.value = Field.encode m v := by
    intro c hcm
    rw [write, writeRegions_eq] at hc
    obtain ⟨x, hx, hok⟩ := Sequences.mapM_mem hc hcm
    obtain ⟨b, hb, i, hi, rfl, ho⟩ := h.owner_of_address hx
    obtain ⟨v, hv, rfl⟩ := (h.cell_written (by omega) hb hi).1 hok
    exact ⟨b, hb, i, hi, ho, rfl, v, hv, rfl⟩
  refine ⟨?_, ?_, ?_, ?_, ?_⟩
  · rw [hadr]
    exact addresses_ascend h.sound.coherent h.sound.tiles
  · intro x
    rw [hadr]
    simp [List.mem_flatMap, mem_addresses, Region.mem_all]
  · rw [← length_addresses h.sound.coherent h.sound.tiles, ← hadr, List.length_map]
  · intro c hcm
    obtain ⟨b, -, i, -, -, -, v, -, hv⟩ := hcell c hcm
    rw [hv, h.modulus]
    exact Field.encode_bounds hm v
  · intro c hcm
    obtain ⟨b, hb, i, hi, ho, ha, v, hr, hv⟩ := hcell c hcm
    rcases h.resolve_cases hb hi with ⟨u, hu, hg⟩ | ⟨f, hf, -⟩
    · obtain rfl := Except.ok.inj (hr.symm.trans hu)
      exact ⟨⟨b, i⟩, v, ho, by rw [ha]; exact hg, by rw [hv, h.modulus]⟩
    · exact absurd (hr.symm.trans hf) (by simp)

theorem write_fault (h : Lowered g w lookupBits m p values) (hm : m ≠ 0) {f : Fault}
    (hf : (write p).1 = .error f) : Unreadable g f := by
  rw [write, writeRegions_eq] at hf
  obtain ⟨x, hx, hcell⟩ := Sequences.mapM_error hf
  obtain ⟨b, hb, i, hi, rfl, ho⟩ := h.owner_of_address hx
  unfold cell at hcell
  rw [ho] at hcell
  rcases h.resolve_cases hb hi with ⟨v, hv, -⟩ | ⟨e, he, hu⟩
  · simp [hv, Field.encode?, Field.nonzero, h.modulus, hm, Except.map] at hcell
  · simp only [he, Except.error.injEq] at hcell
    rwa [← hcell]

end Program.Lowered

/-- The memory table of a lowered program: there is one just when the tensors in use can be read,
and it is the image of the program. -/
theorem Program.write_image [Platform] {doc given : Json} {g : Circuit.Graph} {w : Witness}
    {name : String} {layout : Layout} {lookupBits : Json} {m : Int} {p : Program}
    (hg : Circuit.read doc = .ok g) (hw : Witness.read m g given = .ok w)
    (h : (lower name g w layout lookupBits m).1 = .ok p) (hm : 0 < m) :
    ((∃ cells, (MemoryTable.write p).1 = .ok cells) ↔ ∀ id ∈ g.required, ∀ t,
      g.tensor? id = some t → t.shape.length ≤ Platform.axisLimit ∨ Shape.volume t.shape = 0) ∧
    (∀ cells, (MemoryTable.write p).1 = .ok cells → MemoryTable.Image p cells) ∧
    (∀ f, (MemoryTable.write p).1 = .error f → MemoryTable.Unreadable g f) ∧
    ∀ r x, p.plan.allocator.layout.base r ≤ x →
      x < p.plan.allocator.layout.base r + p.plan.allocator.used r →
      ∃ o, p.plan.allocator.owners[x]? = some o := by
  obtain ⟨values, hl⟩ := lower_lowered hg hw h
  have hm' : m ≠ 0 := by omega
  refine ⟨hl.write_iff hm', fun _ => hl.image hm, fun _ => hl.write_fault hm', ?_⟩
  intro r x hx hx'
  have hmem : x ∈ Region.all.flatMap (MemoryTable.addresses p.plan.allocator) :=
    List.mem_flatMap.2 ⟨r, Region.mem_all r, MemoryTable.mem_addresses.2 ⟨hx, hx'⟩⟩
  obtain ⟨b, -, i, -, -, ho⟩ := hl.owner_of_address hmem
  exact ⟨_, ho⟩

theorem Program.sample_image :
    ∃ p cells,
      (lower "sample" Sample.graph Sample.witness default (.int 3) Field.defaultModulus).1
        = .ok p ∧
      (MemoryTable.write p).1 = .ok cells ∧ MemoryTable.Image p cells := by
  obtain ⟨p, h⟩ := Sample.lowers
  obtain ⟨hwrite, himage, -⟩ :=
    write_image Sample.read_circuit Sample.read_values h (by decide)
  obtain ⟨cells, hc⟩ := hwrite.2 (by rw [Sample.required]; decide)
  exact ⟨p, cells, h, hc, himage cells hc⟩

namespace ManyAxes

def graph : Circuit.Graph :=
  ⟨[⟨"x", List.replicate 33 1, 0, .priv⟩, ⟨"y", List.replicate 33 1, 0, .priv⟩],
    [⟨1, "identity", ["x"], "y", 0, []⟩], ["x"], ["y"]⟩

def circuit : Json := graph.document

def values : Json := .obj [("x", .arr [.int 5]), ("y", .arr [.int 5])]

def witness : Witness :=
  [("x", ⟨List.replicate 33 1, #[5]⟩), ("y", ⟨List.replicate 33 1, #[5]⟩)]

theorem read_circuit : Circuit.read circuit = .ok graph := by
  cbv

theorem read_values : Witness.read Field.defaultModulus graph values = .ok witness := by
  cbv

theorem lowers :
    ∃ p, (Program.lower "axes" graph witness default (.int 8) Field.defaultModulus).1 = .ok p :=
  Sample.exists_ok (by decide +kernel)

theorem required : graph.required = ["x", "y"] := by
  cbv

end ManyAxes

/-- A tensor with one element in 33 dimensions is lowered, but its element cannot be read. -/
theorem Program.many_axes_unwritten :
    ∃ p,
      Circuit.read ManyAxes.circuit = .ok ManyAxes.graph ∧
      Witness.read Field.defaultModulus ManyAxes.graph ManyAxes.values = .ok ManyAxes.witness ∧
      (lower "axes" ManyAxes.graph ManyAxes.witness default (.int 8) Field.defaultModulus).1
        = .ok p ∧
      (MemoryTable.write p).1 = .error (.tooManyAxes 32 33) := by
  obtain ⟨p, h⟩ := ManyAxes.lowers
  obtain ⟨values, hl⟩ := lower_lowered ManyAxes.read_circuit ManyAxes.read_values h
  refine ⟨p, ManyAxes.read_circuit, ManyAxes.read_values, h, ?_⟩
  cases hc : (MemoryTable.write p).1 with
  | ok cells =>
    have hax := (hl.write_iff (by decide)).1 ⟨cells, hc⟩
    rw [ManyAxes.required] at hax
    exact absurd hax (by decide)
  | error f =>
    obtain ⟨id, hid, t, ht, -, -, rfl⟩ := hl.write_fault (by decide) hc
    rw [ManyAxes.required] at hid
    have hlen : t.shape.length = 33 := by
      rcases List.mem_pair.1 hid with rfl | rfl <;> obtain rfl := Option.some.inj ht <;> rfl
    rw [hlen]
    rfl

end TensorAsm
