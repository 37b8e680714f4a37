import TensorAsm.MemoryTable
import TensorAsm.Proofs.Derivation
/-!
What a memory table holds: the encoded values of the witness, of the derivation and of the rows of
tables. There is a table unless a tensor that has elements has too many dimensions.
-/

namespace TensorAsm.MemoryTable

variable {p : Program} {owners : Std.TreeMap Int Allocator.Owner}

theorem writeRegions_eq [Platform] (rs : List Region) :
    (writeRegions p owners rs).1 =
      (rs.flatMap (addresses p.plan.allocator)).mapM (cell p owners) := by
  induction rs with
  | nil => rfl
  | cons r rs ih =>
    rw [List.flatMap_cons, List.mapM_append, ← ih, writeRegions]
    cases (addresses p.plan.allocator r).mapM (cell p owners) with
    | error f => rfl
    | ok cells =>
      rcases writeRegions p owners rs with ⟨more, log⟩
      cases more <;> rfl

theorem mem_addresses {a : Allocator} {r : Region} {x : Int} :
    x ∈ addresses a r ↔ a.layout.base r ≤ x ∧ x < a.layout.base r + a.used r := by
  simp only [addresses, List.mem_map, List.mem_range]
  constructor
  · rintro ⟨i, hi, rfl⟩
    omega
  · intro h
    exact ⟨(x - a.layout.base r).toNat, by omega, by omega⟩

theorem addresses_nodup {a : Allocator} (hc : a.Coherent) (h : Tiles a.layout a.allocations) :
    (Region.all.flatMap (addresses a)).Nodup := by
  rw [List.nodup_flatMap]
  refine ⟨fun r _ => List.nodup_range.map fun i j h => by simpa [Int.natCast_inj] using h, ?_⟩
  have hr : Region.all.Nodup := by decide
  refine hr.imp fun {r q} hne x hx hy => ?_
  have hx := mem_addresses.1 hx
  have hy := mem_addresses.1 hy
  have hu := h.taken_bounds r
  have hv := h.taken_bounds q
  rw [hc.used_eq] at hx hy
  have := a.layout.region_apart hne
  omega

theorem mem_all_addresses {a : Allocator} (hc : a.Coherent) (h : Tiles a.layout a.allocations)
    {x : Int} :
    x ∈ Region.all.flatMap (addresses a) ↔ ∃ b ∈ a.allocations, x ∈ b.cells := by
  simp only [List.mem_flatMap, mem_addresses, Region.mem_all, true_and, hc.used_eq]
  constructor
  · rintro ⟨r, hl, hu⟩
    obtain ⟨b, hb, -, hx⟩ := h.covered hl hu
    exact ⟨b, hb, hx⟩
  · rintro ⟨b, hb, hx⟩
    exact ⟨b.address.region, h.cell_bounds hb hx⟩

theorem cell_ok [Platform] {x : Int} {owner : Allocator.Owner} (ho : owners[x]? = some owner)
    (hm : p.modulus ≠ 0) {c : Cell} :
    cell p owners x = .ok c ↔
      ∃ v, resolve p x owner = .ok v ∧ c = ⟨x, Field.encode p.modulus v⟩ := by
  unfold cell
  rw [ho]
  cases hr : resolve p x owner with
  | error f => simp [hr]
  | ok v => simp [hr, Field.encode?, Field.nonzero, hm, Except.map, eq_comm]

theorem cell_eq [Platform] {x : Int} {c : Cell} (h : cell p owners x = .ok c) :
    ∃ v, c = ⟨x, Field.encode p.modulus v⟩ := by
  unfold cell at h
  dsimp only at h
  split at h
  · exact absurd h (by simp)
  · next v _ =>
      unfold Field.encode? Field.nonzero at h
      split at h
      · simp [Except.map] at h
      · exact ⟨v, (Except.ok.inj h).symm⟩

theorem write_addresses [Platform] {cells : List Cell} (h : (write p).1 = .ok cells) :
    cells.map (·.address) = Region.all.flatMap (addresses p.plan.allocator) := by
  rw [write, writeRegions_eq] at h
  refine Sequences.mapM_map h fun x c hx => ?_
  obtain ⟨v, rfl⟩ := cell_eq hx
  rfl

theorem get_cellMap_of_notMem {rows : List (Int × Int)} {t : Std.TreeMap Int Int} {a : Int}
    (h : a ∉ rows.map Prod.fst) :
    (rows.foldl (fun m r => m.insert r.1 r.2) t)[a]? = t[a]? := by
  induction rows generalizing t with
  | nil => rfl
  | cons r rows ih =>
    simp only [List.map_cons, List.mem_cons, not_or] at h
    rw [List.foldl_cons, ih h.2, Std.TreeMap.getElem?_insert]
    simp only [compare_eq_iff_eq, if_neg (Ne.symm h.1)]

theorem get_cellMap {rows : List (Int × Int)} (hn : (rows.map Prod.fst).Nodup) {a v : Int}
    (h : (a, v) ∈ rows) : (cellMap rows)[a]? = some v := by
  obtain ⟨pre, post, rfl⟩ := List.append_of_mem h
  have hpost : a ∉ post.map Prod.fst := by
    rw [List.map_append, List.map_cons, List.nodup_append] at hn
    exact (List.nodup_cons.1 hn.2.1).1
  rw [cellMap, List.foldl_append, List.foldl_cons, get_cellMap_of_notMem hpost]
  simp

theorem mem_of_get_cellMap {rows : List (Int × Int)} (hn : (rows.map Prod.fst).Nodup) {a v : Int}
    (h : (cellMap rows)[a]? = some v) : (a, v) ∈ rows := by
  by_cases ha : a ∈ rows.map Prod.fst
  · obtain ⟨⟨a, u⟩, hm, rfl⟩ := List.mem_map.1 ha
    rw [get_cellMap hn hm] at h
    rwa [← Option.some.inj h]
  · rw [cellMap, get_cellMap_of_notMem ha] at h
    simp at h

def entries (cells : List Cell) : List (Int × Int) := cells.map fun c => (c.address, c.value)

/-- The cells of a table that lie in some of the regions. -/
def restrict (l : Layout) (rs : List Region) (cells : List Cell) : List Cell :=
  cells.filter fun c =>
    rs.any fun r => decide (l.base r ≤ c.address ∧ c.address < l.base r + l.size r)

/-- What is held of a plan in some regions, up to a modulus: the values of cells and the rows of
tables. -/
structure Contents (m : Int) (p : Lowering.Plan) (k : Int → Int) (rs : List Region)
    (rows : List (Int × Int)) : Prop where
  nodup : (rows.map Prod.fst).Nodup
  reduced : ∀ a v, (a, v) ∈ rows → Field.encode m v = v
  cell : ∀ b ∈ p.allocator.allocations, b.kind ≠ .table → b.address.region ∈ rs → ∀ c ∈ b.cells,
    (c, Field.encode m (k c)) ∈ rows
  table : .fixed ∈ rs → ∀ t ∈ p.tables, ∀ (i : Nat) (r : Table.Row), t.rows[i]? = some r →
    (t.address.absolute + 2 * (i : Int), Field.encode m r.x) ∈ rows ∧
      (t.address.absolute + 2 * (i : Int) + 1, Field.encode m r.y) ∈ rows

end TensorAsm.MemoryTable

namespace TensorAsm.Program.Lowered

open Lowering MemoryTable

variable [Platform] {g : Circuit.Graph} {w : Witness} {lookupBits : Json} {m : Int} {p : Program}
  {values : Values} {b : Allocation} {i : Nat}

theorem sound (h : Lowered g w lookupBits m p values) :
    Sound g p.plan.allocator p.plan.tables := by
  obtain ⟨layout, journal, zb, xs, outs, hp⟩ := h.planned
  exact hp.sound

theorem resolve_control (h : Lowered g w lookupBits m p values)
    (hb : b ∈ p.plan.allocator.allocations) (hk : b.kind = .control) (hi : (i : Int) < b.size) :
    resolve p (b.address.absolute + i) ⟨b, i⟩ = .ok (values.cell (b.address.absolute + i)) := by
  obtain ⟨layout, journal, zb, xs, outs, hp⟩ := h.planned
  have hz := hp.zero_mem.1
  obtain ⟨hn, hs, -⟩ := hp.sound.control b hb hk
  obtain rfl : b = zb := hp.sound.eq_of_name hz hb (.inr hp.kind) (hk.trans hp.kind.symm)
    (hn.trans (hp.sound.control zb hz hp.kind).1.symm)
  have hi0 : i = 0 := by omega
  subst hi0
  unfold resolve
  simp only [hk]
  rw [hp.zero, Int.natCast_zero, Int.add_zero, h.derivation.zero]

theorem cell_scratch (h : Lowered g w lookupBits m p values)
    (hb : b ∈ p.plan.allocator.allocations) (hk : b.kind = .scratch) (hi : (i : Int) < b.size) :
    Field.Fits m (values.cell (b.address.absolute + i)) ∧
      p.derived[b.address.absolute + i]? = some (values.cell (b.address.absolute + i)) := by
  obtain ⟨layout, journal, zb, xs, outs, hp⟩ := h.planned
  have hd : b.address.absolute + i ∈ dests true p.plan.steps := by
    rw [hp.derived_perm.mem_iff]
    exact List.mem_flatMap.2 ⟨b, mem_ofKind.2 ⟨hb, hk⟩, Allocation.cell_mem hi⟩
  obtain ⟨s, hs, hdest⟩ := List.mem_flatMap.1 hd
  obtain ⟨hs, hder⟩ := List.mem_filter.1 hs
  rw [h.derived]
  exact (h.derivation.derived s hs (by simpa using hder) _ (by simpa using hdest)).2

theorem resolve_scratch (h : Lowered g w lookupBits m p values)
    (hb : b ∈ p.plan.allocator.allocations) (hk : b.kind = .scratch) (hi : (i : Int) < b.size) :
    resolve p (b.address.absolute + i) ⟨b, i⟩ = .ok (values.cell (b.address.absolute + i)) := by
  unfold resolve
  simp only [hk, (h.cell_scratch hb hk hi).2]

theorem resolve_tensor (h : Lowered g w lookupBits m p values)
    (hb : b ∈ p.plan.allocator.allocations) (hk : b.kind = .tensor) (hi : (i : Int) < b.size)
    {t : Circuit.Tensor} (ht : g.tensor? b.name = some t) :
    resolve p (b.address.absolute + i) ⟨b, i⟩ =
      if t.shape.length ≤ Platform.axisLimit then .ok (values.cell (b.address.absolute + i))
      else .error (.tooManyAxes Platform.axisLimit t.shape.length) := by
  obtain ⟨hr, u, hu, hs, -⟩ := h.sound.tensor b hb hk
  obtain ⟨u', e, hu', he, hf⟩ := h.complete b.name hr
  obtain rfl : t = u := Option.some.inj (ht.symm.trans hu)
  obtain rfl : t = u' := Option.some.inj (ht.symm.trans hu')
  have hlt : i < e.values.size := by
    rw [hf.size]
    omega
  have hv : w.value b.name i = e.values[i] := by
    simp [Witness.value, Witness.values?, he, hlt]
  unfold resolve
  simp only [hk, h.witness, he, Witness.Entry.get?, hf.shape, Array.getElem?_eq_getElem hlt]
  rw [h.derivation.tensor b hb hk i hi, hv]
  by_cases hax : t.shape.length ≤ Platform.axisLimit <;> simp [hax]

theorem resolve_table (h : Lowered g w lookupBits m p values)
    (hb : b ∈ p.plan.allocator.allocations) (hk : b.kind = .table) (hi : (i : Int) < b.size) :
    ∃ t ∈ p.plan.tables, b.address = t.address ∧ ∃ r, t.rows[i / 2]? = some r ∧
      resolve p (b.address.absolute + i) ⟨b, i⟩ = .ok (rowValue r i) := by
  obtain ⟨-, t, ht, hadr⟩ := h.sound.folded b hb hk
  obtain ⟨-, b', hb', -, hadr', hsz⟩ := h.sound.table t ht
  have hcell : b.address.absolute ∈ b'.cells ∨ t.rows.size = 0 := by
    rw [Allocation.mem_cells, hadr', hadr, hsz]
    omega
  have hpos : 0 < t.rows.size := by simpa using Table.fold_pos (h.sound.table t ht).1
  obtain rfl := h.sound.tiles.owner_unique hb hb' (Allocation.mem_cells.2 (by omega))
    (hcell.resolve_right (by omega))
  have hlt : i / 2 < t.rows.size := by omega
  refine ⟨t, ht, hadr, t.rows[i / 2], by simp [hlt], ?_⟩
  unfold resolve
  simp only [hk]
  cases hf : p.plan.tables.reverse.find? (·.address.absolute == b.address.absolute) with
  | none =>
    have := List.find?_eq_none.1 hf t (by simpa using ht)
    simp [hadr] at this
  | some u =>
    have hm := List.mem_of_find?_eq_some hf
    have he := List.find?_some (p := fun u : FoldedTable =>
      u.address.absolute == b.address.absolute) hf
    obtain rfl := h.sound.single u (by simpa using hm) t ht (by simpa [hadr] using he)
    simp [hlt]

theorem cell_written (h : Lowered g w lookupBits m p values) (hm : m ≠ 0)
    (hb : b ∈ p.plan.allocator.allocations) (hi : (i : Int) < b.size) {c : Cell} :
    cell p p.plan.allocator.owners (b.address.absolute + i) = .ok c ↔
      ∃ v, resolve p (b.address.absolute + i) ⟨b, i⟩ = .ok v ∧
        c = ⟨b.address.absolute + i, Field.encode m v⟩ := by
  rw [cell_ok (Allocator.owner_eq h.sound.tiles hb hi) (by rwa [h.modulus]), h.modulus]

theorem resolve_isOk (h : Lowered g w lookupBits m p values)
    (hb : b ∈ p.plan.allocator.allocations) (hi : (i : Int) < b.size)
    (hax : b.kind = .tensor → ∀ t, g.tensor? b.name = some t →
      t.shape.length ≤ Platform.axisLimit) :
    ∃ v, resolve p (b.address.absolute + i) ⟨b, i⟩ = .ok v := by
  cases hk : b.kind with
  | control => exact ⟨_, h.resolve_control hb hk hi⟩
  | scratch => exact ⟨_, h.resolve_scratch hb hk hi⟩
  | table =>
    obtain ⟨t, -, -, r, -, hr⟩ := h.resolve_table hb hk hi
    exact ⟨_, hr⟩
  | tensor =>
    obtain ⟨-, t, ht, -⟩ := h.sound.tensor b hb hk
    exact ⟨_, by rw [h.resolve_tensor hb hk hi ht, if_pos (hax hk t ht)]⟩

theorem placed (h : Lowered g w lookupBits m p values) {id : String} (hid : id ∈ g.required) :
    ∃ b ∈ p.plan.allocator.allocations, b.kind = .tensor ∧ b.name = id := by
  obtain ⟨layout, journal, zb, xs, outs, hp⟩ := h.planned
  exact hp.placed h.wellFormed hid

theorem write_iff (h : Lowered g w lookupBits m p values) (hm : m ≠ 0) :
    (∃ cells, (write p).1 = .ok cells) ↔ ∀ id ∈ g.required, ∀ t, g.tensor? id = some t →
      t.shape.length ≤ Platform.axisLimit ∨ Shape.volume t.shape = 0 := by
  rw [write, writeRegions_eq]
  constructor
  · rintro ⟨cells, hc⟩ id hid t ht
    by_contra hne
    push Not at hne
    obtain ⟨b, hb, hk, rfl⟩ := h.placed hid
    obtain ⟨-, u, hu, hs, -⟩ := h.sound.tensor b hb hk
    obtain rfl : t = u := Option.some.inj (ht.symm.trans hu)
    have hi : ((0 : Nat) : Int) < b.size := by omega
    have hadr := (mem_all_addresses h.sound.coherent h.sound.tiles).2
      ⟨b, hb, Allocation.cell_mem hi⟩
    obtain ⟨c, -, hok⟩ := Sequences.mapM_of_mem hc hadr
    obtain ⟨v, hv, -⟩ := (h.cell_written hm hb hi).1 hok
    rw [h.resolve_tensor hb hk hi ht, if_neg (by omega)] at hv
    exact absurd hv (by simp)
  · intro hax
    apply Sequences.mapM_ok_of_forall
    intro x hx
    obtain ⟨b, hb, hxb⟩ := (mem_all_addresses h.sound.coherent h.sound.tiles).1 hx
    obtain ⟨i, hi, rfl⟩ := Allocation.exists_cell hxb
    obtain ⟨v, hv⟩ := h.resolve_isOk hb hi fun hk t ht => by
      obtain ⟨hr, u, hu, hs, -⟩ := h.sound.tensor b hb hk
      obtain rfl : t = u := Option.some.inj (ht.symm.trans hu)
      exact (hax b.name hr t ht).resolve_right (by omega)
    exact ⟨_, (h.cell_written hm hb hi).2 ⟨v, hv, rfl⟩⟩

theorem mem_entries (h : Lowered g w lookupBits m p values) (hm : m ≠ 0) {cells : List Cell}
    (hc : (write p).1 = .ok cells) (hb : b ∈ p.plan.allocator.allocations)
    (hi : (i : Int) < b.size) :
    ∃ v, resolve p (b.address.absolute + i) ⟨b, i⟩ = .ok v ∧
      (b.address.absolute + i, Field.encode m v) ∈ entries cells := by
  rw [write, writeRegions_eq] at hc
  have hadr := (mem_all_addresses h.sound.coherent h.sound.tiles).2 ⟨b, hb, Allocation.cell_mem hi⟩
  obtain ⟨c, hmem, hok⟩ := Sequences.mapM_of_mem hc hadr
  obtain ⟨v, hv, rfl⟩ := (h.cell_written hm hb hi).1 hok
  exact ⟨v, hv, List.mem_map.2 ⟨_, hmem, rfl⟩⟩

theorem entries_nodup (h : Lowered g w lookupBits m p values) {cells : List Cell}
    (hc : (write p).1 = .ok cells) : ((entries cells).map Prod.fst).Nodup := by
  have hk : (entries cells).map Prod.fst = cells.map (·.address) := List.map_map
  rw [hk, write_addresses hc]
  exact addresses_nodup h.sound.coherent h.sound.tiles

theorem entries_reduced (h : Lowered g w lookupBits m p values) {cells : List Cell}
    (hc : (write p).1 = .ok cells) {a v : Int} (hav : (a, v) ∈ entries cells) :
    Field.encode m v = v := by
  rw [write, writeRegions_eq] at hc
  obtain ⟨c, hcm, he⟩ := List.mem_map.1 hav
  obtain ⟨x, -, hx⟩ := Sequences.mapM_mem hc hcm
  obtain ⟨u, rfl⟩ := cell_eq hx
  obtain ⟨rfl, rfl⟩ := Prod.mk.inj he
  rw [h.modulus]
  exact (Semantics.field m).wrap_wrap u

theorem cell_mem_entries (h : Lowered g w lookupBits m p values) (hm : m ≠ 0) {cells : List Cell}
    (hc : (write p).1 = .ok cells) (hb : b ∈ p.plan.allocator.allocations) (hk : b.kind ≠ .table)
    {c : Int} (hcb : c ∈ b.cells) : (c, Field.encode m (values.cell c)) ∈ entries cells := by
  obtain ⟨i, hi, rfl⟩ := Allocation.exists_cell hcb
  obtain ⟨v, hv, hmem⟩ := h.mem_entries hm hc hb hi
  have hval : v = values.cell (b.address.absolute + i) := by
    cases hkind : b.kind with
    | table => exact absurd hkind hk
    | control => exact Except.ok.inj (hv.symm.trans (h.resolve_control hb hkind hi))
    | scratch => exact Except.ok.inj (hv.symm.trans (h.resolve_scratch hb hkind hi))
    | tensor =>
      obtain ⟨-, t, ht, -⟩ := h.sound.tensor b hb hkind
      rw [h.resolve_tensor hb hkind hi ht] at hv
      split at hv
      · exact (Except.ok.inj hv).symm
      · exact absurd hv (by simp)
  rwa [hval] at hmem

theorem row_mem_entries (h : Lowered g w lookupBits m p values) (hm : m ≠ 0) {cells : List Cell}
    (hc : (write p).1 = .ok cells) {t : FoldedTable} (ht : t ∈ p.plan.tables) {r : Table.Row}
    (hr : t.rows[i]? = some r) :
    (t.address.absolute + 2 * (i : Int), Field.encode m r.x) ∈ entries cells ∧
      (t.address.absolute + 2 * (i : Int) + 1, Field.encode m r.y) ∈ entries cells := by
  obtain ⟨-, b, hb, hk, hadr, hsz⟩ := h.sound.table t ht
  have hi : i < t.rows.size := (Array.getElem?_eq_some_iff.1 hr).1
  have hrow : ∀ j : Nat, j / 2 = i →
      (t.address.absolute + j, Field.encode m (rowValue r j)) ∈ entries cells := by
    intro j hj
    have hlt : (j : Int) < b.size := by omega
    obtain ⟨v, hv, hmem⟩ := h.mem_entries hm hc hb hlt
    obtain ⟨u, hu, hadr', r', hr', hv'⟩ := h.resolve_table hb hk hlt
    obtain rfl := h.sound.single u hu t ht (by rw [← hadr', hadr])
    rw [hj, hr] at hr'
    obtain rfl := Option.some.inj hr'
    obtain rfl := Except.ok.inj (hv.symm.trans hv')
    rwa [hadr] at hmem
  have hx := hrow (2 * i) (by omega)
  have hy := hrow (2 * i + 1) (by omega)
  simp only [rowValue, Nat.mul_mod_right, if_true, Nat.mul_add_mod_self_left, Nat.one_mod,
    Nat.one_ne_zero, if_false] at hx hy
  push_cast at hx hy
  exact ⟨hx, by rwa [Int.add_assoc]⟩

theorem mem_restrict (h : Lowered g w lookupBits m p values) {rs : List Region} {cells : List Cell}
    (hb : b ∈ p.plan.allocator.allocations) (hr : b.address.region ∈ rs) {a v : Int}
    (ha : a ∈ b.cells) (hm : (a, v) ∈ entries cells) :
    (a, v) ∈ entries (restrict p.plan.allocator.layout rs cells) := by
  obtain ⟨c, hc, he⟩ := List.mem_map.1 hm
  obtain ⟨rfl, rfl⟩ := Prod.mk.inj he
  have hin := h.sound.tiles.cell_bounds hb ha
  have htake := h.sound.tiles.taken_bounds b.address.region
  refine List.mem_map.2 ⟨c, List.mem_filter.2 ⟨hc, ?_⟩, rfl⟩
  rw [List.any_eq_true]
  exact ⟨_, hr, decide_eq_true (by omega)⟩

theorem contents (h : Lowered g w lookupBits m p values) (hm : m ≠ 0) {cells : List Cell}
    (hc : (write p).1 = .ok cells) : Contents m p.plan values.cell Region.all (entries cells) where
  nodup := h.entries_nodup hc
  reduced := fun _ _ => h.entries_reduced hc
  cell := fun _ hb hk _ _ => h.cell_mem_entries hm hc hb hk
  table := fun _ _ ht _ _ => h.row_mem_entries hm hc ht

theorem contents_restrict (h : Lowered g w lookupBits m p values) (hm : m ≠ 0) {cells : List Cell}
    (hc : (write p).1 = .ok cells) (rs : List Region) :
    Contents m p.plan values.cell rs (entries (restrict p.plan.allocator.layout rs cells)) where
  nodup := (h.entries_nodup hc).sublist ((List.filter_sublist.map _).map _)
  reduced := fun _ _ hav => h.entries_reduced hc ((List.filter_sublist.map _).subset hav)
  cell := fun _ hb hk hr _ hcb => h.mem_restrict hb hr hcb (h.cell_mem_entries hm hc hb hk hcb)
  table := by
    intro hrs t ht i r hi
    obtain ⟨-, b, hb, hk, hadr, hsz⟩ := h.sound.table t ht
    have hlt : i < t.rows.size := (Array.getElem?_eq_some_iff.1 hi).1
    have hr := (h.sound.folded b hb hk).1
    obtain ⟨hx, hy⟩ := h.row_mem_entries hm hc ht hi
    refine ⟨h.mem_restrict hb (hr ▸ hrs) ?_ hx, h.mem_restrict hb (hr ▸ hrs) ?_ hy⟩
    · rw [Allocation.mem_cells, hadr, hsz]
      omega
    · rw [Allocation.mem_cells, hadr, hsz]
      omega

end TensorAsm.Program.Lowered
