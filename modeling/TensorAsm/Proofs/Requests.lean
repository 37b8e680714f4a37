import TensorAsm.Proofs.Refinement
/-!
The requests of an emitter beside those of its outline. Operands come with the values that their
cells have, and new blocks leave the values of older ones alone.
-/

namespace TensorAsm

open Lowering Stateful
open Program (Values)

/-- A block or a table has been placed. -/
def Lowering.Event.Places : Event → Prop
  | .allocated _ | .folded _ => True
  | _ => False

theorem Program.Values.follow_places [Platform] (m : Int) (w : Witness) (v : Values)
    {evs : List Event} (h : ∀ ev ∈ evs, ev.Places) : ∃ u, v.follow m w evs = (u, evs, none) := by
  induction evs generalizing v with
  | nil => exact ⟨v, rfl⟩
  | cons ev evs ih =>
    obtain ⟨u, hu⟩ : ∃ u, v.advance m w ev = .ok u := by
      cases ev with
      | allocated b =>
        rw [advance]
        split <;> exact ⟨_, rfl⟩
      | folded t => exact ⟨v, rfl⟩
      | emitted | dropped | lowered => exact (h _ List.mem_cons_self).elim
    obtain ⟨u', hu'⟩ := ih u fun x hx => h x (List.mem_cons_of_mem _ hx)
    refine ⟨u', ?_⟩
    rw [follow, hu]
    simp [hu']

namespace Emitter

/-- The emitter has come as far as the outline, and the values so far are those of the witness and
those it has recorded. -/
structure Tracks [Platform] (s : Setting) (e : State) (d : Draft) (v : Values) : Prop where
  allocator : e.allocator = d.allocator
  tables : e.tables = d.tables
  blocks : e.blocks = d.blocks
  current : e.current.toList = d.current
  derived : e.derived = v.derived
  sound : Sound s.graph d.allocator d.tables
  control : ∃ b ∈ d.allocator.allocations, b.kind = .control ∧ s.zero ∈ b.cells
  zero : v.cell s.zero = 0
  tensor : ∀ b ∈ d.allocator.allocations, b.kind = .tensor → ∀ i : Nat, (i : Int) < b.size →
    v.cell (b.address.absolute + i) = s.witness.value b.name i

/-- There may be more blocks, but those from before hold what they held. -/
structure Later (d : Draft) (v : Values) (d' : Draft) (v' : Values) : Prop where
  allocations : d.allocator.allocations ⊆ d'.allocator.allocations
  cells : ∀ b ∈ d.allocator.allocations, ∀ c ∈ b.cells, v'.cell c = v.cell c

namespace Later

variable {d d' d'' : Draft} {v v' v'' : Values}

theorem refl : Later d v d v := ⟨fun _ h => h, fun _ _ _ _ => rfl⟩

theorem trans (h : Later d v d' v') (k : Later d' v' d'' v'') : Later d v d'' v'' :=
  ⟨fun _ hb => k.allocations (h.allocations hb),
    fun b hb c hc => (k.cells b (h.allocations hb) c hc).trans (h.cells b hb c hc)⟩

end Later

/-- An operand and its values, which stand in the cells of a block. -/
structure Carries (d : Draft) (v : Values) (a : Operand) (x : Lowering.Operand) : Prop where
  operand : a.toOperand = x
  block : ∃ b ∈ d.allocator.allocations, b.address.absolute = x.base ∧
    b.size = Shape.volume x.shape
  measured : x.tensor.size? = .ok (Shape.volume x.shape : Int)
  shape : a.values.shape = x.shape
  value : ∀ i < Shape.volume x.shape, a.values.values[i]? = some (v.cell (x.cell i))
  size : a.values.values.size = Shape.volume x.shape

namespace Carries

variable {d d' : Draft} {v v' : Values} {a : Operand} {x : Lowering.Operand}

theorem cell_mem (h : Carries d v a x) {i : Nat} (hi : i < Shape.volume x.shape) :
    ∃ b ∈ d.allocator.allocations, x.cell i ∈ b.cells := by
  obtain ⟨b, hb, hbase, hsize⟩ := h.block
  refine ⟨b, hb, ?_⟩
  rw [Lowering.Operand.cell, ← hbase]
  exact Allocation.cell_mem (by omega)

theorem later (h : Carries d v a x) (hl : Later d v d' v') : Carries d' v' a x := by
  refine { h with block := ?_, value := ?_ }
  · obtain ⟨b, hb, hrest⟩ := h.block
    exact ⟨b, hl.allocations hb, hrest⟩
  · intro i hi
    obtain ⟨b, hb, hc⟩ := h.cell_mem hi
    rw [h.value i hi, hl.cells b hb _ hc]

theorem value_eq [Platform] (h : Carries d v a x) (ha : x.shape.length ≤ Platform.axisLimit)
    {i : Nat} (hi : i < Shape.volume x.shape) : a.value? i = .ok (v.cell (x.cell i)) := by
  rw [Operand.value?, Witness.Entry.get?, h.value i hi, h.shape]
  simp [ha]

theorem value_error [Platform] (h : Carries d v a x) (ha : Platform.axisLimit < x.shape.length)
    {i : Nat} (hi : i < Shape.volume x.shape) :
    a.value? i = .error (.tooManyAxes Platform.axisLimit x.shape.length) := by
  rw [Operand.value?, Witness.Entry.get?, h.value i hi, h.shape]
  simp [Nat.not_le.2 ha]

end Carries

variable {s : Setting} {e e' : State} {d d' : Draft} {v : Values}

/-- New blocks and tables: the values of the witness stand in the blocks of tensors. -/
theorem Tracks.quiet [Platform] (ht : Tracks s e d v) (hw : s.witness.Complete s.modulus s.graph)
    {evs : List Event} (h : Writes s.graph d evs d') (hs : stepsOf evs = []) :
    ∃ v', Values.follow s.modulus s.witness v evs = (v', evs, none) ∧ Later d v d' v' ∧
      ∀ log, Tracks s { e with allocator := d'.allocator, tables := d'.tables, log := log }
        d' v' := by
  have hsound := h.sound ht.sound
  have hn := hsound.tiles.cells_nodup
  rw [h.allocations] at hn
  have hfill : ∀ b ∈ blocksOf evs, b.kind = .tensor → ∃ values,
      s.witness.values? b.name = some values ∧ (values.size : Int) = b.size := by
    intro b hb hk
    obtain ⟨hreq, t, htensor, hsize, -⟩ := hsound.tensor b (by simp [h.allocations, hb]) hk
    obtain ⟨t', entry, ht', hentry, hfills⟩ := hw _ hreq
    obtain rfl := Option.some.inj (ht'.symm.trans htensor)
    exact ⟨entry.values, by simp [Witness.values?, hentry], by rw [hfills.size, hsize]⟩
  obtain ⟨v', hf, hder, hold, hnew⟩ := Values.follow_quiet (m := s.modulus) h.kept hs hn hfill v
  have hsub : d.allocator.allocations ⊆ d'.allocator.allocations := by
    rw [h.allocations]
    exact List.subset_append_left _ _
  obtain ⟨zb, hzb, hzk, hz⟩ := ht.control
  refine ⟨v', hf, ⟨hsub, hold⟩, fun log => ⟨rfl, rfl, ?_, ?_, ht.derived.trans hder.symm, hsound,
    ⟨zb, hsub hzb, hzk, hz⟩, (hold zb hzb _ hz).trans ht.zero, ?_⟩⟩
  · rw [h.blocks, h.unclosed, List.append_nil]
    exact ht.blocks
  · rw [h.current, hs, List.append_nil]
    exact ht.current
  · intro b hb hk i hi
    rw [h.allocations] at hb
    rcases List.mem_append.1 hb with hb | hb
    · rw [hold b hb _ (Allocation.cell_mem hi)]
      exact ht.tensor b hb hk i hi
    · exact hnew b hb hk i hi

/-- A request with the same result on both sides. -/
structure Steady [Platform] {α : Type} (s : Setting) (d : Draft) (v : Values) (y : Emit α) (a b : α)
    (e' : State) (d' : Draft) (v' : Values) : Prop where
  eq : a = b
  yields : y.Yields d b d'
  tracks : Tracks s e' d' v'
  later : Later d v d' v'

section

variable {α β : Type} {x : Emitter α} {y : Emit α} {k : α → Emitter β} {l : α → Emit β}

/-- Both place the same and come to the same. -/
def Mirrors (x : Emitter α) (y : Emit α) (e : State) (d : Draft) : Prop :=
  ∃ evs, (∀ ev ∈ evs, ev.Places) ∧ (Id.run (y.run d)).2.journal = d.journal ++ evs ∧
    Id.run (x.run e) = ((Id.run (y.run d)).1, { e with
      allocator := (Id.run (y.run d)).2.allocator
      tables := (Id.run (y.run d)).2.tables
      log := e.log ++ evs.filterMap Event.entry? })

theorem Mirrors.bind (h : Mirrors x y e d)
    (hk : ∀ a e' d', e'.allocator = d'.allocator → e'.tables = d'.tables →
      Mirrors (k a) (l a) e' d') : Mirrors (x >>= k) (y >>= l) e d := by
  obtain ⟨evs, hp, hj, hx⟩ := h
  unfold Mirrors
  rw [run_bind, run_bind, hx]
  rcases hr : Id.run (y.run d) with ⟨f | a, d'⟩
  · rw [hr] at hj
    exact ⟨evs, hp, hj, rfl⟩
  · rw [hr] at hj
    obtain ⟨more, hp', hj', hx'⟩ := hk a { e with
      allocator := d'.allocator, tables := d'.tables
      log := e.log ++ evs.filterMap Event.entry? } d' rfl rfl
    refine ⟨evs ++ more, fun ev hev => (List.mem_append.1 hev).elim (hp ev) (hp' ev), ?_, ?_⟩
    · rw [hj', hj, List.append_assoc]
    · dsimp only
      rw [hx', List.filterMap_append, List.append_assoc]

theorem Neutral.mirrors (h : Neutral x y) (ha : e.allocator = d.allocator)
    (ht : e.tables = d.tables) : Mirrors x y e d := by
  obtain ⟨r, hx, hy⟩ := h
  refine ⟨[], by simp, by rw [hy, List.append_nil], ?_⟩
  rw [hx, hy, ← ha, ← ht]
  simp

theorem mirrors_request (ask : Allocator → Allocator.Reply) (ha : e.allocator = d.allocator)
    (ht : e.tables = d.tables) : Mirrors (request ask) (Emit.request ask) e d := by
  refine ⟨((ask d.allocator).2.allocations.drop d.allocator.allocations.length).map .allocated,
    ?_, ?_, ?_⟩
  · intro ev hev
    obtain ⟨b, -, rfl⟩ := List.mem_map.1 hev
    trivial
  · rw [Emit.run_request]
  · have hget : Id.run ((get : Emitter State).run e) = (.ok e, e) := rfl
    have hlog (bs : List Allocation) :
        (bs.map Event.allocated).filterMap Event.entry? = bs.map allocatedEntry := by
      rw [List.filterMap_map]
      exact congrFun List.filterMap_eq_map bs
    rw [Emit.run_request, request, run_bind, hget, hlog, ← ha, ← ht]
    rcases hr : ask e.allocator with ⟨_ | address, a⟩ <;> simp only [hr] <;> rfl

theorem Mirrors.refines [Platform] (h : Mirrors x y e d) (ht : Tracks s e d v)
    (hw : s.witness.Complete s.modulus s.graph)
    (hy : ∀ a d', y.Yields d a d' → ∃ evs, Writes s.graph d evs d' ∧ stepsOf evs = []) :
    Refines s e d v x y (Steady s d v y) true := by
  obtain ⟨evs, hp, hj, hx⟩ := h
  rcases hr : Id.run (y.run d) with ⟨f | a, d'⟩
  · rw [hr] at hj hx
    obtain ⟨u, hu⟩ := Values.follow_places s.modulus s.witness v hp
    exact .fails hr hj hu hx rfl
  · rw [hr] at hj hx
    obtain ⟨evs', h, hs⟩ := hy a d' hr
    obtain rfl : evs' = evs := List.append_cancel_left (h.journal.symm.trans hj)
    obtain ⟨v', hf, hl, htracks⟩ := ht.quiet hw h hs
    exact .goes hr hj hf hx rfl ⟨rfl, hr, htracks _, hl⟩

theorem mirrors_table [Platform] (spec : Table.Spec) (ha : e.allocator = d.allocator)
    (ht : e.tables = d.tables) : Mirrors (table spec) (Emit.table spec) e d := by
  have hget : Id.run ((get : Emitter State).run e) = (.ok e, e) := rfl
  have hget' : Id.run ((get : Emit Draft).run d) = (.ok d, d) := rfl
  unfold Mirrors table Emit.table
  rw [run_bind, run_bind, hget, hget']
  dsimp only
  rw [ht]
  cases d.tables.find? (·.spec.same spec) with
  | some t => exact (Neutral.pure t).mirrors ha ht
  | none =>
    refine ((Neutral.ofExcept (Table.fold spec)).mirrors ha ht).bind fun rows e d ha ht => ?_
    refine (mirrors_request _ ha ht).bind fun address e d ha ht => ?_
    obtain ⟨allocator, tables, blocks, current, journal⟩ := d
    obtain rfl : e.allocator = allocator := ha
    obtain rfl : e.tables = tables := ht
    unfold Mirrors checkWritten
    cases spec.numbers.all Numeral.isWritable with
    | true =>
      exact ⟨[.folded ⟨spec, address, rows.toArray⟩], by simp [Event.Places], rfl, rfl⟩
    | false =>
      refine ⟨[], by simp, (List.append_nil _).symm, ?_⟩
      rw [List.filterMap_nil, List.append_nil]
      rfl

end

/-- A block for derived values that was not there before. -/
def Opened (d d' : Draft) (base size : Int) : Prop :=
  ∃ b ∈ d'.allocator.allocations, b.kind = .scratch ∧ b.address.absolute = base ∧ b.size = size ∧
    ∀ b' ∈ d.allocator.allocations, ∀ c ∈ b'.cells, c ∉ b.cells

namespace Opened

variable {base size c : Int} {d₁ d₂ : Draft}

theorem mono (h : Opened d d' base size)
    (h₁ : d₁.allocator.allocations ⊆ d.allocator.allocations)
    (h₂ : d'.allocator.allocations ⊆ d₂.allocator.allocations) : Opened d₁ d₂ base size := by
  obtain ⟨b, hb, hk, hbase, hsize, hnew⟩ := h
  exact ⟨b, h₂ hb, hk, hbase, hsize, fun b' hb' => hnew b' (h₁ hb')⟩

theorem mem (h : Opened d d' base size) (hl : base ≤ c) (hu : c < base + size) :
    ∃ b ∈ d'.allocator.allocations, b.kind = .scratch ∧ c ∈ b.cells ∧
      ∀ b' ∈ d.allocator.allocations, c ∉ b'.cells := by
  obtain ⟨b, hb, hk, rfl, rfl, hnew⟩ := h
  have hc := Allocation.mem_cells.2 ⟨hl, hu⟩
  exact ⟨b, hb, hk, hc, fun b' hb' hc' => hnew b' hb' c hc' hc⟩

end Opened

section

variable [Platform] (ht : Tracks s e d v) (hw : s.witness.Complete s.modulus s.graph)
include ht hw

theorem tensor_refines {id : String} (hid : id ∈ s.graph.required) {t : Circuit.Tensor}
    (htensor : s.graph.tensor? id = some t) :
    Refines s e d v (tensor t) (Emit.tensor t) (Steady s d v (Emit.tensor t)) true := by
  refine (mirrors_request _ ht.allocator ht.tables).refines ht hw fun address d' h => ?_
  obtain ⟨evs, -, h, hp, -⟩ := tensor_writes hw.measured hid htensor h
  exact ⟨evs, h, hp.steps⟩

theorem operand_refines {id : String} (hid : id ∈ s.graph.required) :
    Refines s e d v (operand s id) (s.toSetting.operand id) (fun a x e' d' v' =>
      (s.toSetting.operand id).Yields d x d' ∧ Carries d' v' a x ∧ Tracks s e' d' v' ∧
        Later d v d' v') true := by
  refine (Neutral.tensor s.toSetting id).refines_bind fun t hyt => ?_
  have htensor := (yields_tensor.1 hyt).1
  refine (tensor_refines ht hw hid htensor).bind ?_
  rintro address _ e' d' v' ⟨rfl, hy, ht', hl⟩
  obtain ⟨t', entry, ht'', hentry, hfills⟩ := hw id hid
  obtain rfl := Option.some.inj (ht''.symm.trans htensor)
  rw [hentry]
  refine .pure ⟨?_, ⟨rfl, ?_, hfills.word, hfills.shape, ?_, hfills.size⟩, ht', hl⟩
  · simp only [Setting.operand, yields_bind, yields_pure]
    exact ⟨_, _, hyt, _, _, hy, rfl, rfl⟩
  all_goals
    obtain ⟨evs, b, -, -, hb, rfl⟩ := tensor_writes hw.measured hid htensor hy
    obtain ⟨hm, hk, hn⟩ := ht'.sound.coherent.bound_mem hb
    obtain ⟨-, u, hu, hsize, -⟩ := ht'.sound.tensor b hm hk
    obtain rfl := Option.some.inj ((hn ▸ hu).symm.trans htensor)
  · exact ⟨b, hm, rfl, hsize⟩
  · intro i hi
    have hi' : i < Shape.volume u.shape := hi
    rw [Lowering.Operand.cell, ht'.tensor b hm hk i (by omega), hn, Witness.value, Witness.values?,
      hentry]
    simp [hfills.size ▸ hi']

theorem output_refines {o : Circuit.Operation} (ho : o ∈ s.graph.operations) :
    Refines s e d v (output s o) (s.toSetting.output o) (Steady s d v (s.toSetting.output o))
      true := by
  refine (Neutral.tensor s.toSetting o.output).refines_bind fun t hyt => ?_
  have htensor := (yields_tensor.1 hyt).1
  refine (tensor_refines ht hw (Circuit.Graph.output_required ho) htensor).bind ?_
  rintro address _ e' d' v' ⟨rfl, hy, ht', hl⟩
  refine .pure ⟨rfl, ?_, ht', hl⟩
  simp only [Setting.output, yields_bind, yields_pure]
  exact ⟨_, _, hyt, _, _, hy, rfl, rfl⟩

theorem scratch_refines {o : Circuit.Operation} {purpose : String} {size : Int} (hs : 0 ≤ size) :
    Refines s e d v (scratch o purpose size) (Emit.scratch o purpose size)
      (fun a b e' d' v' => a = b ∧ Numeral.isWritable o.id = true ∧ Opened d d' b size ∧
        Tracks s e' d' v' ∧ Later d v d' v') true := by
  refine (Neutral.checkWritten [o.id]).refines_bind fun _ hwritten => ?_
  have hyields {address : Address} {d' : Draft}
      (h : (Emit.request (·.scratch ("n" ++ Numeral.write o.id ++ "." ++ purpose) size .intermediate
        .scratch)).Yields d address d') :
      (Emit.scratch o purpose size).Yields d address.absolute d' := by
    simp only [Emit.scratch, yields_bind, yields_pure]
    exact ⟨_, _, hwritten, _, _, h, rfl, rfl⟩
  refine ((mirrors_request _ ht.allocator ht.tables).refines ht hw fun address d' h => ?_).bind ?_
  · obtain ⟨b, -, -, h⟩ := scratch_writes (g := s.graph) hs (hyields h)
    exact ⟨_, h, rfl⟩
  rintro address _ e' d' v' ⟨rfl, hy, ht', hl⟩
  obtain ⟨b, hown, hbase, h⟩ := scratch_writes (g := s.graph) hs (hyields hy)
  have hmem : b ∈ d'.allocator.allocations := by simp [h.allocations]
  have hid : Numeral.isWritable o.id = true := by simpa using (yields_checkWritten.1 hwritten).1
  refine .pure ⟨rfl, hid, ⟨b, hmem, hown.kind, hbase, hown.size, ?_⟩, ht', hl⟩
  intro b' hb' c hc hcb
  have hn := ht'.sound.tiles.cells_nodup
  rw [h.allocations, List.flatMap_append] at hn
  exact (List.nodup_append.1 hn).2.2 c (List.mem_flatMap.2 ⟨b', hb', hc⟩) c (by simpa using hcb) rfl

theorem table_refines (spec : Table.Spec) :
    Refines s e d v (table spec) (Emit.table spec) (Steady s d v (Emit.table spec)) true := by
  refine (mirrors_table spec ht.allocator ht.tables).refines ht hw fun t d' h => ?_
  obtain ⟨-, -, evs, h, hs, -⟩ := table_writes ht.sound h
  exact ⟨evs, h, hs⟩

end

end Emitter

end TensorAsm
