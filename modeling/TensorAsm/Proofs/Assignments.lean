import TensorAsm.Proofs.Scopes
/-!
Plans assign every cell once, and before its use. What is written are the scratch blocks and the
tensors that operations produce.
-/

namespace TensorAsm.Lowering

/-- The cells that instructions write, in order. -/
def targets (is : List Instruction) : List Int := is.filterMap Instruction.dest?

@[inherit_doc targets]
def writes (ss : List Step) : List Int := ss.filterMap (·.instruction.dest?)

theorem targets_map (ss : List Step) : targets (ss.map (·.instruction)) = writes ss := by
  rw [targets, List.filterMap_map]
  rfl

@[simp] theorem writes_append (xs ys : List Step) : writes (xs ++ ys) = writes xs ++ writes ys :=
  List.filterMap_append

theorem writes_flatMap {α : Type} (l : List α) (e : α → List Step) :
    writes (l.flatMap e) = l.flatMap fun a => writes (e a) := by
  induction l with
  | nil => rfl
  | cons a l ih => rw [List.flatMap_cons, writes_append, ih, List.flatMap_cons]

theorem writes_perm (ss : List Step) : (writes ss).Perm (dests true ss ++ dests false ss) := by
  induction ss with
  | nil => exact .refl _
  | cons s ss ih =>
    have hc : writes (s :: ss) = s.instruction.dest?.toList ++ writes ss := by
      unfold writes
      cases h : s.instruction.dest? <;> simp [h]
    rw [hc, dests_cons, dests_cons]
    cases s.derived with
    | true =>
      simp only [if_true, Bool.true_eq_false, if_false, List.nil_append, List.append_assoc]
      exact ih.append_left _
    | false =>
      simp only [if_true, Bool.false_eq_true, if_false, List.nil_append]
      refine (ih.append_left _).trans ?_
      rw [← List.append_assoc, ← List.append_assoc]
      exact List.perm_append_comm.append_right _

theorem mem_writes {ss : List Step} {c : Int} :
    c ∈ writes ss ↔ c ∈ dests true ss ∨ c ∈ dests false ss := by
  rw [(writes_perm ss).mem_iff, List.mem_append]

theorem Scoped.split {ok : Int → Prop} {ss pre post : List Step} {s : Step} (h : Scoped ok ss)
    (hs : ss = pre ++ s :: post) :
    ∀ c ∈ s.instruction.sources, ok c ∨ c ∈ dests true pre := by
  rw [hs] at h
  exact (append_iff.1 h).2.1

theorem Placed.block [Platform] {g : Circuit.Graph} {a : Allocator} {ts : List FoldedTable}
    (hs : Sound g a ts) {id : String} {x : Operand} (h : Placed g a id x) :
    ∃ b, a.bound? .tensor id = some b ∧ b.address.absolute = x.base ∧
      b.cells = elementCells x.shape x.base := by
  obtain ⟨b, hb, hx⟩ := h.base
  obtain ⟨hm, hk, rfl⟩ := hs.coherent.bound_mem hb
  obtain ⟨-, t, ht, hsz, -⟩ := hs.tensor b hm hk
  obtain rfl : x.tensor = t := Option.some.inj (h.tensor.symm.trans ht)
  refine ⟨b, hb, hx, ?_⟩
  rw [Allocation.cells, hsz, Int.toNat_natCast, hx]
  rfl

theorem mem_elementCells {shape : List Nat} {base c : Int} :
    c ∈ elementCells shape base ↔ ∃ i < Shape.volume shape, c = base + i := by
  simp [elementCells, eq_comm]

namespace Planned

variable [Platform] {g : Circuit.Graph} {layout : Layout} {lookupBits : Json} {p : Plan}
  {journal : List Event} {zb : Allocation} {xs : List Entry} {outs : List Event}

theorem steps_eq (h : Planned g layout lookupBits p journal zb xs outs) :
    p.steps = xs.flatMap Entry.steps := by
  rw [Plan.steps, h.blocks, List.flatMap_map]
  rfl

theorem valid (h : Planned g layout lookupBits p journal zb xs outs) {x : Entry} (hx : x ∈ xs) :
    ∃ before, x.Valid g lookupBits p.zero p.allocator p.tables before := by
  obtain ⟨pre, post, hs⟩ := List.append_of_mem hx
  exact ⟨_, h.entry pre x post hs⟩

theorem scratch_eq (h : Planned g layout lookupBits p journal zb xs outs) :
    ofKind .scratch p.allocator.allocations = xs.flatMap Entry.scratch := by
  have hx : ∀ ys : List Entry, (∀ x ∈ ys, Placements x.ins) →
      ofKind .scratch (blocksOf (eventsOf ys)) = ys.flatMap Entry.scratch := by
    intro ys hys
    induction ys with
    | nil => rfl
    | cons x ys ih =>
      rw [eventsOf_cons, blocksOf_append, ofKind_append, ih fun y hy => hys y (by simp [hy]),
        List.flatMap_cons]
      simp [Entry.events, hys x (by simp), Entry.scratch]
  have hz : ofKind .scratch [zb] = [] := by simp [ofKind, h.kind]
  rw [h.allocations, ← List.singleton_append, ofKind_append, ofKind_append, hz,
    h.placements.scratch, hx xs]
  · simp
  · intro x hm
    obtain ⟨before, hv⟩ := h.valid hm
    exact hv.placements

theorem fills (h : Planned g layout lookupBits p journal zb xs outs) {x : Entry} (hx : x ∈ xs) :
    ∃ b, p.allocator.bound? .tensor x.op.output = some b ∧
      Fills (Readable g p.allocator p.zero x.op) x.scratch b.cells x.steps := by
  obtain ⟨before, hv⟩ := h.valid hx
  obtain ⟨out, hout, hf⟩ := hv.template.fills
  obtain ⟨b, hb, -, hc⟩ := hout.block h.sound
  exact ⟨b, hb, by rwa [hc]⟩

theorem topological (hg : g.WellFormed) (h : Planned g layout lookupBits p journal zb xs outs) :
    g.Topological (xs.map (·.op)) :=
  Circuit.Graph.order_topological hg h.order

theorem mem_entry (hg : g.WellFormed) (h : Planned g layout lookupBits p journal zb xs outs)
    {o : Circuit.Operation} : o ∈ g.operations ↔ ∃ x ∈ xs, x.op = o := by
  rw [← (h.topological hg).perm.mem_iff, List.mem_map]

theorem placed (hg : g.WellFormed) (h : Planned g layout lookupBits p journal zb xs outs)
    {id : String} (hid : id ∈ g.required) :
    ∃ b ∈ p.allocator.allocations, b.kind = .tensor ∧ b.name = id := by
  rcases Circuit.Graph.mem_required.1 hid with hout | ⟨o, ho, hin | rfl⟩
  · obtain ⟨b, hb⟩ := h.declared id hout
    exact ⟨b, h.sound.coherent.bound_mem hb⟩
  · obtain ⟨x, hx, rfl⟩ := (h.mem_entry hg).1 ho
    obtain ⟨before, after, hs⟩ := List.append_of_mem hx
    obtain ⟨b, hb, hk, hn⟩ := (h.entry before x after hs).inputs id hin
    refine ⟨b, ?_, hk, hn⟩
    rw [h.allocations, hs]
    simp only [eventsOf_append, eventsOf_cons, Entry.events, blocksOf_append, List.mem_cons,
      List.mem_append, List.cons_append] at hb ⊢
    tauto
  · obtain ⟨x, hx, rfl⟩ := (h.mem_entry hg).1 ho
    obtain ⟨b, hb, -⟩ := h.fills hx
    exact ⟨b, h.sound.coherent.bound_mem hb⟩

theorem mem_scratch (h : Planned g layout lookupBits p journal zb xs outs) {b : Allocation} :
    b ∈ p.allocator.allocations ∧ b.kind = .scratch ↔ ∃ x ∈ xs, b ∈ x.scratch := by
  rw [← mem_ofKind, h.scratch_eq, List.mem_flatMap]

theorem mem_entry_writes (h : Planned g layout lookupBits p journal zb xs outs) {x : Entry}
    (hx : x ∈ xs) {c : Int} :
    c ∈ writes x.steps ↔ ∃ b ∈ p.allocator.allocations, c ∈ b.cells ∧
      (b ∈ x.scratch ∨ b.kind = .tensor ∧ b.name = x.op.output) := by
  obtain ⟨out, hb, hf⟩ := h.fills hx
  obtain ⟨hm, hk, hn⟩ := h.sound.coherent.bound_mem hb
  rw [mem_writes, hf.derived.mem_iff, hf.final, List.mem_flatMap]
  constructor
  · rintro (⟨b, hb, hc⟩ | hc)
    · exact ⟨b, (h.mem_scratch.2 ⟨x, hx, hb⟩).1, hc, .inl hb⟩
    · exact ⟨out, hm, hc, .inr ⟨hk, hn⟩⟩
  · rintro ⟨b, hbm, hc, hb | ⟨hbk, hbn⟩⟩
    · exact .inl ⟨b, hb, hc⟩
    · have he := h.sound.found b hbm (.inl hbk)
      rw [hbk, hbn, hb] at he
      obtain rfl := Option.some.inj he
      exact .inr hc

theorem scratch_sublist (h : Planned g layout lookupBits p journal zb xs outs) :
    (xs.flatMap Entry.scratch).Sublist p.allocator.allocations := by
  rw [← h.scratch_eq]
  exact List.filter_sublist

theorem scratch_cells_nodup (h : Planned g layout lookupBits p journal zb xs outs) :
    (xs.flatMap fun x => x.scratch.flatMap Allocation.cells).Nodup := by
  rw [← List.flatMap_assoc]
  exact h.sound.tiles.cells_nodup.sublist (Sequences.sublist_flatMap _ h.scratch_sublist)

theorem outputs_apart (hg : g.WellFormed) (h : Planned g layout lookupBits p journal zb xs outs) :
    xs.Pairwise fun x y => x.op.output ≠ y.op.output := by
  have hn : ((xs.map (·.op)).map (·.output)).Nodup :=
    ((h.topological hg).perm.map _).nodup_iff.2 hg.producers
  rw [List.map_map] at hn
  exact List.pairwise_map.1 hn

theorem writes_nodup (hg : g.WellFormed) (h : Planned g layout lookupBits p journal zb xs outs) :
    (writes p.steps).Nodup := by
  rw [h.steps_eq, writes_flatMap, List.nodup_flatMap]
  obtain ⟨hown, hapart⟩ := List.nodup_flatMap.1 h.scratch_cells_nodup
  constructor
  · intro x hx
    obtain ⟨out, hb, hf⟩ := h.fills hx
    obtain ⟨hm, hk, -⟩ := h.sound.coherent.bound_mem hb
    refine ((writes_perm _).trans (hf.derived.append (.of_eq hf.final))).nodup_iff.2 ?_
    rw [List.nodup_append]
    refine ⟨hown x hx, out.cells_nodup, ?_⟩
    rintro c hc _ ho rfl
    obtain ⟨b, hb, hcb⟩ := List.mem_flatMap.1 hc
    obtain ⟨hbm, hbk⟩ := h.mem_scratch.2 ⟨x, hx, hb⟩
    obtain rfl := h.sound.tiles.owner_unique hbm hm hcb ho
    rw [hk] at hbk
    exact absurd hbk (by simp)
  · refine ((hapart.and (h.outputs_apart hg)).imp_of_mem ?_)
    rintro x y hx hy ⟨hs, hne⟩ c hcx hcy
    obtain ⟨b, hbm, hcb, hbx⟩ := (h.mem_entry_writes hx).1 hcx
    obtain ⟨b', hbm', hcb', hby⟩ := (h.mem_entry_writes hy).1 hcy
    obtain rfl := h.sound.tiles.owner_unique hbm hbm' hcb hcb'
    rcases hbx with hbx | ⟨hkx, hnx⟩ <;> rcases hby with hby | ⟨hky, hny⟩
    · exact hs (List.mem_flatMap.2 ⟨b, hbx, hcb⟩) (List.mem_flatMap.2 ⟨b, hby, hcb⟩)
    · rw [(h.mem_scratch.2 ⟨x, hx, hbx⟩).2] at hky
      exact absurd hky (by simp)
    · rw [(h.mem_scratch.2 ⟨y, hy, hby⟩).2] at hkx
      exact absurd hkx (by simp)
    · exact hne (hnx.symm.trans hny)

theorem mem_plan_writes (hg : g.WellFormed) (h : Planned g layout lookupBits p journal zb xs outs)
    {c : Int} :
    c ∈ writes p.steps ↔ ∃ b ∈ p.allocator.allocations, c ∈ b.cells ∧
      (b.kind = .scratch ∨ b.kind = .tensor ∧ ∃ o ∈ g.operations, o.output = b.name) := by
  rw [h.steps_eq, writes_flatMap, List.mem_flatMap]
  constructor
  · rintro ⟨x, hx, hc⟩
    obtain ⟨b, hb, hcb, hbx⟩ := (h.mem_entry_writes hx).1 hc
    refine ⟨b, hb, hcb, hbx.imp (fun hs => (h.mem_scratch.2 ⟨x, hx, hs⟩).2) ?_⟩
    rintro ⟨hk, hn⟩
    exact ⟨hk, x.op, (h.mem_entry hg).2 ⟨x, hx, rfl⟩, hn.symm⟩
  · rintro ⟨b, hb, hcb, hk | ⟨hk, o, ho, hn⟩⟩
    · obtain ⟨x, hx, hs⟩ := h.mem_scratch.1 ⟨hb, hk⟩
      exact ⟨x, hx, (h.mem_entry_writes hx).2 ⟨b, hb, hcb, .inl hs⟩⟩
    · obtain ⟨x, hx, rfl⟩ := (h.mem_entry hg).1 ho
      exact ⟨x, hx, (h.mem_entry_writes hx).2 ⟨b, hb, hcb, .inr ⟨hk, hn.symm⟩⟩⟩

theorem zero_mem (h : Planned g layout lookupBits p journal zb xs outs) :
    zb ∈ p.allocator.allocations ∧ p.zero ∈ zb.cells := by
  refine ⟨by simp [h.allocations], Allocation.mem_cells.2 ?_⟩
  rw [h.zero, h.size]
  omega

theorem readable_cases (h : Planned g layout lookupBits p journal zb xs outs)
    {o : Circuit.Operation} {c : Int} (hc : Readable g p.allocator p.zero o c) :
    c = p.zero ∨ ∃ b ∈ p.allocator.allocations, c ∈ b.cells ∧ b.kind = .tensor ∧
      b.name ∈ o.inputs := by
  rcases hc with rfl | ⟨id, hid, x, hx, i, hi, rfl⟩
  · exact .inl rfl
  · obtain ⟨b, hb, -, hcells⟩ := hx.block h.sound
    obtain ⟨hm, hk, rfl⟩ := h.sound.coherent.bound_mem hb
    exact .inr ⟨b, hm, by rw [hcells]; exact mem_elementCells.2 ⟨i, hi, rfl⟩, hk, hid⟩

/-- A tensor that an operation reads has been written by the operations before it, unless no
operation produces it. -/
theorem input_before (hg : g.WellFormed) (h : Planned g layout lookupBits p journal zb xs outs)
    {pre post : List Entry} {x : Entry} (hs : xs = pre ++ x :: post) {b : Allocation}
    (hb : b ∈ p.allocator.allocations) (hk : b.kind = .tensor) (hn : b.name ∈ x.op.inputs) :
    (∀ o ∈ g.operations, o.output ≠ b.name) ∨
      ∀ c ∈ b.cells, c ∈ writes (pre.flatMap Entry.steps) := by
  by_cases hp : ∀ o ∈ g.operations, o.output ≠ b.name
  · exact .inl hp
  · push Not at hp
    obtain ⟨o, ho, he⟩ := hp
    have hsplit : xs.map (·.op) = pre.map (·.op) ++ x.op :: post.map (·.op) := by
      rw [hs, List.map_append, List.map_cons]
    have hbefore := (h.topological hg).behind _ _ _ hsplit o ho (he ▸ hn)
    obtain ⟨y, hy, rfl⟩ := List.mem_map.1 hbefore
    refine .inr fun c hc => ?_
    rw [writes_flatMap]
    refine List.mem_flatMap.2 ⟨y, hy, (h.mem_entry_writes (by simp [hs, hy])).2 ?_⟩
    exact ⟨b, hb, hc, .inr ⟨hk, he.symm⟩⟩

theorem sources_before (hg : g.WellFormed) (h : Planned g layout lookupBits p journal zb xs outs)
    {pre post : List Step} {s : Step} (hs : p.steps = pre ++ s :: post) :
    ∀ c ∈ s.instruction.sources, c = p.zero ∨ c ∈ writes pre ∨
      ∃ b ∈ p.allocator.allocations, c ∈ b.cells ∧ b.kind = .tensor ∧
        ∀ o ∈ g.operations, o.output ≠ b.name := by
  rw [h.steps_eq] at hs
  obtain ⟨before, x, after, us, vs, hx, hu, rfl⟩ := Sequences.flatMap_split hs
  obtain ⟨out, -, hf⟩ := h.fills (x := x) (by simp [hx])
  intro c hc
  rw [writes_append, List.mem_append]
  rcases hf.bound.split hu c hc with hr | hd
  · rcases h.readable_cases hr with hz | ⟨b, hb, hcb, hk, hn⟩
    · exact .inl hz
    · rcases h.input_before hg hx hb hk hn with hnone | hw
      · exact .inr (.inr ⟨b, hb, hcb, hk, hnone⟩)
      · exact .inr (.inl (.inl (hw c hcb)))
  · exact .inr (.inl (.inr (mem_writes.2 (.inl hd))))

theorem step_block (hg : g.WellFormed) (h : Planned g layout lookupBits p journal zb xs outs)
    {s : Step} (hs : s ∈ p.steps) {c : Int}
    (hc : c ∈ s.instruction.sources ∨ s.instruction.dest? = some c) :
    ∃ b ∈ p.allocator.allocations, b.kind ≠ .table ∧ c ∈ b.cells := by
  have hwrites : c ∈ writes p.steps →
      ∃ b ∈ p.allocator.allocations, b.kind ≠ .table ∧ c ∈ b.cells := by
    intro hw
    obtain ⟨b, hb, hcb, hk | ⟨hk, -⟩⟩ := (h.mem_plan_writes hg).1 hw
    · exact ⟨b, hb, by simp [hk], hcb⟩
    · exact ⟨b, hb, by simp [hk], hcb⟩
  rcases hc with hc | hc
  · obtain ⟨pre, post, hsplit⟩ := List.append_of_mem hs
    rcases h.sources_before hg hsplit c hc with rfl | hw | ⟨b, hb, hcb, hk, -⟩
    · exact ⟨zb, h.zero_mem.1, by simp [h.kind], h.zero_mem.2⟩
    · refine hwrites ?_
      rw [hsplit, writes_append]
      exact List.mem_append_left _ hw
    · exact ⟨b, hb, by simp [hk], hcb⟩
  · exact hwrites (List.mem_filterMap.2 ⟨s, hs, hc⟩)

end Planned

end TensorAsm.Lowering
