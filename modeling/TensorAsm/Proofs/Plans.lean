import TensorAsm.Proofs.Lowerings
/-!
The plan of a circuit as a whole: the zero cell, then one entry for each operation in order, then
the outputs that no operation produces.
-/

namespace TensorAsm.Lowering

open Stateful

/-- The events of an operation: those that place its inputs, and all others. -/
structure Entry where
  op : Circuit.Operation
  ins : List Event
  rest : List Event

namespace Entry

def steps (x : Entry) : List Step := stepsOf x.rest

def scratch (x : Entry) : List Allocation := ofKind .scratch (blocksOf x.rest)

def block (x : Entry) : Block := ⟨x.op, x.steps⟩

def events (x : Entry) : List Event := x.ins ++ x.rest ++ [.lowered x.block]

end Entry

def eventsOf (xs : List Entry) : List Event := xs.flatMap Entry.events

@[simp] theorem eventsOf_append (xs ys : List Entry) :
    eventsOf (xs ++ ys) = eventsOf xs ++ eventsOf ys :=
  List.flatMap_append

@[simp] theorem eventsOf_cons (x : Entry) (xs : List Entry) :
    eventsOf (x :: xs) = x.events ++ eventsOf xs := rfl

/-- What holds of the entry of an operation behind the blocks `before` it. -/
structure Entry.Valid [Platform] (g : Circuit.Graph) (lookupBits : Json) (zero : Int)
    (a : Allocator) (ts : List FoldedTable) (before : List Allocation) (x : Entry) : Prop where
  placements : Placements x.ins
  unclosed : closedOf (x.ins ++ x.rest) = []
  inputs : ∀ id ∈ x.op.inputs,
    ∃ b ∈ before ++ blocksOf x.ins, b.kind = .tensor ∧ b.name = id
  template : Template g lookupBits zero a ts x.op x.scratch x.steps

section

variable [Platform] {g : Circuit.Graph} {lookupBits : Json} {zero : Int} {d d' : Draft}
  {evs : List Event} {o : Circuit.Operation} {bs : List Allocation} {ss : List Step}

theorem Summands.mono {natural : Int} {shape : List Nat} {terms : List (List Term)}
    (h : Extends g d evs d') (hs : Summands g zero d.allocator o natural shape terms bs ss) :
    Summands g zero d'.allocator o natural shape terms bs ss := by
  cases hs with
  | matmul hk hi hx hy hp => exact .matmul hk hi (hx.mono h) (hy.mono h) hp
  | dot hk hi hx hy hs hone => exact .dot hk hi (hx.mono h) (hy.mono h) hs hone
  | sum hk hi hx hone => exact .sum hk hi (hx.mono h) hone
  | conv hk hi hx hw hc => exact .conv hk hi (hx.mono h) (hw.mono h) hc
  | biased hk hi hx hw hb hc hf hbr =>
    exact .biased hk hi (hx.mono h) (hw.mono h) (hb.mono h) hc hf hbr

theorem Template.mono (h : Extends g d evs d')
    (ht : Template g lookupBits zero d.allocator d.tables o bs ss) :
    Template g lookupBits zero d'.allocator d'.tables o bs ss := by
  cases ht with
  | linear hk hi hx hy hout hb hbx hby =>
    exact .linear hk hi (hx.mono h) (hy.mono h) (hout.mono h) hb hbx hby
  | product hk hi hx hy hout hb hl =>
    exact .product hk hi (hx.mono h) (hy.mono h) (hout.mono h) hb hl
  | unary hk hi hx hout hs hb => exact .unary hk hi (hx.mono h) (hout.mono h) hs hb
  | reduction hs hout hr => exact .reduction (hs.mono h) (hout.mono h) hr
  | lookup hk hc hi hx hout hs hspec ht hf =>
    exact .lookup hk hc hi (hx.mono h) (hout.mono h) hs hspec (h.mem_tables ht) hf
  | rescale hk hi hx hout hs hb => exact .rescale hk hi (hx.mono h) (hout.mono h) hs hb
  | clamp hk hi hx hout hs hb hle hbr =>
    exact .clamp hk hi (hx.mono h) (hout.mono h) hs hb hle hbr

theorem Entry.Valid.mono {x : Entry} {before : List Allocation} (h : Extends g d evs d')
    (hx : x.Valid g lookupBits zero d.allocator d.tables before) :
    x.Valid g lookupBits zero d'.allocator d'.tables before :=
  ⟨hx.placements, hx.unclosed, hx.inputs, hx.template.mono h⟩

end

variable {s : Setting} {d d' : Draft}

theorem lowerNode_entry [Platform] (hg : s.graph.Measured) {o : Circuit.Operation}
    (ho : o ∈ s.graph.operations) (hs : Sound s.graph d.allocator d.tables)
    (h : (lowerNode s o).Yields d () d') :
    ∃ x : Entry, x.op = o ∧ Extends s.graph d x.events d' ∧
      x.Valid s.graph s.lookupBits s.zero d'.allocator d'.tables d.allocator.allocations := by
  unfold lowerNode at h
  split at h
  · exact absurd h (by simp)
  · next kind hk =>
      simp only [Emit.start, Emit.finish, Emit.note, yields_bind, yields_modify,
        yields_get] at h
      obtain ⟨_, _, rfl, _, e, hkind, _, _, ⟨rfl, rfl⟩, _, _, rfl, rfl⟩ := h
      obtain ⟨ins, rest, hl⟩ := lowerKind_lowers (d := { d with current := [] }) hg ho hs hk hkind
      have hc : e.current = stepsOf rest := by simpa [hl.placements] using hl.writes.current
      refine ⟨⟨o, ins, rest⟩, rfl, ?_, hl.placements, hl.writes.unclosed, hl.inputs, hl.template⟩
      have hw : Extends s.graph d (ins ++ rest) e :=
        ⟨hl.writes.layout, hl.writes.inputs, hl.writes.outputs, hl.writes.allocations,
          hl.writes.retains, hl.writes.tables, hl.writes.blocks, hl.writes.journal, hl.writes.kept,
          hl.writes.sound⟩
      refine hw.trans ⟨rfl, rfl, rfl, by simp, fun _ _ _ hb => hb, by simp, ?_, ?_, by simp, id⟩
      · simp [hc, Entry.block, Entry.steps]
      · simp [hc, Entry.block, Entry.steps]

theorem lowerAll_entries [Platform] (hg : s.graph.Measured) {order : List Circuit.Operation}
    (ho : ∀ o ∈ order, o ∈ s.graph.operations) (hs : Sound s.graph d.allocator d.tables)
    (h : (order.forM (lowerNode s)).Yields d () d') :
    ∃ xs : List Entry, xs.map (·.op) = order ∧ Extends s.graph d (eventsOf xs) d' ∧
      ∀ pre x post, xs = pre ++ x :: post →
        x.Valid s.graph s.lookupBits s.zero d'.allocator d'.tables
          (d.allocator.allocations ++ blocksOf (eventsOf pre)) := by
  induction order generalizing d with
  | nil =>
    obtain ⟨-, rfl⟩ := yields_pure.1 h
    exact ⟨[], rfl, .refl, by simp⟩
  | cons o order ih =>
    obtain ⟨_, e, hnode, hrest⟩ := yields_bind.1 h
    obtain ⟨x, rfl, hx, hv⟩ := lowerNode_entry hg (ho o (by simp)) hs hnode
    obtain ⟨xs, rfl, hxs, hvs⟩ := ih (fun p hp => ho p (by simp [hp])) (hx.sound hs) hrest
    refine ⟨x :: xs, rfl, hx.trans hxs, ?_⟩
    intro pre y post hsplit
    cases pre with
    | nil =>
      obtain ⟨rfl, -⟩ := List.cons.inj hsplit
      simpa [eventsOf] using hv.mono hxs
    | cons z pre =>
      obtain ⟨rfl, hrest⟩ := List.cons.inj hsplit
      have hy := hvs pre y post hrest
      rw [hx.allocations, List.append_assoc, ← blocksOf_append] at hy
      exact hy

theorem outputs_writes [Platform] (hg : s.graph.Measured) {ids : List String}
    (hr : ∀ id ∈ ids, id ∈ s.graph.required)
    (h : (ids.forM fun id => do
      let _ ← Emit.tensor (← s.tensor id)).Yields d () d') :
    ∃ evs, Writes s.graph d evs d' ∧ Placements evs ∧
      ∀ id ∈ ids, ∃ b, d'.allocator.bound? .tensor id = some b := by
  induction ids generalizing d with
  | nil =>
    obtain ⟨-, rfl⟩ := yields_pure.1 h
    exact ⟨[], .refl, .nil, by simp⟩
  | cons id ids ih =>
    obtain ⟨_, e, hid, hrest⟩ := yields_bind.1 h
    simp only [yields_bind, yields_tensor, yields_pure] at hid
    obtain ⟨t, _, ⟨ht, rfl⟩, address, _, htensor, -, rfl⟩ := hid
    obtain ⟨xs, b, hw, hp, hb, -⟩ := tensor_writes hg (hr id (by simp)) ht htensor
    obtain ⟨ys, hw', hp', hbs⟩ := ih (fun i hi => hr i (by simp [hi])) hrest
    refine ⟨xs ++ ys, hw.trans hw', hp.append hp', ?_⟩
    rintro i (_ | ⟨_, hi⟩)
    exacts [⟨b, hw'.retains hb⟩, hbs i hi]

/-- The plan of a circuit and the journal of its lowering: the block of the zero cell, the entries
of the operations, and the outputs placed at last. -/
structure Planned [Platform] (g : Circuit.Graph) (layout : Layout) (lookupBits : Json) (p : Plan)
    (journal : List Event) (zb : Allocation) (xs : List Entry) (outs : List Event) : Prop where
  order : g.order = .ok (xs.map (·.op))
  journal_eq : journal = .allocated zb :: (eventsOf xs ++ outs)
  kind : zb.kind = .control
  size : zb.size = 1
  zero : zb.address.absolute = p.zero
  layout_eq : p.allocator.layout = layout
  inputs : p.allocator.inputs = g.inputs.contains
  outputs : p.allocator.outputs = g.outputs.contains
  allocations : p.allocator.allocations = zb :: (blocksOf (eventsOf xs) ++ blocksOf outs)
  blocks : p.blocks = xs.map Entry.block
  kept : ∀ e ∈ journal, ∀ s, e ≠ .dropped s
  sound : Sound g p.allocator p.tables
  placements : Placements outs
  declared : ∀ id ∈ g.outputs, ∃ b, p.allocator.bound? .tensor id = some b
  entry : ∀ pre x post, xs = pre ++ x :: post →
    x.Valid g lookupBits p.zero p.allocator p.tables (zb :: blocksOf (eventsOf pre))

theorem closedOf_eventsOf {xs : List Entry} (h : ∀ x ∈ xs, closedOf (x.ins ++ x.rest) = []) :
    closedOf (eventsOf xs) = xs.map Entry.block := by
  induction xs with
  | nil => rfl
  | cons x xs ih =>
    rw [eventsOf_cons, closedOf_append, ih fun y hy => h y (by simp [hy]), Entry.events,
      closedOf_append, h x (by simp)]
    simp

theorem sound_empty [Platform] {g : Circuit.Graph} {layout : Layout} :
    Sound g (Allocator.start g layout) [] :=
  ⟨Allocator.coherent_start g layout, .nil, by simp [Allocator.start], by simp [Allocator.start],
    by simp [Allocator.start], by simp,
    by simp [Allocator.start], by simp⟩

theorem plan_yields [Platform] {g : Circuit.Graph} {layout : Layout} {lookupBits : Json} {p : Plan}
    {journal : List Event} (h : plan g layout lookupBits = (.ok p, journal)) :
    ∃ z d, (lowerGraph g lookupBits).Yields (emptyDraft g layout) z d ∧
      p = ⟨d.allocator, d.blocks, d.tables, z⟩ ∧ journal = d.journal := by
  unfold plan at h
  rcases hr : ExceptT.run (lowerGraph g lookupBits) (emptyDraft g layout) with ⟨r, d⟩
  rw [hr] at h
  cases r with
  | error f => simp [Except.map] at h
  | ok z =>
    simp only [Except.map, Prod.mk.injEq, Except.ok.injEq] at h
    exact ⟨z, d, hr, h.1.symm, h.2.symm⟩

theorem plan_planned [Platform] {g : Circuit.Graph} (hg : g.Measured) (hwf : g.WellFormed)
    {layout : Layout} {lookupBits : Json} {p : Plan} {journal : List Event}
    (h : plan g layout lookupBits = (.ok p, journal)) :
    ∃ zb xs outs, Planned g layout lookupBits p journal zb xs outs := by
  obtain ⟨z, d, hrun, rfl, rfl⟩ := plan_yields h
  unfold lowerGraph at hrun
  obtain ⟨address, d₁, hzero, hrun⟩ := yields_bind.1 hrun
  obtain ⟨zb, hk, rfl, hsz, w₁⟩ := control_writes (g := g) rfl hzero
  dsimp only at hrun
  split at hrun
  · exact absurd hrun (by simp)
  · next order ho =>
      simp only [yields_bind, yields_pure] at hrun
      obtain ⟨_, d₂, hnodes, _, d₃, houts, rfl, rfl⟩ := hrun
      have htop := Circuit.Graph.order_topological hwf ho
      obtain ⟨xs, rfl, w₂, hv⟩ := lowerAll_entries (s := ⟨g, lookupBits, _⟩) hg
        (fun o hm => htop.perm.mem_iff.1 hm) (w₁.sound sound_empty) hnodes
      obtain ⟨outs, w₃, hp, hdecl⟩ := outputs_writes (s := ⟨g, lookupBits, _⟩) hg
        (fun id hid => Circuit.Graph.mem_required.2 (.inl hid)) houts
      have hw := (w₁.toExtends.trans w₂).trans w₃.toExtends
      have hv' : ∀ pre x post, xs = pre ++ x :: post → x.Valid g lookupBits zb.address.absolute
          d₃.allocator d₃.tables (zb :: blocksOf (eventsOf pre)) := by
        intro pre x post hs
        simpa [w₁.allocations, emptyDraft, Allocator.start]
          using (hv pre x post hs).mono w₃.toExtends
      refine ⟨zb, xs, outs, ho, ?_, hk, hsz, rfl, hw.layout, hw.inputs, hw.outputs, ?_, ?_, ?_,
        hw.sound sound_empty, hp, hdecl, hv'⟩
      · simpa [emptyDraft] using hw.journal
      · simpa [emptyDraft, Allocator.start] using hw.allocations
      · have hc : ∀ x ∈ xs, closedOf (x.ins ++ x.rest) = [] := by
          intro x hx
          obtain ⟨pre, post, hs⟩ := List.append_of_mem hx
          exact (hv pre x post hs).unclosed
        simpa [emptyDraft, closedOf_eventsOf hc, w₃.unclosed] using hw.blocks
      · have hj := hw.journal
        simp only [emptyDraft, List.nil_append] at hj
        rw [hj]
        exact hw.kept

end TensorAsm.Lowering
