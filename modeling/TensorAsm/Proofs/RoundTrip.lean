import TensorAsm.Assembly
import TensorAsm.Proofs.Comments
import TensorAsm.Proofs.Contents
import TensorAsm.Proofs.ProgramLines
import TensorAsm.Proofs.SingleAssignment
/-!
The text of a program is read back as the program, if the names of outputs are single words and no
bound is given as a truth value, and only then. Names of tensors have to stay on one line for that.
-/

namespace TensorAsm

open Text

theorem Layout.base_nonneg (l : Layout) (r : Region) : 0 ≤ l.base r := by
  have hc := l.size_nonneg .control
  have hi := l.size_nonneg .input
  have hf := l.size_nonneg .fixed
  have hm := l.size_nonneg .intermediate
  cases r <;> simp only [base] <;> omega

namespace Program

/-- The range of an output of the circuit. -/
structure Describes (p : Program) (id : String) (o : OutputRange) : Prop where
  name : o.name = id
  block : ∃ b, p.plan.allocator.bound? .tensor id = some b ∧ o.base = b.address.absolute
  tensor : ∃ t, p.graph.tensor? id = some t ∧ o.length = Shape.volume t.shape ∧ o.scale = t.scale

/-- A text holds a program: the instructions with `halt` behind them, the zero cell, the regions and
the outputs. -/
structure Restores (p : Program) (t : ProgramText) : Prop where
  instructions : t.instructions = p.instructions.map Instruction.plain ++ [.halt]
  zero : t.zero = some p.plan.zero
  regions : t.regions = Region.all.map fun r =>
    (r.name, ⟨p.plan.allocator.layout.base r, p.plan.allocator.layout.size r,
      p.plan.allocator.used r⟩)
  outputs : List.Forall₂ p.Describes p.graph.outputs t.outputs

/-- What stands in a program can be written and told apart again. -/
structure Legible (p : Program) : Prop where
  numbers : ∀ x ∈ Skeleton.packaged.flatMap (Assembly.segmentNumbers p),
    Numeral.isWritable x = true
  outputs : ∀ id ∈ p.graph.outputs, Word id.toList
  numeric : ∀ i ∈ p.instructions, i.Numeric

/-- The assembled text of a program is read back as the program. -/
def ReadsBack (p : Program) : Prop :=
  ∃ text t, Assembly.render? p Skeleton.packaged = .ok text ∧ ProgramText.read text = .ok t ∧
    p.Restores t

def outputRange? (p : Program) (id : String) : Option OutputRange := do
  let t ← p.graph.tensor? id
  let b ← p.plan.allocator.bound? .tensor id
  return ⟨id, b.address.absolute, b.size, t.scale⟩

/-- What the text of a program holds line by line. -/
def slotItems (p : Program) : Slot → List ProgramText.Item
  | .layout => [.nothing, .nothing] ++ Region.all.map (fun r =>
    .region r.name ⟨p.plan.allocator.layout.base r, p.plan.allocator.layout.size r,
      p.plan.allocator.used r⟩) ++ [.zero p.plan.zero]
  | .pub => (Assembly.publicLines p).map fun _ => .nothing
  | .tables => (Assembly.tableLines p).map fun _ => .nothing
  | .outputs => (p.graph.outputs.filterMap p.outputRange?).map .output
  | .body => p.plan.blocks.flatMap fun b =>
    .nothing :: b.steps.map fun s => .instruction s.instruction

def segmentItems (p : Program) : Skeleton.Segment → List ProgramText.Item
  | .line text => [if text = "    halt" then .instruction .halt else .nothing]
  | .slot s => p.slotItems s

theorem slot_numbers {p : Program} (h : ∀ x ∈ Skeleton.packaged.flatMap (Assembly.segmentNumbers p),
    Numeral.isWritable x = true) (s : Slot) {x : Int} (hx : x ∈ Assembly.slotNumbers p s) :
    Numeral.isWritable x = true :=
  h x (List.mem_flatMap.2 ⟨.slot s, by cases s <;> decide, hx⟩)

section

variable {p : Program}

theorem reads_layout (hname : OneLine p.name.toList)
    (hw : ∀ x ∈ Assembly.slotNumbers p .layout, Numeral.isWritable x = true) :
    List.Forall₂ ProgramText.Reads (Assembly.layoutLines p) (p.slotItems .layout) := by
  refine List.rel_append (List.rel_append (.cons ?_ (.cons ?_ .nil)) ?_) (.cons ?_ .nil)
  · exact ProgramText.reads_skipped ".program" (by decide) rfl (by decide) (by simp) hname
  · exact ProgramText.reads_skipped ".capacity" (by decide) rfl (by decide) (by simp)
      (Numeral.oneLine_write p.plan.allocator.layout.capacity)
  · rw [List.forall₂_map_left_iff, List.forall₂_map_right_iff, List.forall₂_same]
    intro r hr
    have hnum : ∀ x ∈ [p.plan.allocator.layout.base r, p.plan.allocator.layout.size r,
        p.plan.allocator.used r], Numeral.isWritable x = true := fun x hx =>
      hw x (List.mem_cons_of_mem _ (List.mem_cons_of_mem _ (List.mem_flatMap.2 ⟨r, hr, hx⟩)))
    exact ProgramText.reads_region (by cases r <;> decide) (hnum _ (by simp)) (hnum _ (by simp))
      (hnum _ (by simp))
  · exact ProgramText.reads_zero (hw _ (by simp [Assembly.slotNumbers, Assembly.layoutNumbers]))

theorem reads_nothing {ls : List String} (h : ∀ l ∈ ls, ProgramText.Reads l .nothing) :
    List.Forall₂ ProgramText.Reads ls (ls.map fun _ => .nothing) := by
  rw [List.forall₂_map_right_iff, List.forall₂_same]
  exact h

theorem reads_public
    (h : ∀ b ∈ p.plan.allocator.allocations, b.kind = .tensor → OneLine b.name.toList) :
    List.Forall₂ ProgramText.Reads (Assembly.publicLines p) (p.slotItems .pub) := by
  apply reads_nothing
  intro l hl
  obtain ⟨b, hb, rfl⟩ := List.mem_map.1 hl
  obtain ⟨hb, hpub⟩ := List.mem_filter.1 hb
  have hname : OneLine b.name.toList := by
    simp only [Assembly.isPublic, Bool.and_eq_true, beq_iff_eq] at hpub
    exact h b (List.mem_mergeSort.1 hb) hpub.1
  exact ProgramText.reads_skipped ".public" (by decide) rfl (by decide)
    (r := (Numeral.write b.address.absolute ++ " " ++ Numeral.write b.size ++ " " ++ b.name).toList)
    (by simp) (by simp [isBreak, hname])

theorem reads_tables (h : ∀ t ∈ p.plan.tables, OneLine t.spec.describe.toList) :
    List.Forall₂ ProgramText.Reads (Assembly.tableLines p) (p.slotItems .tables) := by
  apply reads_nothing
  intro l hl
  obtain ⟨t, ht, rfl⟩ := List.mem_map.1 hl
  exact ProgramText.reads_skipped ".table" (by decide) rfl (by decide)
    (r := (Numeral.write t.address.absolute ++ " " ++ Numeral.write t.spec.rows ++ " "
      ++ t.spec.describe).toList)
    (by simp) (by simp [isBreak, h t ht])

theorem reads_outputs (hw : ∀ x ∈ Assembly.slotNumbers p .outputs, Numeral.isWritable x = true)
    (hwords : ∀ id ∈ p.graph.outputs, Word id.toList)
    (hthere : ∀ id ∈ p.graph.outputs, ∃ t b, p.graph.tensor? id = some t ∧
      p.plan.allocator.bound? .tensor id = some b) :
    List.Forall₂ ProgramText.Reads (Assembly.outputLines p) (p.slotItems .outputs) := by
  rw [slotItems, List.forall₂_map_right_iff]
  apply Sequences.forall₂_filterMap
  intro id hid
  obtain ⟨t, b, ht, hb⟩ := hthere id hid
  have hnum : ∀ x ∈ [t.scale, b.address.absolute, b.size], Numeral.isWritable x = true := by
    intro x hx
    refine hw x (List.mem_flatMap.2 ⟨id, hid, ?_⟩)
    simpa [Assembly.outputNumbers, ht, hb] using hx
  refine ⟨_, _, by simp only [Assembly.outputLine?, ht, hb]; rfl,
    by simp only [outputRange?, ht, hb]; rfl, ?_⟩
  exact ProgramText.reads_output (hwords id hid) (hnum _ (by simp)) (hnum _ (by simp))
    (hnum _ (by simp))

theorem indent_spaces : ∀ c ∈ Assembly.indent.toList, c = ' ' := by
  simp [Assembly.indent]

theorem reads_block {b : Lowering.Block} (ho : b.op.OneLined)
    (hs : ∀ s ∈ b.steps, OneLine s.comment.toList ∧ s.instruction.Numeric ∧
      (∀ a ∈ s.instruction.cells, 0 ≤ a) ∧
      ∀ x ∈ s.instruction.form.numbers, Numeral.isWritable x = true) :
    List.Forall₂ ProgramText.Reads (Assembly.blockLines b)
      (.nothing :: b.steps.map fun s => .instruction s.instruction) := by
  refine .cons ?_ ?_
  · have hinputs : OneLine ([',', ' '].intercalate (b.op.inputs.map String.toList)) := by
      refine oneLine_intercalate (by decide) fun l hl => ?_
      obtain ⟨id, hid, rfl⟩ := List.mem_map.1 hl
      exact ho.inputs id hid
    refine ProgramText.reads_comment indent_spaces (r := (" " ++ nodeText b.op.id ++ ": "
      ++ b.op.output ++ " = " ++ b.op.kind ++ "(" ++ String.intercalate ", " b.op.inputs
      ++ ")").toList) (by simp) ?_
    simp [isBreak, nodeText, ho.output, ho.kind, hinputs]
  · rw [List.forall₂_map_left_iff, List.forall₂_map_right_iff, List.forall₂_same]
    intro s hm
    obtain ⟨hc, hn, hpos, hw⟩ := hs s hm
    exact ProgramText.reads_instruction hn hpos hw indent_spaces hc

theorem reads_body (hw : ∀ x ∈ Assembly.slotNumbers p .body, Numeral.isWritable x = true)
    (hnum : ∀ i ∈ p.instructions, i.Numeric) (hpos : ∀ i ∈ p.instructions, ∀ a ∈ i.cells, 0 ≤ a)
    (hb : ∀ b ∈ p.plan.blocks, b.op.OneLined ∧ ∀ s ∈ b.steps, OneLine s.comment.toList) :
    List.Forall₂ ProgramText.Reads (Assembly.bodyLines p) (p.slotItems .body) := by
  apply Sequences.forall₂_flatMap
  intro b hm
  refine reads_block (hb b hm).1 fun s hs => ?_
  have hi : s.instruction ∈ p.instructions :=
    List.mem_map.2 ⟨s, List.mem_flatMap.2 ⟨b, hm, hs⟩, rfl⟩
  refine ⟨(hb b hm).2 s hs, hnum _ hi, hpos _ hi, fun x hx => hw x ?_⟩
  exact List.mem_flatMap.2 ⟨b, hm, List.mem_cons_of_mem _ (List.mem_flatMap.2 ⟨s, hs, hx⟩)⟩

theorem reads_segment (hslot : ∀ s, List.Forall₂ ProgramText.Reads (Assembly.slotLines p s)
      (p.slotItems s)) {s : Skeleton.Segment} (hs : s ∈ Skeleton.packaged) :
    List.Forall₂ ProgramText.Reads (Assembly.segmentLines p s) (p.segmentItems s) := by
  cases s with
  | slot s => exact hslot s
  | line text =>
    refine .cons ?_ .nil
    simp only [Skeleton.packaged, List.mem_cons, Skeleton.Segment.line.injEq, reduceCtorEq,
      List.not_mem_nil, or_false, false_or] at hs
    rcases hs with rfl | rfl | rfl | rfl | rfl | rfl | rfl | rfl | rfl | rfl | rfl <;>
      exact ⟨by decide, fun _ => rfl⟩

theorem filterMap_segments {α : Type} (f : ProgramText.Item → Option α) (hf : f .nothing = none) :
    (Skeleton.packaged.flatMap p.segmentItems).filterMap f =
      (p.slotItems .layout).filterMap f ++ (p.slotItems .outputs).filterMap f ++
        (p.slotItems .body).filterMap f ++ (f (.instruction .halt)).toList := by
  have hitems : Skeleton.packaged.flatMap p.segmentItems = List.flatten
      [List.replicate 4 .nothing, p.slotItems .layout, [.nothing], p.slotItems .pub, [.nothing],
        p.slotItems .tables, [.nothing], p.slotItems .outputs, List.replicate 3 .nothing,
        p.slotItems .body, [.instruction .halt]] := by
    simp [Skeleton.packaged, segmentItems, List.replicate]
  have hskip (ls : List String) : (ls.map fun _ => ProgramText.Item.nothing).filterMap f = [] :=
    Sequences.filterMap_map_none (fun _ => hf) ls
  have hpub : (p.slotItems .pub).filterMap f = [] := hskip _
  have htables : (p.slotItems .tables).filterMap f = [] := hskip _
  have hlast : [ProgramText.Item.instruction .halt].filterMap f =
      (f (.instruction .halt)).toList := by
    cases hh : f (.instruction .halt) <;> simp [hh]
  simp [hitems, List.filterMap_append, hpub, htables, hlast, List.replicate, hf]

theorem instruction_items :
    (Skeleton.packaged.flatMap p.segmentItems).filterMap ProgramText.Item.instruction? =
      p.instructions ++ [Instruction.halt] := by
  have hlayout : (p.slotItems .layout).filterMap ProgramText.Item.instruction? = [] := by
    simp [slotItems, Region.all, ProgramText.Item.instruction?]
  have houtputs : (p.slotItems .outputs).filterMap ProgramText.Item.instruction? = [] :=
    Sequences.filterMap_map_none (fun _ => rfl) _
  have hbody : (p.slotItems .body).filterMap ProgramText.Item.instruction? = p.instructions := by
    rw [slotItems, instructions, Lowering.Plan.instructions, Lowering.Plan.steps, List.map_flatMap,
      List.filterMap_flatMap]
    apply List.flatMap_congr
    intro b _
    rw [List.filterMap_cons_none rfl]
    apply Sequences.filterMap_map_some
    exact fun _ => rfl
  rw [filterMap_segments _ rfl, hlayout, houtputs, hbody]
  rfl

theorem filterMap_body {α : Type} (f : ProgramText.Item → Option α) (hf : f .nothing = none)
    (hi : ∀ i, f (.instruction i) = none) : (p.slotItems .body).filterMap f = [] := by
  rw [slotItems, List.filterMap_flatMap, List.flatMap_eq_nil_iff]
  intro b _
  rw [List.filterMap_cons_none hf]
  exact Sequences.filterMap_map_none (fun _ => hi _) _

theorem output_items :
    (Skeleton.packaged.flatMap p.segmentItems).filterMap ProgramText.Item.output? =
      p.graph.outputs.filterMap p.outputRange? := by
  have hlayout : (p.slotItems .layout).filterMap ProgramText.Item.output? = [] := by
    simp [slotItems, Region.all, ProgramText.Item.output?]
  have houtputs : (p.slotItems .outputs).filterMap ProgramText.Item.output? =
      (p.graph.outputs.filterMap p.outputRange?).map id := by
    apply Sequences.filterMap_map_some
    exact fun _ => rfl
  rw [filterMap_segments _ rfl, hlayout, houtputs, filterMap_body _ rfl fun _ => rfl]
  simp [ProgramText.Item.output?]

theorem region_items :
    Ordered.ofList
      ((Skeleton.packaged.flatMap p.segmentItems).filterMap ProgramText.Item.region?) =
      Region.all.map fun r => (r.name, ⟨p.plan.allocator.layout.base r,
        p.plan.allocator.layout.size r, p.plan.allocator.used r⟩) := by
  have hlayout : (p.slotItems .layout).filterMap ProgramText.Item.region? =
      Region.all.map fun r => (r.name, ⟨p.plan.allocator.layout.base r,
        p.plan.allocator.layout.size r, p.plan.allocator.used r⟩) := rfl
  have houtputs : (p.slotItems .outputs).filterMap ProgramText.Item.region? = [] :=
    Sequences.filterMap_map_none (fun _ => rfl) _
  rw [filterMap_segments _ rfl, hlayout, houtputs, filterMap_body _ rfl fun _ => rfl]
  simp [ProgramText.Item.region?, Region.all, Region.name, Ordered.ofList, Ordered.put]

theorem zero_items :
    ((Skeleton.packaged.flatMap p.segmentItems).filterMap ProgramText.Item.zero?).getLast? =
      some p.plan.zero := by
  have houtputs : (p.slotItems .outputs).filterMap ProgramText.Item.zero? = [] :=
    Sequences.filterMap_map_none (fun _ => rfl) _
  rw [filterMap_segments _ rfl, houtputs, filterMap_body _ rfl fun _ => rfl]
  rfl

end

namespace Lowered

variable [Platform] {g : Circuit.Graph} {w : Witness} {lookupBits : Json} {m : Int} {p : Program}
  {values : Values}

theorem cells_nonneg (h : Lowered g w lookupBits m p values) {i : Instruction}
    (hi : i ∈ p.instructions) : ∀ a ∈ i.cells, 0 ≤ a := by
  obtain ⟨layout, journal, zb, xs, outs, hp⟩ := h.planned
  have hs := hp.singleAssignment h.wellFormed
  have hblock : ∀ a ∈ i.cells, ∃ b ∈ p.plan.allocator.allocations, a ∈ b.cells := by
    intro a ha
    rcases List.mem_append.1 ha with ha | ha
    · have hdest : i.form.dest = some a := Option.mem_toList.1 ha
      obtain ⟨b, hb, hab, -⟩ := (hs.exactly a).1 (List.mem_filterMap.2 ⟨i, hi, hdest⟩)
      exact ⟨b, hb, hab⟩
    · obtain ⟨pre, post, hsplit⟩ := List.append_of_mem hi
      exact (hs.before pre i post hsplit a (List.mem_append_left _ ha)).1
  intro a ha
  obtain ⟨b, hb, hab⟩ := hblock a ha
  have hbounds := h.sound.tiles.cell_bounds hb hab
  have hbase := p.plan.allocator.layout.base_nonneg b.address.region
  omega

theorem output_there (h : Lowered g w lookupBits m p values) {id : String} (hid : id ∈ g.outputs) :
    ∃ t b, g.tensor? id = some t ∧ p.plan.allocator.bound? .tensor id = some b ∧
      b.size = Shape.volume t.shape := by
  obtain ⟨layout, journal, zb, xs, outs, hp⟩ := h.planned
  obtain ⟨b, hb⟩ := hp.declared id hid
  obtain ⟨hm, hk, rfl⟩ := h.sound.coherent.bound_mem hb
  obtain ⟨-, t, ht, hs, -⟩ := h.sound.tensor b hm hk
  exact ⟨t, b, ht, hb, hs⟩

theorem block_oneLine (h : Lowered g w lookupBits m p values)
    (hids : ∀ id ∈ g.required, OneLine id.toList) {b : Lowering.Block}
    (hb : b ∈ p.plan.blocks) : b.op.OneLined ∧ ∀ s ∈ b.steps, OneLine s.comment.toList := by
  obtain ⟨layout, journal, zb, xs, outs, hp⟩ := h.planned
  rw [hp.blocks] at hb
  obtain ⟨x, hx, rfl⟩ := List.mem_map.1 hb
  obtain ⟨before, hv⟩ := hp.valid hx
  have hmem : x.op ∈ g.operations := (hp.mem_entry h.wellFormed).2 ⟨x, hx, rfl⟩
  obtain ⟨k, hk⟩ := hv.template.kind
  have ho : x.op.OneLined :=
    ⟨Circuit.oneLine_kind hk, hids _ (Circuit.Graph.output_required hmem),
      fun id hid => hids id (Circuit.Graph.input_required hmem hid)⟩
  exact ⟨ho, fun s hs => hv.template.comment ho hs⟩

theorem reads_slot (h : Lowered g w lookupBits m p values) (hgraph : p.graph = g)
    (hname : OneLine p.name.toList) (hids : ∀ id ∈ g.required, OneLine id.toList)
    (hl : p.Legible) (s : Slot) :
    List.Forall₂ ProgramText.Reads (Assembly.slotLines p s) (p.slotItems s) := by
  have hw := fun x => slot_numbers hl.numbers s (x := x)
  cases s with
  | layout => exact reads_layout hname hw
  | pub => exact reads_public fun b hb hk => hids _ (h.sound.tensor b hb hk).1
  | tables => exact reads_tables fun t ht => Table.oneLine_describe (h.sound.table t ht).1
  | outputs =>
    refine reads_outputs hw hl.outputs fun id hid => ?_
    obtain ⟨t, b, ht, hb, -⟩ := h.output_there (hgraph ▸ hid)
    exact ⟨t, b, by rw [hgraph, ht], hb⟩
  | body =>
    exact reads_body hw hl.numeric (fun i hi => h.cells_nonneg hi) fun b hb =>
      h.block_oneLine hids hb

theorem restores (h : Lowered g w lookupBits m p values) (hgraph : p.graph = g)
    (hn : ∀ i ∈ p.instructions, i.Numeric) :
    p.Restores (ProgramText.ofItems (Skeleton.packaged.flatMap p.segmentItems)) := by
  refine ⟨?_, zero_items, region_items, ?_⟩
  · have hplain : p.instructions.map Instruction.plain = p.instructions.map id :=
      List.map_congr_left fun i hi => (hn i hi).plain_eq
    rw [hplain, List.map_id]
    exact instruction_items
  · have hout : List.Forall₂ p.Describes (p.graph.outputs.filterMap some)
        (p.graph.outputs.filterMap p.outputRange?) := by
      apply Sequences.forall₂_filterMap
      intro id hid
      obtain ⟨t, b, ht, hb, hs⟩ := h.output_there (hgraph ▸ hid)
      rw [← hgraph] at ht
      exact ⟨id, _, rfl, by simp only [outputRange?, ht, hb]; rfl, rfl, ⟨b, hb, rfl⟩, t, ht, hs,
        rfl⟩
    rw [List.filterMap_some] at hout
    rw [ProgramText.ofItems, output_items]
    exact hout

theorem readsBack (h : Lowered g w lookupBits m p values) (hgraph : p.graph = g)
    (hname : OneLine p.name.toList) (hids : ∀ id ∈ g.required, OneLine id.toList)
    (hl : p.Legible) : p.ReadsBack := by
  refine ⟨Assembly.render p Skeleton.packaged, _, ?_, ?_, h.restores hgraph hl.numeric⟩
  · rw [Assembly.render?, written, if_pos (List.all_eq_true.2 hl.numbers)]
  · refine ProgramText.read_lines (by simp [Skeleton.packaged, Assembly.segmentLines]) ?_
    exact Sequences.forall₂_flatMap fun s hs => reads_segment (h.reads_slot hgraph hname hids hl) hs

end Lowered

/-- What is read back is legible, whatever the program and its names are. -/
theorem ReadsBack.legible {p : Program} (h : p.ReadsBack) : p.Legible := by
  obtain ⟨text, t, hr, ht, hrest⟩ := h
  rw [Assembly.render?, written] at hr
  split at hr
  · next hnum =>
      obtain rfl := Except.ok.inj hr
      refine ⟨List.all_eq_true.1 hnum, fun id hid => ?_, fun i hi => ?_⟩
      · obtain ⟨o, ho, hd⟩ := Sequences.forall₂_of_mem hrest.outputs hid
        rw [← hd.name]
        exact ProgramText.read_outputs ht ho
      · obtain ⟨s, hs, rfl⟩ := List.mem_map.1 hi
        obtain ⟨b, hb, hs⟩ := List.mem_flatMap.1 hs
        have hline : Assembly.indent ++ s.instruction.render s.comment ∈ Assembly.bodyLines p :=
          List.mem_flatMap.2 ⟨b, hb, List.mem_cons_of_mem _ (List.mem_map.2 ⟨s, hs, rfl⟩)⟩
        exact ProgramText.instruction_numeric ht indent_spaces
          (List.mem_flatMap.2 ⟨.slot .body, by decide, hline⟩)
  · simp at hr

/-- The assembled text of a lowered program is read back as the program if the integers in it are
written, the names of its outputs are single words and its bounds are numbers, and only then; for
the first part the names in it have to stay on one line. -/
theorem lower_readsBack [Platform] {doc given : Json} {g : Circuit.Graph} {w : Witness}
    {name : String} {layout : Layout} {lookupBits : Json} {m : Int} {p : Program}
    (hg : Circuit.read doc = .ok g) (hw : Witness.read m g given = .ok w)
    (h : (lower name g w layout lookupBits m).1 = .ok p) :
    (OneLine name.toList → (∀ id ∈ g.required, OneLine id.toList) → p.Legible → p.ReadsBack) ∧
      (p.ReadsBack → p.Legible) := by
  obtain ⟨values, hl⟩ := lower_lowered hg hw h
  obtain ⟨plan, derived, rfl⟩ := lower_keeps h
  exact ⟨hl.readsBack rfl, ReadsBack.legible⟩

end Program

namespace Clamped

def graph (output : String) (lo hi : Json) : Circuit.Graph :=
  ⟨[⟨"x", [1], 1, .priv⟩, ⟨output, [1], 0, .priv⟩],
    [⟨1, "rescale", ["x"], output, 0, [("clamp", .arr [lo, hi])]⟩], ["x"], [output]⟩

def circuit (output : String) (lo hi : Json) : Json := (graph output lo hi).document

def values (output : String) : Json := .obj [("x", .arr [.int 2]), (output, .arr [.int 1])]

def witness (output : String) : Witness := [("x", ⟨[1], #[2]⟩), (output, ⟨[1], #[1]⟩)]

theorem read_circuit :
    Circuit.read (circuit "y" (.int (-4)) (.int 7)) = .ok (graph "y" (.int (-4)) (.int 7)) := by
  cbv

theorem read_values :
    Witness.read Field.defaultModulus (graph "y" (.int (-4)) (.int 7)) (values "y")
      = .ok (witness "y") := by
  cbv

theorem required : (graph "y" (.int (-4)) (.int 7)).required = ["x", "y"] := by
  cbv

theorem exists_ok_and {α : Type} {e : Except Fault α} {P : α → Prop} [DecidablePred P]
    (h : (e.toOption.any fun a => decide (P a)) = true) : ∃ a, e = .ok a ∧ P a := by
  cases e with
  | error f => simp [Except.toOption] at h
  | ok a => exact ⟨a, rfl, by simpa [Except.toOption] using h⟩

theorem legible {p : Program}
    (hs : ∀ s ∈ [Slot.layout, .tables, .outputs, .body], ∀ x ∈ Assembly.slotNumbers p s,
      Numeral.isWritable x = true)
    (hb : ∀ b ∈ p.plan.allocator.allocations, ∀ x ∈ [b.address.absolute, b.size],
      Numeral.isWritable x = true)
    (ho : ∀ id ∈ p.graph.outputs, Word id.toList) (hn : ∀ i ∈ p.instructions, i.Numeric) :
    p.Legible := by
  refine ⟨fun x hx => ?_, ho, hn⟩
  obtain ⟨s, -, hx⟩ := List.mem_flatMap.1 hx
  cases s with
  | line text => simp [Assembly.segmentNumbers] at hx
  | slot s =>
    cases s with
    | pub =>
      obtain ⟨b, hm, hx⟩ := List.mem_flatMap.1 hx
      exact hb b (List.mem_mergeSort.1 (List.mem_of_mem_filter hm)) x hx
    | layout => exact hs .layout (by decide) x hx
    | tables => exact hs .tables (by decide) x hx
    | outputs => exact hs .outputs (by decide) x hx
    | body => exact hs .body (by decide) x hx

theorem lowers :
    ∃ p, (Program.lower "circuit" (graph "y" (.int (-4)) (.int 7)) (witness "y") default (.int 8)
      Field.defaultModulus).1 = .ok p ∧ p.Legible := by
  have h : ∃ p, (Program.lower "circuit" (graph "y" (.int (-4)) (.int 7)) (witness "y") default
      (.int 8) Field.defaultModulus).1 = .ok p ∧
      (∀ s ∈ [Slot.layout, .tables, .outputs, .body], ∀ x ∈ Assembly.slotNumbers p s,
        Numeral.isWritable x = true) ∧
      (∀ b ∈ p.plan.allocator.allocations, ∀ x ∈ [b.address.absolute, b.size],
        Numeral.isWritable x = true) ∧
      (∀ id ∈ p.graph.outputs, Word id.toList) ∧ ∀ i ∈ p.instructions, i.Numeric :=
    exists_ok_and (by decide +kernel)
  obtain ⟨p, hp, hs, hb, ho, hn⟩ := h
  exact ⟨p, hp, legible hs hb ho hn⟩

theorem lowers_spaced :
    ∃ p, (Program.lower "circuit" (graph "y z" (.int (-4)) (.int 7)) (witness "y z") default
      (.int 8) Field.defaultModulus).1 = .ok p ∧ ¬ ∀ id ∈ p.graph.outputs, Word id.toList :=
  exists_ok_and (by decide +kernel)

theorem lowers_flagged :
    ∃ p, (Program.lower "circuit" (graph "y" (.bool false) (.bool true)) (witness "y") default
      (.int 8) Field.defaultModulus).1 = .ok p ∧ ¬ ∀ i ∈ p.instructions, i.Numeric :=
  exists_ok_and (by decide +kernel)

end Clamped

theorem Program.clamped_readsBack :
    ∃ p,
      (lower "circuit" (Clamped.graph "y" (.int (-4)) (.int 7)) (Clamped.witness "y") default
        (.int 8) Field.defaultModulus).1 = .ok p ∧ p.ReadsBack := by
  obtain ⟨p, h, hl⟩ := Clamped.lowers
  refine ⟨p, h, (lower_readsBack Clamped.read_circuit Clamped.read_values h).1 (by decide) ?_ hl⟩
  rw [Clamped.required]
  decide

/-- An output with a blank in its name and a bound that is a truth value are lowered and written,
but not read back. -/
theorem Program.spaced_or_flagged_lost :
    (∃ p,
      Circuit.read (Clamped.circuit "y z" (.int (-4)) (.int 7))
        = .ok (Clamped.graph "y z" (.int (-4)) (.int 7)) ∧
      Witness.read Field.defaultModulus (Clamped.graph "y z" (.int (-4)) (.int 7))
        (Clamped.values "y z") = .ok (Clamped.witness "y z") ∧
      (lower "circuit" (Clamped.graph "y z" (.int (-4)) (.int 7)) (Clamped.witness "y z") default
        (.int 8) Field.defaultModulus).1 = .ok p ∧ ¬ p.ReadsBack) ∧
    ∃ p,
      Circuit.read (Clamped.circuit "y" (.bool false) (.bool true))
        = .ok (Clamped.graph "y" (.bool false) (.bool true)) ∧
      Witness.read Field.defaultModulus (Clamped.graph "y" (.bool false) (.bool true))
        (Clamped.values "y") = .ok (Clamped.witness "y") ∧
      (lower "circuit" (Clamped.graph "y" (.bool false) (.bool true)) (Clamped.witness "y") default
        (.int 8) Field.defaultModulus).1 = .ok p ∧ ¬ p.ReadsBack := by
  obtain ⟨p, hp, hnp⟩ := Clamped.lowers_spaced
  obtain ⟨q, hq, hnq⟩ := Clamped.lowers_flagged
  exact ⟨⟨p, by cbv, by cbv, hp, fun h => hnp h.legible.outputs⟩, q, by cbv, by cbv, hq,
    fun h => hnq h.legible.numeric⟩

end TensorAsm
