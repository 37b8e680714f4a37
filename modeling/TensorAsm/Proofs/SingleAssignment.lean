import Mathlib
import TensorAsm.Proofs.Assignments
import TensorAsm.Proofs.RefinedPrograms
/-!
Programs in single-assignment form: every cell is written once and read only behind that, and an
operation keeps to its inputs, its output, its scratch blocks, its table and the zero cell.
-/

namespace TensorAsm

/-- All cells that an instruction reads: its operands and, for a lookup, the rows of the table. -/
def Instruction.touched (i : Instruction) : List Int :=
  i.reads ++ match i with
    | .lookup _ _ table rows => (List.range (2 * rows).toNat).map fun (k : Nat) => table + k
    | _ => []

namespace Lowering

/-- A cell of a tensor that no operation produces. -/
def SourceCell (g : Circuit.Graph) (a : Allocator) (c : Int) : Prop :=
  ∃ b ∈ a.allocations, c ∈ b.cells ∧ b.kind = .tensor ∧ ∀ o ∈ g.operations, o.output ≠ b.name

def TableCell (a : Allocator) (c : Int) : Prop := ∃ b ∈ a.allocations, c ∈ b.cells ∧ b.kind = .table

/-- The instructions of an operation keep to its inputs, its output, its table, the zero cell and
scratch blocks of its own, which bear its number. -/
structure Confined [Platform] (g : Circuit.Graph) (lookupBits : Json) (p : Plan) (blk : Block)
    (own : List Allocation) : Prop where
  names : ∀ b ∈ own, ∃ purpose k,
    b.name = "n" ++ Numeral.write blk.op.id ++ "." ++ purpose ++ "#" ++ natText k
  reads : ∀ s ∈ blk.steps, ∀ c ∈ s.instruction.touched, c = p.zero ∨
    ∃ b ∈ p.allocator.allocations, c ∈ b.cells ∧
      (b.kind = .tensor ∧ b.name ∈ blk.op.inputs ∨ b ∈ own ∨
        ∃ t ∈ p.tables, TableOf g lookupBits blk.op t ∧ b.kind = .table ∧ b.address = t.address)
  writes : ∀ s ∈ blk.steps, ∀ c ∈ s.instruction.dest?,
    ∃ b ∈ p.allocator.allocations, c ∈ b.cells ∧
      (b.kind = .tensor ∧ b.name = blk.op.output ∨ b ∈ own)

/-- The operations have their blocks in order, every tensor in use has its cells, and each cell is
written at most once and read behind that. -/
structure SingleAssignment [Platform] (g : Circuit.Graph) (lookupBits : Json) (p : Plan) :
    Prop where
  ordered : g.order = .ok (p.blocks.map (·.op)) ∧ g.Topological (p.blocks.map (·.op))
  placed : ∀ id ∈ g.required, ∃ t, g.tensor? id = some t ∧ ∃ b ∈ p.allocator.allocations,
    b.kind = .tensor ∧ b.name = id ∧ b.size = Shape.volume t.shape
  total : ∀ i ∈ p.instructions, i.dest?.isSome
  once : (targets p.instructions).Nodup
  exactly : ∀ c, c ∈ targets p.instructions ↔ ∃ b ∈ p.allocator.allocations, c ∈ b.cells ∧
    (b.kind = .scratch ∨ b.kind = .tensor ∧ ∃ o ∈ g.operations, o.output = b.name)
  never : ∀ c, c = p.zero ∨ SourceCell g p.allocator c ∨ TableCell p.allocator c →
    c ∉ targets p.instructions
  before : ∀ pre i post, p.instructions = pre ++ i :: post → ∀ c ∈ i.touched,
    (∃ b ∈ p.allocator.allocations, c ∈ b.cells) ∧
      (c = p.zero ∨ SourceCell g p.allocator c ∨ TableCell p.allocator c ∨ c ∈ targets pre)
  confined : ∃ own : List (List Allocation),
    ofKind .scratch p.allocator.allocations = own.flatten ∧
      List.Forall₂ (Confined g lookupBits p) p.blocks own

section

variable {g : Circuit.Graph} {lookupBits : Json} {zero : Int} {a : Allocator}
  {ts : List FoldedTable} {o : Circuit.Operation} {bs : List Allocation} {ss : List Step}

theorem Brought.owned {x x' : Operand} {target : Int} (h : Brought o x target x' bs ss) :
    ∀ b ∈ bs, ∃ n, Owned o n b := by
  cases h with
  | same => simp
  | copied _ hown => simpa using ⟨_, hown⟩

theorem Landing.owned {natural size out : Int} {t : Target} (h : Landing o natural size out t bs) :
    ∀ b ∈ bs, ∃ n, Owned o n b := by
  cases h with
  | direct => simp
  | apart _ hown => simpa using ⟨_, hown⟩

theorem Partials.owned {count n : Nat} {partials : Int} (h : Partials o count n partials bs) :
    ∀ b ∈ bs, ∃ n, Owned o n b := by
  cases h with
  | single => simp
  | chained _ hown => simpa using ⟨_, hown⟩

theorem Summands.owned {natural : Int} {shape : List Nat} {terms : List (List Term)}
    (h : Summands g zero a o natural shape terms bs ss) : ∀ b ∈ bs, ∃ n, Owned o n b := by
  cases h with
  | biased _ _ _ _ _ _ _ hbr => exact hbr.owned
  | _ => simp

theorem Reduced.owned {natural out : Int} {shape : List Nat} {terms : List (List Term)}
    (h : Reduced zero o natural shape out terms bs ss) : ∀ b ∈ bs, ∃ n, Owned o n b := by
  cases h with
  | empty => simp
  | chains _ _ hp hl => exact fun b hb => (List.mem_append.1 hb).elim (hp.owned b) (hl.owned b)

theorem Template.owned [Platform] (h : Template g lookupBits zero a ts o bs ss) :
    ∀ b ∈ bs, ∃ n, Owned o n b := by
  cases h with
  | linear _ _ _ _ _ _ hbx hby =>
    exact fun b hb => (List.mem_append.1 hb).elim (hbx.owned b) (hby.owned b)
  | product _ _ _ _ _ _ hl => exact hl.owned
  | unary _ _ _ _ _ hb => exact hb.owned
  | reduction hs _ hr => exact fun b hb => (List.mem_append.1 hb).elim (hs.owned b) (hr.owned b)
  | lookup => simp
  | rescale => simp
  | clamp _ _ _ _ _ _ _ hbr => exact hbr.owned

end

section

variable [Platform] {g : Circuit.Graph} {layout : Layout} {lookupBits : Json} {p : Plan}
  {journal : List Event} {zb : Allocation} {xs : List Entry} {outs : List Event}

theorem Planned.touched_cases (h : Planned g layout lookupBits p journal zb xs outs) {x : Entry}
    (hx : x ∈ xs) {s : Step} (hs : s ∈ x.steps) {c : Int} (hc : c ∈ s.instruction.touched) :
    c ∈ s.instruction.sources ∨ ∃ t ∈ p.tables, TableOf g lookupBits x.op t ∧
      ∃ b ∈ p.allocator.allocations, c ∈ b.cells ∧ b.kind = .table ∧ b.address = t.address := by
  obtain ⟨before, hv⟩ := h.valid hx
  rcases hv.template.instruction hs with ha | ⟨-, t, ht, hof, dest, key, hi⟩
  · generalize s.instruction = i at ha hc
    cases i with
    | lookup | halt => simp [Instruction.isArithmetic] at ha
    | _ =>
      refine .inl ?_
      simpa [Instruction.touched, Instruction.reads, Instruction.form, Instruction.sources]
        using hc
  · obtain ⟨hfold, b, hb, hk, hadr, hsz⟩ := h.sound.table t ht
    have hpos : 0 < t.rows.size := by simpa using Table.fold_pos hfold
    have hcells : ∀ k : Nat, (k : Int) < 2 * t.rows.size → t.address.absolute + k ∈ b.cells := by
      intro k hk
      rw [Allocation.mem_cells, hadr, hsz]
      omega
    rw [hi] at hc
    simp only [Instruction.touched, Instruction.reads, Instruction.form, List.cons_append,
      List.nil_append, List.mem_cons, List.mem_map, List.mem_range] at hc
    rcases hc with rfl | rfl | ⟨k, hlt, rfl⟩
    · exact .inl (by simp [hi, Instruction.sources])
    · exact .inr ⟨t, ht, hof, b, hb, by simpa using hcells 0 (by omega), hk, hadr⟩
    · exact .inr ⟨t, ht, hof, b, hb, hcells k (by omega), hk, hadr⟩

theorem Planned.confined (h : Planned g layout lookupBits p journal zb xs outs) {x : Entry}
    (hx : x ∈ xs) : Confined g lookupBits p x.block x.scratch := by
  obtain ⟨before, hv⟩ := h.valid hx
  refine ⟨?_, ?_, ?_⟩
  · intro b hb
    obtain ⟨n, hown⟩ := hv.template.owned b hb
    exact hown.name
  · intro s hs c hc
    rcases h.touched_cases hx hs hc with hc | ⟨t, ht, hof, b, hb, hcb, hk, hadr⟩
    · obtain ⟨out, -, hf⟩ := h.fills hx
      obtain ⟨us, vs, hsplit⟩ := List.append_of_mem hs
      rcases hf.bound.split hsplit c hc with hr | hd
      · rcases h.readable_cases hr with hz | ⟨b, hb, hcb, hk, hn⟩
        · exact .inl hz
        · exact .inr ⟨b, hb, hcb, .inl ⟨hk, hn⟩⟩
      · have hw : c ∈ dests true x.steps := by
          rw [show x.steps = us ++ s :: vs from hsplit, dests_append]
          exact List.mem_append_left _ hd
        rw [hf.derived.mem_iff, List.mem_flatMap] at hw
        obtain ⟨b, hb, hcb⟩ := hw
        exact .inr ⟨b, (h.mem_scratch.2 ⟨x, hx, hb⟩).1, hcb, .inr (.inl hb)⟩
    · exact .inr ⟨b, hb, hcb, .inr (.inr ⟨t, ht, hof, hk, hadr⟩)⟩
  · intro s hs c hc
    obtain ⟨b, hb, hcb, hown⟩ :=
      (h.mem_entry_writes hx).1 (List.mem_filterMap.2 ⟨s, hs, hc⟩)
    exact ⟨b, hb, hcb, hown.symm⟩

theorem Planned.total (h : Planned g layout lookupBits p journal zb xs outs) {s : Step}
    (hs : s ∈ p.steps) : s.instruction.dest?.isSome := by
  rw [h.steps_eq] at hs
  obtain ⟨x, hx, hs⟩ := List.mem_flatMap.1 hs
  obtain ⟨before, hv⟩ := h.valid hx
  rcases hv.template.instruction hs with ha | ⟨-, t, -, -, dest, key, hi⟩
  · generalize s.instruction = i at ha
    cases i with
    | halt => simp [Instruction.isArithmetic] at ha
    | _ => rfl
  · rw [hi]
    rfl

theorem Planned.never (hg : g.WellFormed) (h : Planned g layout lookupBits p journal zb xs outs)
    {c : Int} (hc : c = p.zero ∨ SourceCell g p.allocator c ∨ TableCell p.allocator c) :
    c ∉ writes p.steps := by
  intro hw
  obtain ⟨b, hb, hcb, hk⟩ := (h.mem_plan_writes hg).1 hw
  rcases hc with rfl | ⟨b', hb', hcb', hk', hnone⟩ | ⟨b', hb', hcb', hk'⟩
  · obtain ⟨hz, hcz⟩ := h.zero_mem
    obtain rfl := h.sound.tiles.owner_unique hb hz hcb hcz
    rcases hk with hk | ⟨hk, -⟩ <;> exact absurd (h.kind.symm.trans hk) (by simp)
  · obtain rfl := h.sound.tiles.owner_unique hb hb' hcb hcb'
    rcases hk with hk | ⟨-, o, ho, hn⟩
    · exact absurd (hk'.symm.trans hk) (by simp)
    · exact hnone o ho hn
  · obtain rfl := h.sound.tiles.owner_unique hb hb' hcb hcb'
    rcases hk with hk | ⟨hk, -⟩ <;> exact absurd (hk'.symm.trans hk) (by simp)

theorem Planned.touched_before (hg : g.WellFormed)
    (h : Planned g layout lookupBits p journal zb xs outs) {pre post : List Step} {s : Step}
    (hs : p.steps = pre ++ s :: post) {c : Int} (hc : c ∈ s.instruction.touched) :
    (∃ b ∈ p.allocator.allocations, c ∈ b.cells) ∧
      (c = p.zero ∨ SourceCell g p.allocator c ∨ TableCell p.allocator c ∨ c ∈ writes pre) := by
  have hm : s ∈ xs.flatMap Entry.steps := by
    rw [← h.steps_eq, hs]
    simp
  obtain ⟨x, hx, hsx⟩ := List.mem_flatMap.1 hm
  rcases h.touched_cases hx hsx hc with hc | ⟨t, -, -, b, hb, hcb, hk, -⟩
  · rcases h.sources_before hg hs c hc with rfl | hw | ⟨b, hb, hcb, hk, hnone⟩
    · exact ⟨⟨zb, h.zero_mem⟩, .inl rfl⟩
    · have hall : c ∈ writes p.steps := by
        rw [hs, writes_append]
        exact List.mem_append_left _ hw
      obtain ⟨b, hb, hcb, -⟩ := (h.mem_plan_writes hg).1 hall
      exact ⟨⟨b, hb, hcb⟩, .inr (.inr (.inr hw))⟩
    · exact ⟨⟨b, hb, hcb⟩, .inr (.inl ⟨b, hb, hcb, hk, hnone⟩)⟩
  · exact ⟨⟨b, hb, hcb⟩, .inr (.inr (.inl ⟨b, hb, hcb, hk⟩))⟩

theorem Planned.singleAssignment (hg : g.WellFormed)
    (h : Planned g layout lookupBits p journal zb xs outs) : SingleAssignment g lookupBits p := by
  have hw : targets p.instructions = writes p.steps := targets_map p.steps
  constructor
  · have hops : p.blocks.map (·.op) = xs.map (·.op) := by
      rw [h.blocks, List.map_map]
      rfl
    rw [hops]
    exact ⟨h.order, h.topological hg⟩
  · intro id hid
    obtain ⟨b, hb, hk, rfl⟩ := h.placed hg hid
    obtain ⟨-, t, ht, hs, -⟩ := h.sound.tensor b hb hk
    exact ⟨t, ht, b, hb, hk, rfl, hs⟩
  · intro i hi
    obtain ⟨s, hs, rfl⟩ := List.mem_map.1 hi
    exact h.total hs
  · rw [hw]
    exact h.writes_nodup hg
  · intro c
    rw [hw]
    exact h.mem_plan_writes hg
  · intro c hc
    rw [hw]
    exact h.never hg hc
  · intro pre i post hs
    obtain ⟨before, rest, hsteps, rfl, hrest⟩ := List.map_eq_append_iff.1 hs
    obtain ⟨s, after, rfl, rfl, rfl⟩ := List.map_eq_cons_iff.1 hrest
    rw [targets_map]
    exact fun c => h.touched_before hg hsteps
  · refine ⟨xs.map Entry.scratch, h.scratch_eq, ?_⟩
    rw [h.blocks, List.forall₂_map_left_iff, List.forall₂_map_right_iff, List.forall₂_same]
    exact fun x hx => h.confined hx

end

end Lowering

/-- Lowered programs are in single-assignment form. -/
theorem Program.lower_singleAssignment [Platform] {doc given : Json} {g : Circuit.Graph}
    {w : Witness} {name : String} {layout : Layout} {lookupBits : Json} {m : Int} {p : Program}
    (hg : Circuit.read doc = .ok g) (hw : Witness.read m g given = .ok w)
    (h : (lower name g w layout lookupBits m).1 = .ok p) :
    Lowering.SingleAssignment g lookupBits p.plan := by
  have hwf := Circuit.read_wellFormed hg
  have hcomplete := Witness.read_complete hw
  obtain ⟨plan, journal, values, done, hplan, -, rfl⟩ := lower_eq_ok hcomplete h
  obtain ⟨zb, xs, outs, hp⟩ := Lowering.plan_planned hcomplete.measured hwf hplan
  exact hp.singleAssignment hwf

namespace Sample

def circuit : Json := .obj [
  ("tensors", .arr [
    .obj [("id", .str "x"), ("shape", .arr [.int 1]), ("scale", .int 1)],
    .obj [("id", .str "k"), ("shape", .arr [.int 1]), ("visibility", .str "fixed")],
    .obj [("id", .str "y"), ("shape", .arr [.int 1])],
    .obj [("id", .str "z"), ("shape", .arr [.int 1])]]),
  ("operations", .arr [
    .obj [("id", .int 1), ("kind", .str "mul"), ("inputs", .arr [.str "x", .str "k"]),
      ("output", .str "y")],
    .obj [("id", .int 2), ("kind", .str "relu"), ("inputs", .arr [.str "y"]),
      ("output", .str "z")]]),
  ("inputs", .arr [.str "x"]),
  ("outputs", .arr [.str "z"])]

def graph : Circuit.Graph :=
  ⟨[⟨"x", [1], 1, .priv⟩, ⟨"k", [1], 0, .fixed⟩, ⟨"y", [1], 0, .priv⟩, ⟨"z", [1], 0, .priv⟩],
    [⟨1, "mul", ["x", "k"], "y", 0, []⟩, ⟨2, "relu", ["y"], "z", 0, []⟩], ["x"], ["z"]⟩

def values : Json :=
  .obj [("x", .arr [.int 2]), ("k", .arr [.int 3]), ("y", .arr [.int 3]), ("z", .arr [.int 3])]

def witness : Witness :=
  [("k", ⟨[1], #[3]⟩), ("x", ⟨[1], #[2]⟩), ("y", ⟨[1], #[3]⟩), ("z", ⟨[1], #[3]⟩)]

theorem read_circuit : Circuit.read circuit = .ok graph := by
  cbv

theorem read_values : Witness.read Field.defaultModulus graph values = .ok witness := by
  cbv

theorem exists_ok {α : Type} {e : Except Fault α} (h : e.toOption.isSome = true) :
    ∃ a, e = .ok a := by
  cases e with
  | error f => simp [Except.toOption] at h
  | ok a => exact ⟨a, rfl⟩

theorem lowers :
    ∃ p, (Program.lower "sample" graph witness default (.int 3) Field.defaultModulus).1 = .ok p :=
  exists_ok (by decide +kernel)

end Sample

/-- A product that is rescaled and then looked up. -/
theorem Program.sample_singleAssignment :
    ∃ p, (lower "sample" Sample.graph Sample.witness default (.int 3) Field.defaultModulus).1
        = .ok p ∧
      Lowering.SingleAssignment Sample.graph (.int 3) p.plan := by
  obtain ⟨p, h⟩ := Sample.lowers
  exact ⟨p, h, lower_singleAssignment Sample.read_circuit Sample.read_values h⟩

end TensorAsm
