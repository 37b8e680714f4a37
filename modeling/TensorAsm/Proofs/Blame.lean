import Mathlib
import TensorAsm.Proofs.Faults
import TensorAsm.Proofs.Soundness
import TensorAsm.Proofs.Strictness
/-!
What the report of a strict replay points at: an instruction of the first operation on which the
witness disagrees with the reference, and a cell of its output, or one of its input when its table
has no row for that.
-/

namespace TensorAsm

namespace Machine

/-- A report that is true of a machine: the counter is right, and so is what is said of the cell. -/
def State.Tells (s : State) (m : Int) (n : Inconsistency) : Prop :=
  n.pc = s.pc ∧
    match n.cause with
    | .absent => s.memory[n.address]? = none
    | .mismatch held _ => s.memory[n.address]? = some held
    | .outsideTable v _ => ∃ e, s.memory[n.address]? = some e ∧ v = Field.centre m e

/-- If there is a report, it is true. -/
def State.Honest {α : Type} (s : State) (m : Int) (r : Except Fault α) : Prop :=
  ∀ n, r = .error (.compile (.replay n)) → s.Tells m n

namespace State

variable {α β : Type} {s : State} {m : Int}

theorem honest_ok (a : α) : s.Honest m (.ok a) := by
  rintro n ⟨⟩

theorem honest_plain {f : Fault} (h : f.Plain) : s.Honest m (.error f : Except Fault α) := by
  rintro n hn
  exact absurd (Except.error.inj hn) (h _)

theorem Honest.fault {x : Except Fault α} {f : Fault} (hx : s.Honest m x) (h : x = .error f) :
    s.Honest m (.error f : Except Fault β) :=
  fun n hn => hx n (h.trans (congrArg _ (Except.error.inj hn)))

theorem Honest.bind {x : Except Fault α} {f : α → Except Fault β} (hx : s.Honest m x)
    (hf : ∀ a, x = .ok a → s.Honest m (f a)) : s.Honest m (x >>= f) := by
  cases x with
  | error e => exact hx.fault rfl
  | ok a => exact hf a rfl

theorem honest_read (a : Int) : s.Honest m (s.read a) := by
  intro n hn
  unfold read at hn
  split at hn
  · exact absurd hn (by simp)
  · next hnone =>
      cases hn
      exact ⟨rfl, hnone⟩

theorem honest_nonzero (v : Int) : s.Honest m (Field.nonzero m v) := by
  unfold Field.nonzero
  split
  · exact honest_plain fun e => by simp
  · exact honest_ok v

theorem honest_rescale? [Platform] (v shift : Int) : s.Honest m (Quantity.rescale? v shift) := by
  rw [Quantity.rescale?]
  split
  · next hf => exact honest_plain (Table.rescaleFault_plain hf)
  · exact honest_ok _

theorem honest_addRows (t : Memory) (base : Int) (n : Nat) : s.Honest m (s.addRows t base n) := by
  induction n generalizing t base with
  | zero => exact honest_ok t
  | succ n ih =>
    rw [addRows]
    split
    · next hr => exact (honest_read base).fault hr
    · split
      · next hr => exact (honest_read (base + 1)).fault hr
      · exact ih _ _

theorem honest_search (t : Memory) (cell table : Int) : s.Honest m (s.search m t cell table) := by
  refine (honest_read cell).bind fun key hkey => ?_
  split
  · exact honest_ok _
  · refine (honest_nonzero (Field.centre m key)).bind fun v hv n hn => ?_
    cases hn
    exact ⟨rfl, key, read_eq_ok.1 hkey, (nonzero_eq_ok.1 hv).2.symm⟩

theorem honest_table (base rows : Int) : s.Honest m (s.table base rows).1 := by
  unfold table
  split
  · exact honest_ok _
  · split
    · exact honest_ok _
    · next hb => exact (honest_addRows ∅ base rows.toNat).fault hb

theorem honest_compute [Platform] (i : Instruction) : s.Honest m (s.compute m i).1 := by
  cases i with
  | add _ a b | sub _ a b | mul _ a b =>
    exact (honest_read a).bind fun _ _ => (honest_read b).bind fun _ _ => honest_nonzero _
  | mac _ c a b =>
    exact (honest_read c).bind fun _ _ => (honest_read a).bind fun _ _ =>
      (honest_read b).bind fun _ _ => honest_nonzero _
  | rescale _ a shift =>
    exact (honest_read a).bind fun _ _ => (honest_nonzero _).bind fun _ _ =>
      (honest_rescale? _ shift).bind fun _ _ => honest_nonzero _
  | clamp _ a lo hi =>
    exact (honest_read a).bind fun _ _ => (honest_nonzero _).bind fun _ _ => honest_nonzero _
  | lookup _ a base rows =>
    have ht := honest_table (s := s) (m := m) base rows
    obtain ⟨tables, hkept⟩ := s.table_kept base rows
    rw [compute]
    rcases hr : s.table base rows with ⟨f | t, next⟩
    · exact ht.fault (congrArg Prod.fst hr)
    · rw [hr] at hkept
      obtain rfl := hkept
      exact honest_search (s := { s with tables := tables }) t a base
  | halt => exact honest_ok 0

theorem honest_accepts (c : Settings) (a held v : Int) :
    s.Honest c.modulus (c.accepts a held v) := by
  unfold Settings.accepts
  split
  · exact honest_ok _
  split
  · exact honest_plain fun e => by simp
  split
  · exact honest_ok _
  refine (honest_nonzero _).bind fun _ _ => (honest_nonzero _).bind fun _ _ => Honest.bind ?_ ?_
  · intro n hn
    exact absurd rfl (Table.floatOfInt_plain hn _)
  · exact fun _ _ => honest_ok _

theorem honest_permits (c : Settings) (d v : Int) : s.Honest c.modulus (c.permits s d v) := by
  unfold Settings.permits
  split
  · next held _ hm =>
      split
      · exact honest_ok _
      · refine (honest_accepts c d held v).bind fun b _ => ?_
        cases b with
        | true => exact honest_ok _
        | false =>
          rintro n ⟨⟩
          exact ⟨rfl, hm⟩
  · exact honest_ok _

end State

theorem step_tells [Platform] {c : Settings} {s t : State} {i : Instruction} {n : Inconsistency}
    (h : step c s i = (t, some (.compile (.replay n)))) : s.Tells c.modulus n := by
  have hs := step_stepped c s i
  rw [h] at hs
  cases hs with
  | failed _ hr => exact State.honest_compute i n (congrArg Prod.fst hr)
  | refused _ _ hp => exact State.honest_permits c _ _ n hp

end Machine

/-- What is reported of an operation: an element of its output that is not congruent to the
reference, or one of its input that is outside of its table. -/
inductive Witness.Blamed [Platform] (w : Witness) (g : Circuit.Graph) (lookupBits : Json) (m : Int)
    (a : Allocator) (o : Circuit.Operation) (n : Inconsistency) : Prop
  | output {t : Circuit.Tensor} {b : Allocation} {index : List Nat} {r : Int} :
      g.tensor? o.output = some t → a.bound? .tensor o.output = some b →
      index ∈ Shape.indices t.shape → n.address = b.address.absolute + Shape.flat t.shape index →
      Semantics.exact.reference g lookupBits w.value o index = some r →
      ¬ w.value o.output (Shape.flat t.shape index) ≡ r [ZMOD m] →
      n.cause = .mismatch (Field.encode m (w.value o.output (Shape.flat t.shape index)))
        (Field.encode m r) →
      w.Blamed g lookupBits m a o n
  | input {kind : Circuit.Kind} {id : String} {t : Circuit.Tensor} {b : Allocation} {i : Nat}
      {spec : Table.Spec} {base : Int} : o.kind? = some kind → kind.category = .nonlinearity →
      o.inputs = [id] → g.tensor? id = some t → a.bound? .tensor id = some b →
      i < Shape.volume t.shape → n.address = b.address.absolute + i →
      Table.specFor o t.scale lookupBits = .ok spec →
      ¬ (-spec.half ≤ w.value id i ∧ w.value id i < spec.half) →
      n.cause = .outsideTable (w.value id i) base →
      w.Blamed g lookupBits m a o n

namespace Program.Lowered

open Lowering

variable [Platform] {g : Circuit.Graph} {w : Witness} {lookupBits : Json} {m : Int} {p : Program}
  {values : Values}

theorem order_blocks (h : Lowered g w lookupBits m p values) :
    g.order = .ok (p.plan.blocks.map (·.op)) := by
  obtain ⟨layout, journal, zb, xs, outs, hp⟩ := h.planned
  rw [hp.order, hp.blocks, List.map_map]
  rfl

theorem first_refused (h : Lowered g w lookupBits m p values) (hm : 2 ^ 24 < m)
    {cells : List Cell} (hc : (MemoryTable.write p).1 = .ok cells) {tolerant : List Int}
    {n : Inconsistency} (hrun : (Machine.run (.exacting m tolerant) p.instructions
      (.start (MemoryTable.cellMap (MemoryTable.entries cells)))).2 =
        some (.compile (.replay n))) :
    ∃ pre blk post us s vs u, p.plan.blocks = pre ++ blk :: post ∧ blk.steps = us ++ s :: vs ∧
      (∀ b ∈ pre, ∀ s ∈ b.steps,
        Holds (.field m) p.plan.look (fun a => Field.encode m (values.cell a)) s.instruction) ∧
      n.pc = (pre.flatMap (·.steps)).length + us.length ∧
      (∀ a : Int, u.memory[a]? = (MemoryTable.cellMap (MemoryTable.entries cells))[a]?) ∧
      u.Tells m n ∧
      Machine.Objection p.plan.tables u (fun a => Field.encode m (values.cell a)) s.instruction
        (s.instruction.eval (.field m) p.plan.look fun a => Field.encode m (values.cell a))
        (.compile (.replay n)) := by
  have hm0 : m ≠ 0 := by omega
  rw [Machine.run_start] at hrun
  rcases Machine.runThrough_strict_cases (c := .exacting m tolerant) hm0 rfl rfl h.sound.single
      h.look_eq (h.stocked hm0 hc) rfl (fun i => h.instruction_stands hm hc) with
    ⟨hnone, -⟩ | ⟨ipre, i, ipost, u, last, f, hsplit, hall, hpc, hmem, hstep, hf, hobj⟩
  · exact absurd (hrun.symm.trans hnone) (by simp)
  · rw [hf] at hrun
    obtain rfl := Option.some.inj hrun
    obtain ⟨spre, srest, hsteps, rfl, hrest⟩ := List.map_eq_append_iff.1 hsplit
    obtain ⟨s, spost, rfl, rfl, rfl⟩ := List.map_eq_cons_iff.1 hrest
    obtain ⟨pre, blk, post, us, vs, hb, hs, rfl⟩ := Sequences.flatMap_split hsteps
    have htells := Machine.step_tells hstep
    refine ⟨pre, blk, post, us, s, vs, u, hb, hs, fun b hb s hs => ?_, ?_, hmem, htells, hobj⟩
    · exact hall _ (List.mem_map.2 ⟨s, by simp [List.mem_flatMap.2 ⟨b, hb, hs⟩], rfl⟩)
    · rw [htells.1, hpc]
      simp [Machine.State.start]

theorem blamed (h : Lowered g w lookupBits m p values) (hodd : m % 2 = 1) (hm : 2 ^ 24 < m)
    {cells : List Cell} (hc : (MemoryTable.write p).1 = .ok cells) {blk : Block}
    (hblk : blk ∈ p.plan.blocks) {s : Step} (hs : s ∈ blk.steps) {u : Machine.State}
    {n : Inconsistency}
    (hmem : ∀ a : Int, u.memory[a]? = (MemoryTable.cellMap (MemoryTable.entries cells))[a]?)
    (ht : u.Tells m n)
    (hobj : Machine.Objection p.plan.tables u (fun a => Field.encode m (values.cell a))
      s.instruction (s.instruction.eval (.field m) p.plan.look fun a =>
        Field.encode m (values.cell a)) (.compile (.replay n))) :
    w.Blamed g lookupBits m p.plan.allocator blk.op n := by
  have hm0 : 0 < m := by omega
  have hsp : s ∈ p.plan.steps := List.mem_flatMap.2 ⟨blk, hblk, hs⟩
  generalize hf : Fault.compile (.replay n) = f at hobj
  cases hobj with
  | @mismatch d v hd hv hne =>
    cases hf
    -- derived cells always hold their results, so that the step is one for the output
    have hder : s.derived = false := by
      by_contra hder
      have hh := h.derived_holds_encode hodd hm0 hsp (by simpa using hder) d hd
      exact hne (Option.some.inj (hh.symm.trans hv))
    obtain ⟨out, index, hout, hi, rfl, heval⟩ := h.step_element hblk hs hder hd
    obtain ⟨b, hb, hbase, -⟩ := hout.block h.sound
    have hcell := h.cell_placed hout (Shape.flat_lt hi)
    rw [h.eval_encode hodd hm0 hsp, heval] at hv
    obtain ⟨r, hr, rfl⟩ := Option.map_eq_some_iff.1 hv
    rw [Operand.cell] at hcell
    rw [Ne, Field.encode_eq_iff hm0, hcell] at hne
    exact .output hout.tensor hb hi (by rw [hbase]; rfl) hr hne (by rw [hcell]; rfl)
  | excused _ hex =>
    generalize hins : s.instruction = i at hex
    cases hex with
    | tooFar hfar => exact absurd hf.symm (Table.rescaleFault_plain hfar _)
    | @outside t dest cell pc key htab hkey =>
      cases hf
      obtain ⟨bs, htemp⟩ := h.template hblk
      rcases htemp.arithmetic_or_consults hs with
        ha | @⟨kind, id, x, spec, t', i, dest', hk, hcat, hid, hx, hspec, ht', hfold, hi, -,
          hs'⟩
      · rw [hins] at ha
        exact absurd ha (by simp [Instruction.isArithmetic])
      · rw [hins] at hs'
        obtain ⟨-, rfl, hbase, -⟩ := Instruction.lookup.inj hs'
        obtain rfl := h.sound.single t htab t' ht' hbase
        obtain ⟨b, hb, hbase, -⟩ := hx.block h.sound
        obtain ⟨-, e, he, hkey'⟩ := ht
        have hsrc : x.cell i ∈ s.instruction.sources := by
          rw [hins]
          exact List.mem_singleton.2 rfl
        have hstands := (h.instruction_stands hm hc (List.mem_map.2 ⟨s, hsp, rfl⟩)).2.1
          _ hsrc
        rw [hmem, hstands.1] at he
        obtain rfl := Option.some.inj he
        rw [h.centre_source hodd hm0 hsp hsrc, h.cell_placed hx hi] at hkey'
        subst hkey'
        refine .input hk hcat hid hx.tensor hb hi (by rw [hbase]; rfl) (hx.scale ▸ hspec) ?_ rfl
        rw [← Table.mem_fold_inputs hfold, List.mem_map]
        rintro ⟨r, hr, hrx⟩
        exact hkey r (by simpa using hr) hrx

theorem blamed_tensor (h : Lowered g w lookupBits m p values) {o : Circuit.Operation}
    {n : Inconsistency} (hn : w.Blamed g lookupBits m p.plan.allocator o n) :
    ∀ b ∈ p.plan.allocator.allocations, n.address ∈ b.cells → b.kind = .tensor := by
  have hkey : ∀ (id : String) (t : Circuit.Tensor) (b : Allocation) (i : Nat),
      g.tensor? id = some t → p.plan.allocator.bound? .tensor id = some b →
      i < Shape.volume t.shape → n.address = b.address.absolute + i →
      ∀ c ∈ p.plan.allocator.allocations, n.address ∈ c.cells → c.kind = .tensor := by
    intro id t b i ht hb hi hn c hc hnc
    obtain ⟨hmem, hk, rfl⟩ := h.sound.coherent.bound_mem hb
    obtain ⟨-, t', ht', hsize, -⟩ := h.sound.tensor b hmem hk
    obtain rfl := Option.some.inj (ht.symm.trans ht')
    have hnb : n.address ∈ b.cells := by
      rw [hn]
      exact Allocation.cell_mem (by omega)
    rw [← h.sound.tiles.owner_unique hmem hc hnb hnc, hk]
  cases hn with
  | output ht hb hi hn => exact hkey _ _ _ _ ht hb (Shape.flat_lt hi) hn
  | input _ _ _ ht hb hi hn => exact hkey _ _ _ _ ht hb hi hn

end Program.Lowered

/-- A report of a strict replay is about an instruction of the first operation, in the order of the
circuit, on which the witness disagrees with the reference. Its cell is one of the output of that
operation, or of its input, and of no block but a tensor's. -/
theorem Program.report_first_disagreement [Platform] {doc given : Json} {g : Circuit.Graph}
    {w : Witness} {name : String} {layout : Layout} {lookupBits : Json} {m : Int} {p : Program}
    (hg : Circuit.read doc = .ok g) (hw : Witness.read m g given = .ok w) (hodd : m % 2 = 1)
    (hm : 2 ^ 24 < m) (h : (lower name g w layout lookupBits m).1 = .ok p) {cells : List Cell}
    (hc : (MemoryTable.write p).1 = .ok cells) {tolerant : List Int} {n : Inconsistency}
    (hrun : (Machine.run (.exacting m tolerant) p.instructions
      (.start (MemoryTable.cellMap (MemoryTable.entries cells)))).2 =
        some (.compile (.replay n))) :
    ∃ pre blk post, p.plan.blocks = pre ++ blk :: post ∧
      g.order = .ok (pre.map (·.op) ++ blk.op :: post.map (·.op)) ∧
      (∀ b ∈ pre, w.Agrees g lookupBits m b.op) ∧ ¬ w.Agrees g lookupBits m blk.op ∧
      (∃ k < blk.steps.length, n.pc = (pre.flatMap (·.steps)).length + k) ∧
      w.Blamed g lookupBits m p.plan.allocator blk.op n ∧
      ∀ b ∈ p.plan.allocator.allocations, n.address ∈ b.cells → b.kind = .tensor := by
  obtain ⟨values, hl⟩ := lower_lowered hg hw h
  have hpos : 0 < m := by omega
  obtain ⟨pre, blk, post, us, s, vs, u, hb, hs, hall, hpc, hmem, htells, hobj⟩ :=
    hl.first_refused hm hc hrun
  have hblk : blk ∈ p.plan.blocks := by simp [hb]
  have hin : s ∈ blk.steps := by simp [hs]
  have hblamed := hl.blamed hodd hm hc hblk hin hmem htells hobj
  refine ⟨pre, blk, post, hb, ?_, fun b hmem => ?_, fun hagrees => ?_, ⟨us.length, ?_, hpc⟩,
    hblamed, hl.blamed_tensor hblamed⟩
  · rw [hl.order_blocks, hb, List.map_append, List.map_cons]
  · exact (hl.block_holds_iff hodd hpos (by simp [hb, hmem])).1 (hall b hmem)
  · have hold := (hl.block_holds_iff hodd hpos hblk).2 hagrees s hin
    have hsp : s ∈ p.plan.steps := List.mem_flatMap.2 ⟨blk, hblk, hin⟩
    obtain ⟨-, -, d, hd, -⟩ := hl.instruction_stands hm hc (List.mem_map.2 ⟨s, hsp, rfl⟩)
    exact hobj.not_holds hd hold
  · simp [hs]

namespace BeyondTable

def values : Json :=
  .obj [("x", .arr [.int 2]), ("k", .arr [.int 4]), ("y", .arr [.int 4]), ("z", .arr [.int 4])]

def witness : Witness :=
  [("k", ⟨[1], #[4]⟩), ("x", ⟨[1], #[2]⟩), ("y", ⟨[1], #[4]⟩), ("z", ⟨[1], #[4]⟩)]

theorem read_values : Witness.read Field.defaultModulus Sample.graph values = .ok witness := by
  cbv

theorem lowers : ∃ p,
    (Program.lower "sample" Sample.graph witness default (.int 3) Field.defaultModulus).1 = .ok p :=
  Sample.exists_ok (by decide +kernel)

def report? : Fault → Option Inconsistency
  | .compile (.replay n) => some n
  | _ => none

theorem report?_eq_some {f : Fault} {n : Inconsistency} (h : report? f = some n) :
    f = .compile (.replay n) := by
  unfold report? at h
  split at h
  · rw [Option.some.inj h]
  · exact absurd h (by simp)

theorem reports :
    ((Program.lower "sample" Sample.graph witness default (.int 3)
      Field.defaultModulus).1.toOption.bind fun p =>
        (MemoryTable.write p).1.toOption.bind fun cells =>
        (Machine.run (.exacting Field.defaultModulus []) p.instructions
          (.start (MemoryTable.cellMap (MemoryTable.entries cells)))).2.bind report?).map
            (fun n => (n.address, n.pc)) = some (327696, 2) := by
  decide +kernel

end BeyondTable

/-- The product is right, but too large for the table of the operation behind it. -/
theorem Program.sample_beyond_table :
    ∃ p cells n,
      (lower "sample" Sample.graph BeyondTable.witness default (.int 3) Field.defaultModulus).1
        = .ok p ∧
      (MemoryTable.write p).1 = .ok cells ∧
      (Machine.run (.exacting Field.defaultModulus []) p.instructions
        (.start (MemoryTable.cellMap (MemoryTable.entries cells)))).2 =
          some (.compile (.replay n)) ∧
      n.pc = 2 ∧ ∃ pre blk post, p.plan.blocks = pre ++ blk :: post ∧
        BeyondTable.witness.Blamed Sample.graph (.int 3) Field.defaultModulus p.plan.allocator
          blk.op n := by
  obtain ⟨p, h⟩ := BeyondTable.lowers
  obtain ⟨values, hl⟩ := lower_lowered Sample.read_circuit BeyondTable.read_values h
  obtain ⟨cells, hc⟩ := (hl.write_iff (by decide)).2 (by rw [Sample.required]; decide)
  have hreports := BeyondTable.reports
  rw [h, Except.toOption, Option.bind_some, hc, Except.toOption, Option.bind_some,
    Option.map_eq_some_iff] at hreports
  obtain ⟨n, hn, hat⟩ := hreports
  obtain ⟨f, hf, hn⟩ := Option.bind_eq_some_iff.1 hn
  rw [BeyondTable.report?_eq_some hn] at hf
  obtain ⟨pre, blk, post, hb, -, -, -, -, hblamed, -⟩ := report_first_disagreement
    Sample.read_circuit BeyondTable.read_values (by decide) (by decide) h hc hf
  exact ⟨p, cells, n, h, hc, hf, (Prod.mk.inj hat).2, pre, blk, post, hb, hblamed⟩

end TensorAsm
