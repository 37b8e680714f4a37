import TensorAsm.Proofs.RefinedPrograms
import TensorAsm.Proofs.Replay
/-!
Operations one at a time. What an operation emits can be run alone, over any memory that holds its
inputs and, where it reads the zero cell, zero: it gets through, or it stops where a value cannot be
rescaled.
-/

namespace TensorAsm

open Lowering
open Stateful (yields_bind yields_pure yields_modify yields_or_fails)

namespace Emitter

variable [Platform]

/-- The emitter comes to the operations behind some: the zero cell is placed and these are
lowered. -/
inductive Reaches (g : Circuit.Graph) (w : Witness) (layout : Layout) (lookupBits : Json) (m : Int)
    (pre : List Circuit.Operation) : Setting → State → Prop
  | intro {zero : Address} {d e : State} :
      (request (·.control zeroName)).Yields (State.empty g layout) zero d →
      (pre.forM (lowerNode ⟨⟨g, lookupBits, zero.absolute⟩, w, m⟩)).Yields d () e →
      Reaches g w layout lookupBits m pre ⟨⟨g, lookupBits, zero.absolute⟩, w, m⟩
        { e with current := #[] }

section

variable {g : Circuit.Graph} {w : Witness} {layout : Layout} {lookupBits : Json} {m : Int}
  {pre post : List Circuit.Operation} {o : Circuit.Operation} {kind : Circuit.Kind} {s : Setting}
  {e e' : State} {f : Fault}

theorem Reaches.setting (h : Reaches g w layout lookupBits m pre s e) :
    s.graph = g ∧ s.witness = w ∧ s.modulus = m ∧ e.current = #[] := by
  cases h
  exact ⟨rfl, rfl, rfl, rfl⟩

theorem Reaches.tracks (h : Reaches g w layout lookupBits m pre s e) (hw : w.Complete m g)
    (ho : ∀ o ∈ pre, o ∈ g.operations) : ∃ d v, Tracks s e d v := by
  cases h with
  | @intro zero d e hz hpre =>
    obtain ⟨d, ht⟩ := control_tracks w lookupBits m hz
    obtain ⟨-, d', v, -, ht⟩ := (lowerNodes_refines hw ho ht).yields hpre
    exact ⟨{ d' with current := [] }, v, { ht with allocator := ht.allocator, current := rfl }⟩

theorem lowerNode_start (hk : o.kind? = some kind) (e : State) :
    Id.run ((lowerNode s o).run { e with current := #[] }) = Id.run ((lowerNode s o).run e) := by
  rw [lowerNode, hk]
  rfl

theorem Reaches.fails_iff (h : Reaches g w layout lookupBits m pre s e)
    (hk : o.kind? = some kind) :
    (lowerNode s o).Fails e f e' ↔ (lowerKind s o kind).Fails e f e' := by
  have hstart : start.Yields e () e := by
    rw [start, yields_modify, ← h.setting.2.2.2]
  have hnode : lowerNode s o = start >>= fun _ => lowerKind s o kind >>= fun _ => finish o := by
    rw [lowerNode, hk]
  rw [hnode]
  rcases yields_or_fails (lowerKind s o kind) e with ⟨u, d, hy⟩ | ⟨f', d, hf⟩
  · -- closing the block does not fail
    have hboth : (start >>= fun _ => lowerKind s o kind >>= fun _ => finish o).Yields e () _ :=
      yields_bind.2 ⟨(), e, hstart, yields_bind.2 ⟨u, d, hy, rfl⟩⟩
    exact ⟨fun hf => absurd hf hboth.not_fails, fun hf => absurd hf hy.not_fails⟩
  · have hboth := hstart.bind_fails (g := fun _ => lowerKind s o kind >>= fun _ => finish o)
      (hf.bind (g := fun _ => finish o))
    unfold Stateful.Fails at hboth hf ⊢
    rw [hboth, hf]

theorem Reaches.lower_fails (h : Reaches g w layout lookupBits m pre s e)
    (horder : g.order = .ok (pre ++ o :: post)) (hk : o.kind? = some kind)
    (hf : (lowerNode s o).Fails e f e') (name : String) :
    (Program.lower name g w layout lookupBits m).1 = .error f := by
  cases h with
  | @intro zero d e hz hpre =>
    have hnode : (lowerNode ⟨⟨g, lookupBits, zero.absolute⟩, w, m⟩ o).Fails e f e' :=
      (lowerNode_start hk e).symm.trans hf
    have hall : ((pre ++ o :: post).forM
        (lowerNode ⟨⟨g, lookupBits, zero.absolute⟩, w, m⟩)).Fails d f e' := by
      rw [List.forM_eq_forM, List.forM_append, List.forM_cons]
      exact hpre.bind_fails hnode.bind
    have hrun : (lowerGraph g w lookupBits m).Fails (State.empty g layout) f e' := by
      unfold lowerGraph
      refine hz.bind_fails ?_
      simp only [horder]
      exact hall.bind
    rw [Program.lower,
      show (lowerGraph g w lookupBits m).run (State.empty g layout) = (.error f, e') from hrun]

def lowerFirst (g : Circuit.Graph) (w : Witness) (lookupBits : Json) (m : Int)
    (o : Circuit.Operation) : Emitter Int := do
  let z ← request (·.control zeroName)
  lowerNode ⟨⟨g, lookupBits, z.absolute⟩, w, m⟩ o
  return z.absolute

theorem Reaches.first (hk : o.kind? = some kind) {z : Int}
    (h : (lowerFirst g w lookupBits m o).Yields (State.empty g layout) z e') :
    ∃ s e, Reaches g w layout lookupBits m [] s e ∧ (lowerNode s o).Yields e () e' ∧
      s.zero = z := by
  obtain ⟨a, d, ha, hrest⟩ := yields_bind.1 h
  obtain ⟨_, e, hnode, hpure⟩ := yields_bind.1 hrest
  obtain ⟨rfl, rfl⟩ := yields_pure.1 hpure
  exact ⟨_, _, .intro ha (yields_pure.2 ⟨rfl, rfl⟩), (lowerNode_start hk d).trans hnode, rfl⟩

def base? (a : Allocator) (t : Circuit.Tensor) : Option Int :=
  (a.bound? .tensor t.id).map (·.address.absolute)

theorem Reaches.of_run (hk : o.kind? = some kind) {z : Int} {ts : List Circuit.Tensor}
    {bases : List (Option Int)}
    (h : (Id.run ((lowerFirst g w lookupBits m o).run (State.empty g layout))).1.toOption = some z ∧
      ts.map (base? (Id.run
        ((lowerFirst g w lookupBits m o).run (State.empty g layout))).2.allocator) = bases) :
    ∃ s e e', Reaches g w layout lookupBits m [] s e ∧ (lowerNode s o).Yields e () e' ∧
      s.zero = z ∧ ts.map (base? e'.allocator) = bases := by
  rcases yields_or_fails (lowerFirst g w lookupBits m o) (State.empty g layout) with
    ⟨z', e', hy⟩ | ⟨f, e', hf⟩
  · rw [show _ = _ from hy] at h
    obtain ⟨s, e, hreach, hnode, hzero⟩ := Reaches.first hk hy
    exact ⟨s, e, e', hreach, hnode, hzero.trans (Option.some.inj h.1), h.2⟩
  · rw [show _ = _ from hf] at h
    exact absurd h.1 (by simp [Except.toOption])

end

end Emitter

namespace Lowering

variable [Platform]

/-- An operation in its blocks: they are sound, the zero cell and its scratch blocks are among them,
and it does not read what it writes. -/
structure Stands (g : Circuit.Graph) (zero : Int) (a : Allocator) (o : Circuit.Operation)
    (bs : List Allocation) : Prop where
  sound : ∃ ts, Sound g a ts
  zero : ∃ b ∈ a.allocations, b.kind = .control ∧ zero ∈ b.cells
  scratch : bs.Sublist (ofKind .scratch a.allocations)
  apart : o.output ∉ o.inputs

theorem Entry.stands {g : Circuit.Graph} {zero : Int} {d d' : Draft} {x : Entry}
    (h : Extends g d x.events d') (hs : Sound g d.allocator d.tables)
    (hz : ∃ b ∈ d.allocator.allocations, b.kind = .control ∧ zero ∈ b.cells)
    (ho : x.op.output ∉ x.op.inputs) : Stands g zero d'.allocator x.op x.scratch where
  sound := ⟨_, h.sound hs⟩
  zero := by
    obtain ⟨b, hb, hk, hc⟩ := hz
    exact ⟨b, by simp [h.allocations, hb], hk, hc⟩
  scratch := by
    rw [h.allocations, Entry.events, blocksOf_append, blocksOf_append, ofKind_append,
      ofKind_append, ofKind_append]
    exact ((List.sublist_append_right _ _).trans (List.sublist_append_left _ _)).trans
      (List.sublist_append_right _ _)
  apart := ho

/-- What an operation is lowered to stands in its blocks and fills them. -/
structure Emitted (g : Circuit.Graph) (lookupBits : Json) (zero : Int) (a : Allocator)
    (ts : List FoldedTable) (o : Circuit.Operation) (bs : List Allocation) (out : Allocation)
    (ss : List Step) : Prop where
  stands : Stands g zero a o bs
  template : Template g lookupBits zero a ts o bs ss
  output : a.bound? .tensor o.output = some out
  fills : Fills (Readable g a zero o) bs out.cells ss

theorem Emitted.arithmetic {g : Circuit.Graph} {lookupBits : Json} {zero : Int} {a : Allocator}
    {ts : List FoldedTable} {o : Circuit.Operation} {bs : List Allocation} {out : Allocation}
    {ss : List Step} (h : Emitted g lookupBits zero a ts o bs out ss) {kind : Circuit.Kind}
    (hk : o.kind? = some kind) (hcat : kind.category ≠ .nonlinearity) :
    ∀ s ∈ ss, s.instruction.isArithmetic = true := by
  intro s hs
  rcases h.template.arithmetic_or_consults hs with har | ⟨hk', hcat'⟩
  · exact har
  · obtain rfl := Option.some.inj (hk.symm.trans hk')
    exact absurd hcat' hcat

end Lowering

namespace Emitter

theorem Reaches.emitted [Platform] {doc : Json} {g : Circuit.Graph} {w : Witness} {layout : Layout}
    {lookupBits : Json} {m : Int} {pre post : List Circuit.Operation} {o : Circuit.Operation}
    {s : Setting} {e e' : State} (hread : Circuit.read doc = .ok g)
    (hw : w.Complete m g) (hreach : Reaches g w layout lookupBits m pre s e)
    (horder : g.order = .ok (pre ++ o :: post)) (h : (lowerNode s o).Yields e () e') :
    ∃ bs out steps, e'.blocks = e.blocks ++ [⟨o, steps⟩] ∧
      Emitted g s.lookupBits s.zero e'.allocator e'.tables o bs out steps := by
  have hwf := Circuit.read_wellFormed hread
  have htop := Circuit.Graph.order_topological hwf horder
  have hmem : ∀ p ∈ pre ++ o :: post, p ∈ g.operations := fun p => htop.perm.mem_iff.1
  obtain ⟨d, v, ht⟩ := hreach.tracks hw fun p hp => hmem p (by simp [hp])
  obtain ⟨rfl, rfl, rfl, -⟩ := hreach.setting
  have ho := hmem o (by simp)
  obtain ⟨_, d', v', hy, ht'⟩ := (lowerNode_refines ht hw ho).yields h
  obtain ⟨y, rfl, hext, hval⟩ := lowerNode_entry hw.measured ho ht.sound hy
  have hst := Entry.stands hext ht.sound ht.control (htop.apart hwf (by simp))
  obtain ⟨out', hout, hf⟩ := hval.template.fills
  obtain ⟨ts, hsound⟩ := hst.sound
  obtain ⟨out, hb, -, hcells⟩ := hout.block hsound
  rw [← hcells] at hf
  rw [ht'.allocator, ht'.tables, ht'.blocks, ht.blocks]
  refine ⟨y.scratch, out, y.steps, ?_, hst, hval.template, hb, hf⟩
  rw [hext.blocks, Entry.events, closedOf_append, hval.unclosed]
  rfl

end Emitter

namespace Lowering

namespace Stands

variable {g : Circuit.Graph} {zero : Int} {a : Allocator} {o : Circuit.Operation}
  {bs : List Allocation} {ok : Int → Prop} {b : Allocation} {ss : List Step}

theorem writes_cases (hf : Fills ok bs b.cells ss) {c : Int} (hc : c ∈ writes ss) :
    (∃ e ∈ bs, c ∈ e.cells) ∨ c ∈ b.cells := by
  rw [mem_writes, hf.derived.mem_iff, hf.final, List.mem_flatMap] at hc
  exact hc

theorem writes_nodup [Platform] (h : Stands g zero a o bs) (hb : a.bound? .tensor o.output = some b)
    (hf : Fills ok bs b.cells ss) : (writes ss).Nodup := by
  obtain ⟨ts, hs⟩ := h.sound
  obtain ⟨hm, hk, -⟩ := hs.coherent.bound_mem hb
  rw [(writes_perm ss).nodup_iff, hf.final, List.nodup_append]
  refine ⟨hf.derived.nodup_iff.2 ?_, b.cells_nodup, ?_⟩
  · have hsub : bs.Sublist a.allocations := h.scratch.trans List.filter_sublist
    exact (Sequences.sublist_flatMap _ hsub).nodup hs.tiles.cells_nodup
  · rintro c hc _ hcb rfl
    obtain ⟨e, he, hce⟩ := List.mem_flatMap.1 (hf.derived.mem_iff.1 hc)
    obtain ⟨hem, hek⟩ := mem_ofKind.1 (h.scratch.subset he)
    obtain rfl := hs.tiles.owner_unique hem hm hce hcb
    exact absurd (hek.symm.trans hk) (by simp)

theorem readable_notMem [Platform] (h : Stands g zero a o bs)
    (hb : a.bound? .tensor o.output = some b) (hf : Fills ok bs b.cells ss) {c : Int}
    (hc : Readable g a zero o c) : c ∉ writes ss := by
  obtain ⟨ts, hs⟩ := h.sound
  obtain ⟨hm, hk, hn⟩ := hs.coherent.bound_mem hb
  -- the block that the cell belongs to is neither scratch nor the output
  obtain ⟨e, he, hce, hscratch, hout⟩ : ∃ e ∈ a.allocations, c ∈ e.cells ∧ e.kind ≠ .scratch ∧
      e ≠ b := by
    rcases hc with rfl | ⟨id, hid, x, hx, i, hi, rfl⟩
    · obtain ⟨e, he, hek, hce⟩ := h.zero
      exact ⟨e, he, hce, by simp [hek], fun heq => by simp [heq, hk] at hek⟩
    · obtain ⟨e, heb, -, hcells⟩ := hx.block hs
      obtain ⟨he, hek, hname⟩ := hs.coherent.bound_mem heb
      refine ⟨e, he, hcells ▸ mem_elementCells.2 ⟨i, hi, rfl⟩, by simp [hek], fun heq => ?_⟩
      rw [heq, hn] at hname
      exact h.apart (hname ▸ hid)
  intro hw
  rcases writes_cases hf hw with ⟨f, hfm, hcf⟩ | hcb
  · obtain ⟨hfa, hfk⟩ := mem_ofKind.1 (h.scratch.subset hfm)
    exact hscratch (hs.tiles.owner_unique he hfa hce hcf ▸ hfk)
  · exact hout (hs.tiles.owner_unique he hm hce hcb)

theorem dest_of_arithmetic {i : Instruction} (h : i.isArithmetic = true) :
    ∃ d, i.dest? = some d := by
  cases i with
  | lookup | halt => simp [Instruction.isArithmetic] at h
  | _ => exact ⟨_, rfl⟩

theorem ready [Platform] (h : Stands g zero a o bs) (hb : a.bound? .tensor o.output = some b)
    (hf : Fills ok bs b.cells ss) (hok : ∀ c, ok c → Readable g a zero o c)
    (har : ∀ s ∈ ss, s.instruction.isArithmetic = true) {m : Int} {memory : Machine.Memory}
    (hmem : ∀ c, ok c → ∃ e, memory[c]? = some e) :
    Machine.Ready m [] memory (ss.map (·.instruction)) where
  known := by
    intro i hi
    obtain ⟨s, hs, rfl⟩ := List.mem_map.1 hi
    exact .inl (har s hs)
  total := by
    intro i hi
    obtain ⟨s, hs, rfl⟩ := List.mem_map.1 hi
    exact dest_of_arithmetic (har s hs)
  once := by
    rw [targets_map]
    exact h.writes_nodup hb hf
  before := by
    intro pre i post hsplit c hc
    obtain ⟨before, rest, hss, rfl, hrest⟩ := List.map_eq_append_iff.1 hsplit
    obtain ⟨s, after, rfl, rfl, rfl⟩ := List.map_eq_cons_iff.1 hrest
    rw [← List.map_cons, targets_map, targets_map]
    have hsub : c ∈ writes (s :: after) → c ∈ writes ss := by
      rw [hss, writes_append]
      exact List.mem_append_right _
    rcases hf.bound.split hss c hc with hread | hderived
    · exact ⟨.inr (hmem c hread), fun hin => h.readable_notMem hb hf (hok c hread) (hsub hin)⟩
    · refine ⟨.inl (mem_writes.2 (.inl hderived)), fun hin => ?_⟩
      have hnodup := h.writes_nodup hb hf
      rw [hss, writes_append] at hnodup
      exact (List.nodup_append.1 hnodup).2.2 c (mem_writes.2 (.inl hderived)) c hin rfl
  clear := by simp

/-- Run alone, the steps get through, or stop at a value that cannot be rescaled. -/
theorem runs [Platform] (h : Stands g zero a o bs) (hb : a.bound? .tensor o.output = some b)
    (hf : Fills ok bs b.cells ss) (hok : ∀ c, ok c → Readable g a zero o c)
    (har : ∀ s ∈ ss, s.instruction.isArithmetic = true) {c : Machine.Settings}
    (hm : c.modulus ≠ 0) (hs : c.strict = false) {memory : Machine.Memory}
    (hmem : ∀ e, ok e → ∃ v, memory[e]? = some v ∧ Field.encode c.modulus v = v)
    (look : Int → List Table.Row) :
    (∃ last, Machine.runThrough c (.start memory) (ss.map (·.instruction)) = (last, none) ∧
        Machine.Ran c.modulus look (.start memory) (ss.map (·.instruction)) last) ∨
      (∃ last f, Machine.runThrough c (.start memory) (ss.map (·.instruction)) = (last, some f)) ∧
        ∃ pre s post u, ss = pre ++ s :: post ∧
          Machine.Ran c.modulus look (.start memory) (pre.map (·.instruction)) u ∧
          ∃ dest e shift, s.instruction = .rescale dest e shift ∧
            (Semantics.field c.modulus).moved shift (u.cell e) = none := by
  have hready := h.ready hb hf hok har (m := c.modulus) fun e he =>
    (hmem e he).imp fun _ => And.left
  have hred : ∀ i ∈ ss.map (·.instruction), ∀ e ∈ i.sources, e ∉ targets (ss.map (·.instruction)) →
      ∀ v, memory[e]? = some v → Field.encode c.modulus v = v := by
    intro i hi e he hnot v hv
    obtain ⟨s, hsm, rfl⟩ := List.mem_map.1 hi
    obtain ⟨pre, post, hss⟩ := List.append_of_mem hsm
    rw [targets_map] at hnot
    rcases hf.bound.split hss e he with hread | hderived
    · obtain ⟨u, hu, hur⟩ := hmem e hread
      rwa [Option.some.inj (hv.symm.trans hu)]
    · refine absurd ?_ hnot
      rw [hss, writes_append]
      exact List.mem_append_left _ (mem_writes.2 (.inl hderived))
  have hstock : Machine.Stocked c.modulus [] (.start memory) := ⟨by simp, by simp⟩
  have hlook : ∀ t ∈ ([] : List FoldedTable), look t.address.absolute = t.rows.toList := by simp
  have hapart : Machine.Apart [] := by simp [Machine.Apart]
  rcases Machine.runThrough_lenient hm hs hapart hlook hstock rfl hred hready with
    hrun | ⟨last, f, hstop, pre, i, post, u, hsplit, hran, heval, hex⟩
  · exact .inl hrun
  · obtain ⟨before, rest, hss, rfl, hrest⟩ := List.map_eq_append_iff.1 hsplit
    obtain ⟨s, after, rfl, rfl, rfl⟩ := List.map_eq_cons_iff.1 hrest
    refine .inr ⟨⟨last, f, hstop⟩, before, s, after, u, hss, hran, ?_⟩
    generalize hi : s.instruction = i at heval hex
    cases hex with
    | outside ht => simp at ht
    | tooFar => exact ⟨_, _, _, rfl, heval⟩

theorem ran_readable [Platform] (h : Stands g zero a o bs) (hb : a.bound? .tensor o.output = some b)
    (hf : Fills ok bs b.cells ss) {m : Int} {look : Int → List Table.Row}
    {memory : Machine.Memory} {pre post : List Step} {u : Machine.State} (hss : ss = pre ++ post)
    (hran : Machine.Ran m look (.start memory) (pre.map (·.instruction)) u) {c : Int}
    (hc : Readable g a zero o c) : u.cell c = (Machine.State.start memory).cell c := by
  apply Machine.State.cell_congr
  apply hran.frame
  rw [targets_map]
  intro hin
  refine h.readable_notMem hb hf hc ?_
  rw [hss, writes_append]
  exact List.mem_append_left _ hin

end Stands

/-- The tensors that an operation works on, as they are declared. -/
structure HasOperands (g : Circuit.Graph) (o : Circuit.Operation) (ts : List Circuit.Tensor) :
    Prop where
  inputs : o.inputs = ts.map (·.id)
  declared : ∀ t ∈ ts, g.tensor? t.id = some t

/-- A cell in the block of an input. -/
def InputCell (g : Circuit.Graph) (a : Allocator) (o : Circuit.Operation) (c : Int) : Prop :=
  ∃ id ∈ o.inputs, ∃ x, Placed g a id x ∧ ∃ i < Shape.volume x.shape, c = x.cell i

/-- A memory with elements of the field in the blocks of tensors. -/
structure Filled (m : Int) (a : Allocator) (ts : List Circuit.Tensor)
    (entry : String → List Nat → Int) (memory : Machine.Memory) : Prop where
  elements : ∀ t ∈ ts, ∀ index ∈ Shape.indices t.shape,
    Field.encode m (entry t.id index) = entry t.id index
  cells : ∀ t ∈ ts, ∀ v, a.bound? .tensor t.id = some v → ∀ index ∈ Shape.indices t.shape,
    memory[v.address.absolute + Shape.flat t.shape index]? = some (entry t.id index)

/-- A memory with zero in the zero cell and elements of the field in the blocks of tensors. -/
structure Loaded (m zero : Int) (a : Allocator) (ts : List Circuit.Tensor)
    (entry : String → List Nat → Int) (memory : Machine.Memory) : Prop
    extends Filled m a ts entry memory where
  zero : memory[zero]? = some 0

/-- Cells that hold the entries of tensors. -/
structure Shows (k : Int → Int) (g : Circuit.Graph) (zero : Int) (a : Allocator)
    (ts : List Circuit.Tensor) (entry : String → List Nat → Int) : Prop where
  zero : k zero = 0
  cells : ∀ t ∈ ts, ∀ v, Placed g a t.id v → ∀ index ∈ Shape.indices t.shape,
    k (v.cell (Shape.flat t.shape index)) = entry t.id index

section

variable {g : Circuit.Graph} {zero m : Int} {a : Allocator} {o : Circuit.Operation}
  {ts : List Circuit.Tensor} {entry : String → List Nat → Int} {memory : Machine.Memory}

theorem HasOperands.placed (h : HasOperands g o ts) {t : Circuit.Tensor} (ht : t ∈ ts)
    {v : Operand} (hv : Placed g a t.id v) : v.tensor = t :=
  Option.some.inj (hv.tensor.symm.trans (h.declared t ht))

theorem HasOperands.pair {x y : Circuit.Tensor} {ia ib : String} {x' y' : Operand}
    (h : HasOperands g o [x, y]) (hi : o.inputs = [ia, ib]) (hx : Placed g a ia x')
    (hy : Placed g a ib y') : ia = x.id ∧ ib = y.id ∧ x'.tensor = x ∧ y'.tensor = y := by
  have hin := hi.symm.trans h.inputs
  obtain ⟨rfl, rfl⟩ : ia = x.id ∧ ib = y.id := by simpa using hin
  exact ⟨rfl, rfl, h.placed (by simp) hx, h.placed (by simp) hy⟩

theorem Filled.of_bases {bs : List (Circuit.Tensor × Int)}
    (hb : (bs.map (·.1)).map (Emitter.base? a) = bs.map fun b => some b.2)
    (he : ∀ b ∈ bs, ∀ index ∈ Shape.indices b.1.shape,
      Field.encode m (entry b.1.id index) = entry b.1.id index ∧
        memory[b.2 + (Shape.flat b.1.shape index : Int)]? = some (entry b.1.id index)) :
    Filled m a (bs.map (·.1)) entry memory where
  elements := by
    intro t ht index hi
    obtain ⟨b, hb, rfl⟩ := List.mem_map.1 ht
    exact (he b hb index hi).1
  cells := by
    intro t ht v hv index hi
    obtain ⟨b, hmem, rfl⟩ := List.mem_map.1 ht
    rw [List.map_map] at hb
    have hbase : Emitter.base? a b.1 = some b.2 := List.map_inj_left.1 hb b hmem
    rw [Emitter.base?, hv] at hbase
    rw [show v.address.absolute = b.2 from Option.some.inj hbase]
    exact (he b hmem index hi).2

theorem Filled.input (hl : Filled m a ts entry memory) (h : HasOperands g o ts) {e : Int}
    (he : InputCell g a o e) : ∃ v, memory[e]? = some v ∧ Field.encode m v = v := by
  obtain ⟨id, hid, v, hv, i, hi, rfl⟩ := he
  rw [h.inputs] at hid
  obtain ⟨t, ht, rfl⟩ := List.mem_map.1 hid
  obtain ⟨blk, hb, hbase⟩ := hv.base
  have hvt := h.placed ht hv
  rw [Operand.shape, hvt] at hi
  obtain ⟨index, hindex, rfl⟩ := Shape.exists_index hi
  refine ⟨entry t.id index, ?_, hl.elements t ht index hindex⟩
  rw [Operand.cell, ← hbase]
  exact hl.cells t ht blk hb index hindex

theorem Loaded.readable (hl : Loaded m zero a ts entry memory) (h : HasOperands g o ts) {e : Int}
    (he : Readable g a zero o e) : ∃ v, memory[e]? = some v ∧ Field.encode m v = v := by
  rcases he with rfl | he
  · exact ⟨0, hl.zero, Int.zero_fmod m⟩
  · exact hl.toFilled.input h he

variable {ok : Int → Prop} {bs : List Allocation} {blk : Allocation} {ss pre post : List Step}
  {u : Machine.State} {look : Int → List Table.Row}

theorem Filled.shown [Platform] (hl : Filled m a ts entry memory) (h : HasOperands g o ts)
    (hst : Stands g zero a o bs) (hb : a.bound? .tensor o.output = some blk)
    (hf : Fills ok bs blk.cells ss) (hss : ss = pre ++ post)
    (hran : Machine.Ran m look (.start memory) (pre.map (·.instruction)) u) {t : Circuit.Tensor}
    (ht : t ∈ ts) {v : Operand} (hv : Placed g a t.id v) {index : List Nat}
    (hi : index ∈ Shape.indices t.shape) :
    u.cell (v.cell (Shape.flat t.shape index)) = entry t.id index := by
  have hvt := h.placed ht hv
  have hlt : Shape.flat t.shape index < Shape.volume v.shape := by
    rw [Operand.shape, hvt]
    exact Shape.flat_lt hi
  have hid : t.id ∈ o.inputs := by
    rw [h.inputs]
    exact List.mem_map_of_mem ht
  rw [hst.ran_readable hb hf hss hran (hv.readable hid hlt)]
  obtain ⟨e, he, hbase⟩ := hv.base
  rw [Operand.cell, ← hbase]
  exact Machine.State.cell_eq (hl.cells t ht e he index hi)

theorem Loaded.shows [Platform] (hl : Loaded m zero a ts entry memory) (h : HasOperands g o ts)
    (hst : Stands g zero a o bs) (hb : a.bound? .tensor o.output = some blk)
    (hf : Fills ok bs blk.cells ss) (hss : ss = pre ++ post)
    (hran : Machine.Ran m look (.start memory) (pre.map (·.instruction)) u) :
    Shows u.cell g zero a ts entry where
  zero := by
    rw [hst.ran_readable hb hf hss hran (.inl rfl)]
    exact Machine.State.cell_eq hl.zero
  cells := fun _ ht _ hv _ hi => hl.toFilled.shown h hst hb hf hss hran ht hv hi

end

section

variable {o : Circuit.Operation} {t : Circuit.Tensor} {x x' : Operand} {target m : Int}
  {bs : List Allocation} {ss : List Step}

theorem Brought.step (h : Brought o x target x' bs ss) {s : Step} (hs : s ∈ ss) :
    ∃ i < Shape.volume x.shape, ∃ dest,
      s.instruction = .rescale dest (x.cell i) (x.scale - target) := by
  cases h with
  | same => simp at hs
  | copied =>
    obtain ⟨i, hi, rfl⟩ := List.mem_map.1 hs
    exact ⟨i, List.mem_range.1 hi, _, rfl⟩

theorem Brought.shows [Platform] {g : Circuit.Graph} {a : Allocator}
    (h : Brought o x target x' bs ss) (hx : Placed g a t.id x) (hxt : x.tensor = t) {k : Int → Int}
    {look : Int → List Table.Row} {entry : List Nat → Int}
    (he : ∀ index ∈ Shape.indices t.shape, Field.encode m (entry index) = entry index)
    (hk : ∀ index ∈ Shape.indices t.shape, k (x.cell (Shape.flat t.shape index)) = entry index)
    (hd : ∀ s ∈ ss, Holds (.field m) look k s.instruction) {index : List Nat}
    (hi : index ∈ Shape.indices t.shape) :
    Quantity.rescaleFault? (Field.centre m (entry index)) (t.scale - target) = none ∧
      k (x'.cell (Shape.flat t.shape index)) =
        Field.encode m (Quantity.rescale (Field.centre m (entry index)) (t.scale - target)) := by
  subst hxt
  have hred : ∀ i < Shape.volume x.shape,
      (Semantics.field m).wrap (k (x.cell i)) = k (x.cell i) := by
    intro i hlt
    obtain ⟨index, hindex, rfl⟩ := Shape.exists_index hlt
    rw [Operand.shape, hk index hindex]
    exact he index hindex
  have hmoved := (h.moved hred fun s hs _ => hd s hs).2 _ (Shape.flat_lt hi)
  rw [Operand.shape, hk index hi, hx.scale, Semantics.moved_eq_some] at hmoved
  exact ⟨hmoved.1, hmoved.2.symm⟩

end

theorem moved_encode [Platform] {m shift z y : Int} :
    (Semantics.field m).moved shift (Field.encode m z) = some y ↔
      Quantity.rescaleFault? (Field.centre m z) shift = none ∧
        Field.encode m (Quantity.rescale (Field.centre m z) shift) = y := by
  rw [Semantics.moved_eq_some, ← Field.centre_encode_self m z]
  rfl

end Lowering

namespace Program

/-- Whether a program, if there is one, stops over a memory, and what it has left in a cell. -/
def ending [Platform] (p : Except Fault Program) (c : Machine.Settings) (memory : Machine.Memory)
    (cell : Int) : Option (Bool × Option Int) :=
  p.toOption.map fun p =>
    let last := Machine.runThrough c (.start memory) p.plan.instructions
    (last.2.isSome, last.1.memory[cell]?)

theorem stops_short [Platform] {p : Except Fault Program} {c : Machine.Settings}
    {memory : Machine.Memory} {cell : Int} (h : ending p c memory cell = some (true, none)) :
    ∃ q last f, p = .ok q ∧ Machine.runThrough c (.start memory) q.plan.instructions =
      (last, some f) ∧ last.memory[cell]? = none := by
  cases p with
  | error f => simp [ending, Except.toOption] at h
  | ok q =>
    obtain ⟨hstop, hcell⟩ := Prod.mk.inj (Option.some.inj h)
    obtain ⟨f, hf⟩ := Option.isSome_iff_exists.1 hstop
    exact ⟨q, _, f, rfl, Prod.ext rfl hf, hcell⟩

end Program

end TensorAsm
