import Mathlib
import TensorAsm.Proofs.Convolution
/-!
The block of a convolution, run alone. Over any memory with zero in the zero cell and elements of
the field in its operands, it leaves the bias and the convolution in the output, unless a change of
scale is too far.
-/

namespace TensorAsm

namespace Lowering

section

variable {g : Circuit.Graph} {zero : Int} {a : Allocator} {o : Circuit.Operation} {c : Window}
  {x w : Circuit.Tensor} {b : Option Circuit.Tensor}

theorem Shows.bias_cell {k : Int → Int} {entry : String → List Nat → Int}
    (hs : Shows k g zero a (x :: w :: b.toList) entry) (hc : IsConvolution g o c x w b)
    {t : Circuit.Tensor} (ht : t ∈ b) {v : Operand} (hv : Placed g a t.id v) {f : Nat}
    (hf : f < c.filters) : k (v.cell f) = entry t.id [f] := by
  have hi : [f] ∈ Shape.indices t.shape := by
    rw [hc.bias t ht]
    exact Shape.mem_indices.2 (by simpa using hf)
  have hk := hs.cells t (by simp [Option.mem_def.1 ht]) v hv [f] hi
  rw [hc.bias t ht] at hk
  simpa [Shape.flat] using hk

namespace ConvolutionSteps

variable {x' w' : Operand} {b' : Option Operand} {out : Operand} {r : Reduction}
  {copies sums : List Step} {k : Int → Int} {m : Int} {look : Int → List Table.Row}
  {entry : String → List Nat → Int}

theorem bias_moved [Platform] (h : ConvolutionSteps g zero a o c x w b x' w' b' out r copies sums)
    (hc : IsConvolution g o c x w b) (hs : Shows k g zero a (x :: w :: b.toList) entry)
    (he : ∀ t ∈ b, ∀ index ∈ Shape.indices t.shape,
      Field.encode m (entry t.id index) = entry t.id index)
    (hd : ∀ s ∈ copies, Holds (.field m) look k s.instruction) {f : Nat} (hf : f < c.filters) :
    (∀ t ∈ b, Quantity.rescaleFault? (Field.centre m (entry t.id [f]))
        (t.scale - (x.scale + w.scale)) = none) ∧
      ((b'.toList.map fun v => (⟨v.cell f, none⟩ : Term)).map (Term.value k)).sum =
        b.elim 0 fun t => Field.encode m
          (Quantity.rescale (Field.centre m (entry t.id [f])) (t.scale - (x.scale + w.scale))) := by
  obtain ⟨bs, hbias⟩ := h.bias
  cases hbias with
  | none => simp
  | @some t v v' bs ss pv hv hbr =>
    have hi : [f] ∈ Shape.indices t.shape :=
      hc.bias t rfl ▸ Shape.mem_indices.2 (by simpa using hf)
    have hflat : Shape.flat t.shape [f] = f := by
      rw [hc.bias t rfl]
      simp [Shape.flat]
    have hf' := hbr.shows pv hv (he t rfl) (hs.cells t (by simp) v pv) hd hi
    rw [hflat] at hf'
    refine ⟨?_, ?_⟩
    · rintro _ ⟨⟩
      exact hf'.1
    · simp only [Option.toList_some, List.map_cons, List.map_nil, List.sum_cons, List.sum_nil,
        add_zero, Term.value, Option.elim_some]
      exact hf'.2

theorem landed [Platform] (h : ConvolutionSteps g zero a o c x w b x' w' b' out r copies sums)
    (hc : IsConvolution g o c x w b) (hs : Shows k g zero a (x :: w :: b.toList) entry)
    (he : ∀ t ∈ b, ∀ index ∈ Shape.indices t.shape,
      Field.encode m (entry t.id index) = entry t.id index)
    (hd : ∀ s ∈ copies, Holds (.field m) look k s.instruction) {f i j : Nat}
    (hi : [f, i, j] ∈ Shape.indices c.outShape)
    (hchain : ∀ s ∈ r.chain (elementLabel o [f, i, j]) (Shape.flat c.outShape [f, i, j]) 0 zero
      ((b'.toList.map fun v => ⟨v.cell f, none⟩) ++ c.taps zero x' w' f i j),
      Holds (.field m) look k s.instruction) :
    k (r.target.landing + Shape.flat c.outShape [f, i, j]) =
      Field.encode m (c.total m entry x w b f i j) := by
  have hf : f < c.filters := (List.forall₂_cons.1 (Shape.mem_indices.1 hi)).1
  have hland := h.chained.landed hs.zero hi hchain
  obtain ⟨-, hbias⟩ := h.bias_moved hc hs he hd hf
  have hx : ∀ index ∈ Shape.indices c.inputShape,
      k (x'.cell (Shape.flat c.inputShape index)) = entry x.id index := by
    intro index hindex
    have hk := hs.cells x (by simp) x' h.input.1
    rw [hc.input] at hk
    exact hk index hindex
  have hw : ∀ index ∈ Shape.indices c.kernelShape,
      k (w'.cell (Shape.flat c.kernelShape index)) = entry w.id index := by
    intro index hindex
    have hk := hs.cells w (by simp) w' h.kernel.1
    rw [hc.kernel] at hk
    exact hk index hindex
  have hsum := (Window.sum_taps hs.zero f i j).trans (Window.convolve_congr hx hw hf i j)
  rw [hland, List.map_append, List.sum_append]
  simp only [List.getD_cons_zero, List.getD_cons_succ]
  rw [hbias, hsum, Window.total]
  cases b with
  | none => rfl
  | some t => exact Field.encode_add m _ _

theorem copy_step (h : ConvolutionSteps g zero a o c x w b x' w' b' out r copies sums)
    (hc : IsConvolution g o c x w b) {s : Step} (hs : s ∈ copies) :
    ∃ t ∈ b, ∃ f < c.filters, ∃ v dest, Placed g a t.id v ∧
      s.instruction = .rescale dest (v.cell f) (t.scale - (x.scale + w.scale)) := by
  obtain ⟨bs, hbias⟩ := h.bias
  cases hbias with
  | none => simp at hs
  | @some t v v' bs ss pv hv hbr =>
    obtain ⟨f, hf, dest, hr⟩ := hbr.step hs
    have hlt : f < c.filters := by
      simpa [Operand.shape, hv, hc.bias t rfl, Shape.volume] using hf
    exact ⟨t, rfl, f, hlt, v, dest, pv, by rw [hr, pv.scale, hv]⟩

end ConvolutionSteps

/-- The steps of a block compute a convolution. What they multiply is in the blocks of the input,
for which zero may stand, and of the kernel. Run over any elements of the field, they get through
unless a change of scale is too far, and leave each value in its landing cell and in the output. -/
structure ComputesConvolution [Platform] (zero : Int) (a : Allocator) (o : Circuit.Operation)
    (c : Window) (x w : Circuit.Tensor) (b : Option Circuit.Tensor) (steps : List Step) : Prop where
  factors : ∃ bx bw, a.bound? .tensor x.id = some bx ∧ a.bound? .tensor w.id = some bw ∧
    ∀ s ∈ steps, ∀ dest acc p q, s.instruction = .mac dest acc p q →
      (p = zero ∨ p ∈ bx.cells) ∧ q ∈ bw.cells
  sources : ∀ s ∈ steps, ∀ e ∈ s.instruction.sources, e = zero ∨ e ∈ writes steps ∨
    ∃ t ∈ x :: w :: b.toList, ∃ v, a.bound? .tensor t.id = some v ∧ e ∈ v.cells
  runs : ∃ out landing, a.bound? .tensor o.output = some out ∧
    (x.scale + w.scale = o.scale → landing = out.address.absolute) ∧
    (x.scale + w.scale ≠ o.scale → ∀ index ∈ Shape.indices c.outShape,
      ∃ s ∈ steps, s.instruction = .rescale (out.address.absolute + Shape.flat c.outShape index)
        (landing + Shape.flat c.outShape index) (x.scale + w.scale - o.scale)) ∧
    ∀ (settings : Machine.Settings) (entry : String → List Nat → Int) (memory : Machine.Memory),
      settings.modulus ≠ 0 → settings.strict = false →
      Loaded settings.modulus zero a (x :: w :: b.toList) entry memory →
      ∃ last stop, Machine.runThrough settings (.start memory) (steps.map (·.instruction)) =
          (last, stop) ∧
        (stop = none ↔ c.Rescales settings.modulus entry o x w b) ∧
        (stop = none → ∀ f i j, [f, i, j] ∈ Shape.indices c.outShape →
          last.cell (landing + Shape.flat c.outShape [f, i, j]) =
            Field.encode settings.modulus (c.total settings.modulus entry x w b f i j) ∧
          last.cell (out.address.absolute + Shape.flat c.outShape [f, i, j]) =
            Field.encode settings.modulus (Quantity.rescale
              (Field.centre settings.modulus (c.total settings.modulus entry x w b f i j))
              (x.scale + w.scale - o.scale)))

namespace ConvolutionSteps

variable [Platform] {x' w' : Operand} {b' : Option Operand} {out : Operand} {r : Reduction}
  {copies sums : List Step} {bs : List Allocation} {blk : Allocation}

theorem factors (h : ConvolutionSteps g zero a o c x w b x' w' b' out r copies sums)
    (hc : IsConvolution g o c x w b) {ts : List FoldedTable} (hs : Sound g a ts) :
    ∃ bx bw, a.bound? .tensor x.id = some bx ∧ a.bound? .tensor w.id = some bw ∧
      ∀ s ∈ copies ++ sums, ∀ dest acc p q, s.instruction = .mac dest acc p q →
        (p = zero ∨ p ∈ bx.cells) ∧ q ∈ bw.cells := by
  obtain ⟨bx, hbx, -, hxc⟩ := h.input.1.block hs
  obtain ⟨bw, hbw, -, hwc⟩ := h.kernel.1.block hs
  have hxs : x'.shape = c.inputShape := by rw [Operand.shape, h.input.2, hc.input]; rfl
  have hws : w'.shape = c.kernelShape := by rw [Operand.shape, h.kernel.2, hc.kernel]; rfl
  refine ⟨bx, bw, hbx, hbw, ?_⟩
  intro s hs dest acc p q hm
  rcases List.mem_append.1 hs with hs | hs
  · obtain ⟨t, -, f, -, v, d, -, hr⟩ := h.copy_step hc hs
    rw [hr] at hm
    simp at hm
  · obtain ⟨index, hi, ht⟩ := h.chained.mac_term hs hm
    rcases List.mem_append.1 ht with ht | ht
    · simp at ht
    · rw [Window.taps_eq] at ht
      obtain ⟨d, hd, heq⟩ := List.mem_map.1 ht
      obtain ⟨hker, hin⟩ := tap_places hi hd
      rw [hxc, hwc, mem_elementCells, mem_elementCells, hxs, hws]
      simp only [Window.tap, Term.mk.injEq, Option.some.injEq] at heq
      obtain ⟨rfl, rfl⟩ := heq
      refine ⟨?_, _, hker, rfl⟩
      split
      · next hinside => exact .inr ⟨_, hin _ _ hinside, rfl⟩
      · exact .inl rfl

theorem sources (hc : IsConvolution g o c x w b) {ts : List FoldedTable} (hs : Sound g a ts)
    {ss : List Step} (hf : Fills (Readable g a zero o) bs blk.cells ss) {s : Step} (hm : s ∈ ss)
    {e : Int} (he : e ∈ s.instruction.sources) :
    e = zero ∨ e ∈ writes ss ∨
      ∃ t ∈ x :: w :: b.toList, ∃ v, a.bound? .tensor t.id = some v ∧ e ∈ v.cells := by
  obtain ⟨pre, post, hss⟩ := List.append_of_mem hm
  rcases hf.bound.split hss e he with (rfl | ⟨id, hid, v, hv, i, hi, rfl⟩) | hderived
  · exact .inl rfl
  · rw [hc.inputs] at hid
    obtain ⟨t, ht, rfl⟩ := List.mem_map.1 hid
    obtain ⟨blk, hb, -, hcells⟩ := hv.block hs
    exact .inr (.inr ⟨t, ht, blk, hb, hcells ▸ mem_elementCells.2 ⟨i, hi, rfl⟩⟩)
  · refine .inr (.inl ?_)
    rw [hss, writes_append]
    exact List.mem_append_left _ (mem_writes.2 (.inl hderived))

/-- The steps get through just if no change of scale is too far, and leave what they are to. -/
theorem runs (h : ConvolutionSteps g zero a o c x w b x' w' b' out r copies sums)
    (hc : IsConvolution g o c x w b) (hst : Stands g zero a o bs)
    (hb : a.bound? .tensor o.output = some blk)
    (hf : Fills (Readable g a zero o) bs blk.cells (copies ++ sums))
    (har : ∀ s ∈ copies ++ sums, s.instruction.isArithmetic = true) {settings : Machine.Settings}
    (hm : settings.modulus ≠ 0) (hs : settings.strict = false) {memory : Machine.Memory}
    {entry : String → List Nat → Int}
    (hl : Loaded settings.modulus zero a (x :: w :: b.toList) entry memory) :
    ∃ last stop, Machine.runThrough settings (.start memory)
        ((copies ++ sums).map (·.instruction)) = (last, stop) ∧
      (stop = none ↔ c.Rescales settings.modulus entry o x w b) ∧
      (stop = none → ∀ f i j, [f, i, j] ∈ Shape.indices c.outShape →
        last.cell (r.target.landing + Shape.flat c.outShape [f, i, j]) =
          Field.encode settings.modulus (c.total settings.modulus entry x w b f i j) ∧
        last.cell (out.base + Shape.flat c.outShape [f, i, j]) =
          Field.encode settings.modulus (Quantity.rescale
            (Field.centre settings.modulus (c.total settings.modulus entry x w b f i j))
            (x.scale + w.scale - o.scale))) := by
  have he : ∀ t ∈ b, ∀ index ∈ Shape.indices t.shape,
      Field.encode settings.modulus (entry t.id index) = entry t.id index := fun t ht =>
    hl.elements t (by simp [Option.mem_def.1 ht])
  rcases hst.runs hb hf (fun _ => id) har hm hs (fun _ hr => hl.readable hc.operands hr)
      (fun _ => []) with
    ⟨last, hrun, hran⟩ | ⟨⟨last, f, hrun⟩, pre, s, post, u, hss, hran, dest, e, shift, hs, hnone⟩
  · have hshow := hl.shows hc.operands hst hb hf (List.append_nil _).symm hran
    have hholds : ∀ s ∈ copies ++ sums, Holds (.field settings.modulus) (fun _ => []) last.cell
        s.instruction := fun s hs => hran.holds _ (List.mem_map_of_mem hs)
    have hcopies := fun s hs => hholds s (List.mem_append_left _ hs)
    have hsums := fun s hs => hholds s (List.mem_append_right _ hs)
    have hland (f i j : Nat) (hi : [f, i, j] ∈ Shape.indices c.outShape) :
        last.cell (r.target.landing + Shape.flat c.outShape [f, i, j]) =
          Field.encode settings.modulus (c.total settings.modulus entry x w b f i j) := by
      refine h.landed hc hshow he hcopies hi fun s hs => hsums s ?_
      rw [h.chained.steps]
      exact List.mem_flatMap.2 ⟨_, hi, List.mem_append_left _ hs⟩
    have hfinal (f i j : Nat) (hi : [f, i, j] ∈ Shape.indices c.outShape) :=
      moved_encode.1 (h.chained.finished hi (hland f i j hi) hsums)
    refine ⟨last, none, hrun, ⟨fun _ => ⟨fun t ht f hf => ?_, fun f i j hi => (hfinal f i j hi).1⟩,
      fun _ => rfl⟩, fun _ f i j hi => ⟨hland f i j hi, (hfinal f i j hi).2.symm⟩⟩
    exact (h.bias_moved hc hshow he hcopies hf).1 t ht
  · have hshow := hl.shows hc.operands hst hb hf hss hran
    have hholds : ∀ s ∈ pre, Holds (.field settings.modulus) (fun _ => []) u.cell s.instruction :=
      fun s hs => hran.holds _ (List.mem_map_of_mem hs)
    refine ⟨last, some f, hrun, ⟨by simp, fun hreach => absurd hnone ?_⟩, by simp⟩
    rw [Semantics.moved_eq_none, not_not]
    rcases Sequences.append_split hss with ⟨us, hcopies⟩ | ⟨us, rfl, hsums⟩
    · -- the bias is being copied
      have hmem : s ∈ copies := by simp [hcopies]
      obtain ⟨t, ht, f, hlt, v, d, pv, hr⟩ := h.copy_step hc hmem
      obtain ⟨-, rfl, rfl⟩ := Instruction.rescale.inj (hs.symm.trans hr)
      rw [hshow.bias_cell hc ht pv hlt]
      exact hreach.bias t ht f hlt
    · -- an element is being finished, so that it has landed
      obtain ⟨index, hi, rfl, rfl, hchain⟩ := h.chained.rescale_behind hsums hs
      obtain ⟨f, i, j, rfl⟩ := List.length_eq_three.1 (Shape.length_of_mem_indices hi)
      rw [h.landed hc hshow he (fun s hs => hholds s (List.mem_append_left _ hs)) hi fun s hs =>
        hholds s (List.mem_append_right _ (hchain s hs))]
      have hfar := hreach.totals f i j hi
      rw [← Field.centre_encode_self] at hfar
      exact hfar

theorem computes (h : ConvolutionSteps g zero a o c x w b x' w' b' out r copies sums)
    (hc : IsConvolution g o c x w b) (hst : Stands g zero a o bs)
    (hb : a.bound? .tensor o.output = some blk)
    (hf : Fills (Readable g a zero o) bs blk.cells (copies ++ sums))
    (har : ∀ s ∈ copies ++ sums, s.instruction.isArithmetic = true) :
    ComputesConvolution zero a o c x w b (copies ++ sums) := by
  obtain ⟨ts, hs⟩ := hst.sound
  obtain ⟨blk', hb', hbase⟩ := h.output.1.base
  refine ⟨h.factors hc hs, fun s hm e he => sources hc hs hf hm he, blk', r.target.landing, hb', ?_⟩
  rw [hbase]
  exact ⟨h.chained.direct, fun hn index hi =>
      (h.chained.rescale_mem hn hi).imp fun s hs => ⟨List.mem_append_right _ hs.1, hs.2⟩,
    fun settings entry memory hm hs hl => h.runs hc hst hb hf har hm hs hl⟩

end ConvolutionSteps

end

end Lowering

namespace Emitter

open Lowering

variable [Platform] {doc given : Json} {g : Circuit.Graph} {witness : Witness} {layout : Layout}
  {lookupBits : Json} {m : Int} {pre post : List Circuit.Operation} {o : Circuit.Operation}
  {s : Setting} {e : State} {c : Window} {x w t : Circuit.Tensor} {b : Option Circuit.Tensor}

theorem Reaches.convolution_fails (hreach : Reaches g witness layout lookupBits m pre s e)
    (hw : witness.Complete m g) (ho : o ∈ g.operations) (hconv : IsConvolution g o c x w b)
    (ht : g.tensor? o.output = some t) (hbad : ¬c.Gives t.shape) :
    ∃ f e', (lowerNode s o).Fails e f e' ∧
      ((∃ shapes complaint, f = .compile (.shape ⟨o.id, o.kind, shapes, t.shape, complaint⟩)) ∨
        (convOperands s o x w b).Fails e f e') := by
  obtain ⟨rfl, rfl, rfl, -⟩ := hreach.setting
  obtain ⟨f, e', hf, hwhy⟩ := lowerConv_fails hw ho hconv ht hbad e
  exact ⟨f, e', (hreach.fails_iff hconv.kind).2 hf, hwhy⟩

theorem Reaches.convolution_computes (hread : Circuit.read doc = .ok g) (hw : witness.Complete m g)
    (hreach : Reaches g witness layout lookupBits m pre s e)
    (horder : g.order = .ok (pre ++ o :: post)) (hconv : IsConvolution g o c x w b) {e' : State}
    (h : (lowerNode s o).Yields e () e') :
    ∃ steps, e'.blocks = e.blocks ++ [⟨o, steps⟩] ∧
      ComputesConvolution s.zero e'.allocator o c x w b steps := by
  obtain ⟨bs, blk, steps, hblocks, hem⟩ := hreach.emitted hread hw horder h
  obtain ⟨x', w', b', out, r, copies, sums, rfl, hsteps⟩ := hconv.steps hem.template
  exact ⟨_, hblocks, hsteps.computes hconv hem.stands hem.output hem.fills
    (hem.arithmetic hconv.kind (by decide))⟩

/-- The lowering of a convolution. It fails unless the output is declared with the shape it has, for
that reason if its operands can be placed and brought to their scales; the circuit then fails with
it. Where it succeeds, its block computes the convolution. -/
theorem lowerNode_convolution (hread : Circuit.read doc = .ok g)
    (hwit : Witness.read m g given = .ok witness) (horder : g.order = .ok (pre ++ o :: post))
    (hreach : Reaches g witness layout lookupBits m pre s e) (hconv : IsConvolution g o c x w b)
    (ht : g.tensor? o.output = some t) :
    (¬c.Gives t.shape → ∃ f e', (lowerNode s o).Fails e f e' ∧
      ((∃ shapes complaint, f = .compile (.shape ⟨o.id, o.kind, shapes, t.shape, complaint⟩)) ∨
        (convOperands s o x w b).Fails e f e') ∧
      ∀ name, (Program.lower name g witness layout lookupBits m).1 = .error f) ∧
    ∀ e', (lowerNode s o).Yields e () e' → c.Gives t.shape ∧
      ∃ steps, e'.blocks = e.blocks ++ [⟨o, steps⟩] ∧
        ComputesConvolution s.zero e'.allocator o c x w b steps := by
  have hw := Witness.read_complete hwit
  have ho := Circuit.Graph.mem_of_order horder (o := o) (by simp)
  refine ⟨fun hbad => ?_, fun e' h => ⟨?_, ?_⟩⟩
  · obtain ⟨f, e', hf, hwhy⟩ := hreach.convolution_fails hw ho hconv ht hbad
    exact ⟨f, e', hf, hwhy, hreach.lower_fails horder hconv.kind hf⟩
  · by_contra hbad
    obtain ⟨f, d, hf, -⟩ := hreach.convolution_fails hw ho hconv ht hbad
    exact h.not_fails hf
  · exact hreach.convolution_computes hread hw horder hconv h

end Emitter

namespace Lowering.Strided

def input : Circuit.Tensor := ⟨"x", [1, 3, 2], 1, .priv⟩

def kernel : Circuit.Tensor := ⟨"w", [1, 1, 2, 2], 0, .fixed⟩

def bias : Circuit.Tensor := ⟨"b", [1], 0, .fixed⟩

def output : Circuit.Tensor := ⟨"y", [1, 2, 1], 0, .priv⟩

def node : Circuit.Operation := ⟨1, "conv", ["x", "w", "b"], "y", 0,
  [("stride", .arr [.int 2, .int 1]), ("padding", .arr [.int 1, .int 0])]⟩

def graph : Circuit.Graph := ⟨[input, kernel, bias, output], [node], ["x"], ["y"]⟩

def circuit : Json := graph.document

theorem read_circuit : Circuit.read circuit = .ok graph := by
  cbv

def values : Json := .obj [
  ("x", .arr [.arr [.arr [.int 1, .int 2], .arr [.int 3, .int 4], .arr [.int 5, .int 6]]]),
  ("w", .arr [.arr [.arr [.arr [.int 1, .int 1], .arr [.int 2, .int 0]]]]),
  ("b", .arr [.int 3]),
  ("y", .arr [.arr [.arr [.int 4], .arr [.int 12]]])]

def witness : Witness :=
  [("b", ⟨[1], #[3]⟩), ("w", ⟨[1, 1, 2, 2], #[1, 1, 2, 0]⟩),
    ("x", ⟨[1, 3, 2], #[1, 2, 3, 4, 5, 6]⟩), ("y", ⟨[1, 2, 1], #[4, 12]⟩)]

theorem read_values : Witness.read Field.defaultModulus graph values = .ok witness := by
  cbv

def window : Window := ⟨1, 3, 2, 1, 2, 2, 2, 1, 1, 0⟩

theorem order : graph.order = .ok ([] ++ node :: []) := by
  cbv

theorem isConvolution : IsConvolution graph node window input kernel (some bias) where
  kind := by cbv
  inputs := by cbv
  declared := by
    simp only [Option.toList_some, List.forall_mem_cons]
    exact ⟨by cbv, by cbv, by cbv, by simp⟩
  input := rfl
  kernel := rfl
  bias := by
    rintro _ ⟨⟩
    rfl
  stride := by cbv
  padding := by cbv
  forward := by decide
  outward := by decide

/-- The entries of a tensor in the order of its cells. -/
def entry (id : String) (index : List Nat) : Int :=
  if id = "x" then [1, 2, 3, 4, 5, 6].getD (Shape.flat input.shape index) 0
  else if id = "w" then [1, 1, 2, 0].getD (Shape.flat kernel.shape index) 0
  else 3

theorem places : Shape.indices window.outShape = [[0, 0, 0], [0, 1, 0]] := by
  decide

theorem total_eq : window.total Field.defaultModulus entry input kernel (some bias) 0 0 0 = 8 ∧
    window.total Field.defaultModulus entry input kernel (some bias) 0 1 0 = 23 := by
  decide +kernel

theorem rescales : window.Rescales Field.defaultModulus entry node input kernel (some bias) where
  bias := by
    rintro _ ⟨⟩ f hf
    obtain rfl : f = 0 := Nat.lt_one_iff.1 hf
    decide +kernel
  totals := by
    intro f i j hi
    rw [places] at hi
    simp only [List.mem_cons, List.cons.injEq, List.not_mem_nil, or_false, and_true] at hi
    rcases hi with ⟨rfl, rfl, rfl⟩ | ⟨rfl, rfl, rfl⟩
    · rw [total_eq.1]
      decide +kernel
    · rw [total_eq.2]
      decide +kernel

def memory : Machine.Memory := MemoryTable.cellMap [(0, 0), (16, 1), (17, 2), (18, 3), (19, 4),
  (20, 5), (21, 6), (65552, 1), (65553, 1), (65554, 2), (65555, 0), (65556, 3)]

def bases : List (Circuit.Tensor × Int) := [(input, 16), (kernel, 65552), (bias, 65556)]

theorem loaded {a : Allocator}
    (h : [input, kernel, bias].map (Emitter.base? a) = bases.map fun b => some b.2) :
    Loaded Field.defaultModulus 0 a [input, kernel, bias] entry memory := by
  have hfilled : Filled Field.defaultModulus a (bases.map (·.1)) entry memory :=
    .of_bases h (by decide +kernel)
  exact ⟨hfilled, by decide +kernel⟩

theorem lowers : ∃ s e e',
    Emitter.Reaches graph witness default (.int 8) Field.defaultModulus [] s e ∧
    (Emitter.lowerNode s node).Yields e () e' ∧ s.zero = 0 ∧
    [input, kernel, bias].map (Emitter.base? e'.allocator) = bases.map fun b => some b.2 :=
  Emitter.Reaches.of_run isConvolution.kind (by decide +kernel)

end Lowering.Strided

open Lowering in
/-- A kernel of two rows and columns, moved down by two rows and right by one, over an input with a
row of padding. -/
theorem Emitter.strided_convolution :
    ∃ s e e' steps out last,
      Reaches Strided.graph Strided.witness default (.int 8) Field.defaultModulus [] s e ∧
      (lowerNode s Strided.node).Yields e () e' ∧
      Strided.window.Gives Strided.output.shape ∧
      e'.blocks = e.blocks ++ [⟨Strided.node, steps⟩] ∧
      e'.allocator.bound? .tensor "y" = some out ∧
      Machine.runThrough ⟨Field.defaultModulus, false, none, []⟩ (.start Strided.memory)
        (steps.map (·.instruction)) = (last, none) ∧
      last.cell out.address.absolute = 4 ∧ last.cell (out.address.absolute + 1) = 12 := by
  obtain ⟨s, e, e', hreach, hyields, hzero, hbases⟩ := Strided.lowers
  obtain ⟨-, hall⟩ := lowerNode_convolution Strided.read_circuit Strided.read_values Strided.order
    hreach Strided.isConvolution (t := Strided.output) (by cbv)
  obtain ⟨hgives, steps, hsteps, hcomputes⟩ := hall e' hyields
  obtain ⟨out, landing, hout, -, -, hruns⟩ := hcomputes.runs
  obtain ⟨last, stop, hrun, hstop, hcells⟩ := hruns ⟨Field.defaultModulus, false, none, []⟩
    Strided.entry Strided.memory (by decide) rfl (hzero ▸ Strided.loaded hbases)
  obtain rfl := hstop.2 Strided.rescales
  refine ⟨s, e, e', steps, out, last, hreach, hyields, hgives, hsteps, hout, hrun, ?_, ?_⟩
  · have hcell := (hcells rfl 0 0 0 (by rw [Strided.places]; decide)).2
    rw [Strided.total_eq.1, show Shape.flat Strided.window.outShape [0, 0, 0] = 0 by decide,
      Int.natCast_zero, Int.add_zero] at hcell
    exact hcell.trans (by decide +kernel)
  · have hcell := (hcells rfl 0 1 0 (by rw [Strided.places]; decide)).2
    rw [Strided.total_eq.2, show Shape.flat Strided.window.outShape [0, 1, 0] = 1 by decide,
      Int.natCast_one] at hcell
    exact hcell.trans (by decide +kernel)

namespace Lowering.Pointwise

def graph (scale : Int) (rows : Nat) (ids : List String) : Circuit.Graph :=
  ⟨[⟨"x", [1, 2, 1], scale, .priv⟩, ⟨"w", [1, 1, 1, 1], 0, .fixed⟩, ⟨"b", [1], 0, .fixed⟩,
    ⟨"y", [1, rows, 1], 0, .priv⟩], [⟨1, "conv", ids, "y", 0, []⟩], ["x"], ["y"]⟩

def circuit (scale : Int) (rows : Nat) (ids : List String) : Json := (graph scale rows ids).document

def values (rows : Nat) : Json := .obj [
  ("x", .arr [.arr [.arr [.int 0], .arr [.int 0]]]),
  ("w", .arr [.arr [.arr [.arr [.int 1]]]]), ("b", .arr [.int 1]),
  ("y", .arr [.arr (List.replicate rows (.arr [.int 0]))])]

def farCircuit : Json := circuit (2 ^ 70) 2 ["x", "w"]

def far : Circuit.Graph := graph (2 ^ 70) 2 ["x", "w"]

def farWitness : Witness :=
  [("w", ⟨[1, 1, 1, 1], #[1]⟩), ("x", ⟨[1, 2, 1], #[0, 0]⟩), ("y", ⟨[1, 2, 1], #[0, 0]⟩)]

def unfitCircuit : Json := circuit 300 3 ["x", "w", "b"]

def unfit : Circuit.Graph := graph 300 3 ["x", "w", "b"]

def unfitWitness : Witness :=
  [("b", ⟨[1], #[1]⟩), ("w", ⟨[1, 1, 1, 1], #[1]⟩), ("x", ⟨[1, 2, 1], #[0, 0]⟩),
    ("y", ⟨[1, 3, 1], #[0, 0, 0]⟩)]

theorem read_far : Circuit.read farCircuit = .ok far ∧
    Witness.read Field.defaultModulus far (values 2) = .ok farWitness :=
  ⟨by cbv, by cbv⟩

theorem read_unfit : Circuit.read unfitCircuit = .ok unfit ∧
    Witness.read Field.defaultModulus unfit (values 3) = .ok unfitWitness :=
  ⟨by cbv, by cbv⟩

def memory : Machine.Memory := MemoryTable.cellMap [(0, 0), (16, 0), (17, 0), (65552, 1)]

theorem far_ending : Program.ending
    (Program.lower "far" far farWitness default (.int 8) Field.defaultModulus).1
    ⟨Field.defaultModulus, false, none, []⟩ memory 327697 = some (true, none) := by
  decide +kernel

def unfitMessage : String :=
  "node 1 derives a value of 301 bits for cell [327696], which does not fit the field"

theorem unfit_fails : ((Program.lower "unfit" unfit unfitWitness default (.int 8)
    Field.defaultModulus).1.mapError Fault.message).map (fun _ => ()) = .error unfitMessage := by
  decide +kernel

end Lowering.Pointwise

open Lowering.Pointwise in
/-- A convolution of zeros at the scale `2 ^ 70` stops at its first element and never comes to the
second. One whose bias does not fit is refused for that, though its output has another shape. -/
theorem Lowering.convolution_out_of_reach :
    (∃ p last f, Circuit.read farCircuit = .ok far ∧
      Witness.read Field.defaultModulus far (values 2) = .ok farWitness ∧
      (Program.lower "far" far farWitness default (.int 8) Field.defaultModulus).1 = .ok p ∧
      Machine.runThrough ⟨Field.defaultModulus, false, none, []⟩ (.start memory)
        p.plan.instructions = (last, some f) ∧ last.memory[(327697 : Int)]? = none) ∧
    ∃ f, Circuit.read unfitCircuit = .ok unfit ∧
      Witness.read Field.defaultModulus unfit (values 3) = .ok unfitWitness ∧
      (Program.lower "unfit" unfit unfitWitness default (.int 8) Field.defaultModulus).1 =
        .error f ∧ f.message = unfitMessage := by
  constructor
  · obtain ⟨p, last, f, hl, hstop⟩ := Program.stops_short far_ending
    exact ⟨p, last, f, read_far.1, read_far.2, hl, hstop⟩
  · have hunfit := unfit_fails
    cases hl : (Program.lower "unfit" unfit unfitWitness default (.int 8)
        Field.defaultModulus).1 with
    | ok p => simp [hl, Except.mapError, Except.map] at hunfit
    | error f =>
      rw [hl] at hunfit
      exact ⟨f, read_unfit.1, read_unfit.2, rfl, Except.error.inj hunfit⟩

end TensorAsm
