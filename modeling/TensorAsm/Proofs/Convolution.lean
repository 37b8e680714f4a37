import Mathlib.Algebra.BigOperators.Group.Finset.Basic
import TensorAsm.Proofs.BlockRuns
import TensorAsm.Proofs.Reductions
/-!
Convolutions, with strides and padding, as sums of products over channels and kernel. The taps that
the lowering emits add up to one, and it is refused unless the output is declared with the shape it
has.
-/

namespace TensorAsm

namespace Shape

theorem sum_indices_cons (d : Nat) (shape : List Nat) (f : List Nat → Int) :
    ((indices (d :: shape)).map f).sum =
      ∑ i ∈ Finset.range d, ((indices shape).map fun index => f (i :: index)).sum := by
  rw [indices_cons]
  induction d with
  | zero => rfl
  | succ d ih =>
    rw [List.range_succ, List.flatMap_append, List.map_append, List.sum_append, ih,
      Finset.sum_range_succ]
    simp [Function.comp_def]

end Shape

namespace Lowering

namespace Window

/-- What stands below a tap of the kernel: an entry of the input, or nothing in the padding. -/
def below (c : Window) (x : List Nat → Int) (ch : Nat) (y z : Int) : Int :=
  if 0 ≤ y ∧ y < c.height ∧ 0 ≤ z ∧ z < c.width then x [ch, y.toNat, z.toNat] else 0

/-- The padded, strided convolution of an input with a kernel, at a place of the output. -/
def convolve (c : Window) (x w : List Nat → Int) (f i j : Nat) : Int :=
  ∑ ch ∈ Finset.range c.channels, ∑ di ∈ Finset.range c.kernelHeight,
    ∑ dj ∈ Finset.range c.kernelWidth,
      w [f, ch, di, dj] * c.below x ch (i * c.strideH + di - c.padH) (j * c.strideW + dj - c.padW)

/-- The shapes that the output may have. -/
def Gives (c : Window) (shape : List Nat) : Prop :=
  ∃ h v : Nat, shape = [c.filters, h, v] ∧ 1 ≤ h ∧ 1 ≤ v ∧
    (h : Int) = (c.height + 2 * c.padH - c.kernelHeight).fdiv c.strideH + 1 ∧
    (v : Int) = (c.width + 2 * c.padW - c.kernelWidth).fdiv c.strideW + 1

/-- What stands at a place of the output at the scale of the products, before it is reduced: the
bias of the filter brought to that scale, and the convolution. -/
def total (c : Window) (m : Int) (entry : String → List Nat → Int) (x w : Circuit.Tensor)
    (b : Option Circuit.Tensor) (f i j : Nat) : Int :=
  (b.elim 0 fun t =>
      Quantity.rescale (Field.centre m (entry t.id [f])) (t.scale - (x.scale + w.scale))) +
    c.convolve (entry x.id) (entry w.id) f i j

/-- No change of scale is too far for the values at hand. -/
structure Rescales [Platform] (c : Window) (m : Int) (entry : String → List Nat → Int)
    (o : Circuit.Operation) (x w : Circuit.Tensor) (b : Option Circuit.Tensor) : Prop where
  bias : ∀ t ∈ b, ∀ f < c.filters, Quantity.rescaleFault? (Field.centre m (entry t.id [f]))
    (t.scale - (x.scale + w.scale)) = none
  totals : ∀ f i j, [f, i, j] ∈ Shape.indices c.outShape →
    Quantity.rescaleFault? (Field.centre m (c.total m entry x w b f i j))
      (x.scale + w.scale - o.scale) = none

variable {c : Window} {k : Int → Int} {zero : Int} {x w : Operand}

theorem gives_iff (hs : 1 ≤ c.strideH ∧ 1 ≤ c.strideW) {shape : List Nat} :
    c.Gives shape ↔ shape = c.outShape ∧ 1 ≤ c.outHeight ∧ 1 ≤ c.outWidth := by
  have hh : (c.height + 2 * c.padH - c.kernelHeight).fdiv c.strideH + 1 = c.outHeight := by
    rw [outHeight, Int.fdiv_eq_ediv_of_nonneg _ (by omega)]
  have hv : (c.width + 2 * c.padW - c.kernelWidth).fdiv c.strideW + 1 = c.outWidth := by
    rw [outWidth, Int.fdiv_eq_ediv_of_nonneg _ (by omega)]
  rw [Gives, hh, hv, outShape]
  constructor
  · rintro ⟨h, v, rfl, hle, vle, eh, ev⟩
    rw [← eh, ← ev]
    exact ⟨rfl, by omega, by omega⟩
  · rintro ⟨rfl, hle, vle⟩
    exact ⟨_, _, rfl, by omega, by omega, by omega, by omega⟩

theorem sum_taps (hz : k zero = 0) (f i j : Nat) :
    ((c.taps zero x w f i j).map (Term.value k)).sum =
      c.convolve (fun index => k (x.cell (Shape.flat c.inputShape index)))
        (fun index => k (w.cell (Shape.flat c.kernelShape index))) f i j := by
  rw [taps_eq, List.map_map, Shape.sum_indices_cons, convolve]
  refine Finset.sum_congr rfl fun ch _ => ?_
  rw [Shape.sum_indices_cons]
  refine Finset.sum_congr rfl fun di _ => ?_
  rw [Shape.sum_indices_cons]
  refine Finset.sum_congr rfl fun dj _ => ?_
  simp only [Shape.indices_nil, List.map_cons, List.map_nil, List.sum_cons, List.sum_nil, add_zero,
    Function.comp_apply, List.getD_cons_zero, List.getD_cons_succ, tap, Term.value, below]
  rw [mul_comm]
  split
  · rfl
  · rw [hz]

theorem convolve_congr {x x' w w' : List Nat → Int}
    (hx : ∀ index ∈ Shape.indices c.inputShape, x index = x' index)
    (hw : ∀ index ∈ Shape.indices c.kernelShape, w index = w' index) {f : Nat}
    (hf : f < c.filters) (i j : Nat) : c.convolve x w f i j = c.convolve x' w' f i j := by
  refine Finset.sum_congr rfl fun ch hch => Finset.sum_congr rfl fun di hdi =>
    Finset.sum_congr rfl fun dj hdj => ?_
  rw [Finset.mem_range] at hch hdi hdj
  rw [hw _ (Shape.mem_indices.2 (by simp [kernelShape, hf, hch, hdi, hdj])), below, below]
  split
  · rw [hx _ (Shape.mem_indices.2 ?_)]
    simp only [inputShape, List.forall₂_cons, List.forall₂_nil_right_iff, and_true]
    omega
  · rfl

end Window

/-- A convolution of an input with a kernel, and with a bias for each filter if there is one. -/
structure IsConvolution (g : Circuit.Graph) (o : Circuit.Operation) (c : Window)
    (x w : Circuit.Tensor) (b : Option Circuit.Tensor) : Prop where
  kind : o.kind? = some .conv
  inputs : o.inputs = (x :: w :: b.toList).map (·.id)
  declared : ∀ t ∈ x :: w :: b.toList, g.tensor? t.id = some t
  input : x.shape = [c.channels, c.height, c.width]
  kernel : w.shape = [c.filters, c.channels, c.kernelHeight, c.kernelWidth]
  bias : ∀ t ∈ b, t.shape = [c.filters]
  stride : pair? ((o.param? "stride").getD (.int 1)) = some (c.strideH, c.strideW)
  padding : pair? ((o.param? "padding").getD (.int 0)) = some (c.padH, c.padW)
  forward : 1 ≤ c.strideH ∧ 1 ≤ c.strideW
  outward : 0 ≤ c.padH ∧ 0 ≤ c.padW

end Lowering

namespace Emitter

open Lowering

/-- The operands of a convolution, with the bias at the scale of the products. -/
def convOperands [Platform] (s : Setting) (o : Circuit.Operation) (x w : Circuit.Tensor) :
    Option Circuit.Tensor → Emitter (Operand × Operand × Option Operand)
  | none => do
    let x ← operand s x.id
    let w ← operand s w.id
    return (x, w, none)
  | some b => do
    let x ← operand s x.id
    let w ← operand s w.id
    let b ← operand s b.id
    let b ← rescaled s o b (x.scale + w.scale) "bias"
    return (x, w, some b)

section

variable {s : Setting} {o : Circuit.Operation} {c : Window} {x w t : Circuit.Tensor}
  {b : Option Circuit.Tensor} (hw : s.witness.Complete s.modulus s.graph)
  (ho : o ∈ s.graph.operations)

theorem tensor_eq {id : String} (h : s.graph.tensor? id = some t) :
    (s.tensor id : Emitter Circuit.Tensor) = pure t := by
  rw [Lowering.Setting.tensor, h]

theorem mismatch_bind {α β : Type} (operands : List (List Nat)) (output : List Nat)
    (complaint : ShapeComplaint) (f : α → Emitter β) :
    mismatch o operands output complaint >>= f = mismatch o operands output complaint :=
  rfl

include hw ho

theorem operand_eq (h : s.graph.tensor? t.id = some t) (hi : t.id ∈ o.inputs) :
    ∃ values, operand s t.id = (do
      let address ← tensor t
      return ⟨⟨t, address.absolute, t.scale⟩, values⟩) := by
  obtain ⟨t', values, ht, hv, -⟩ := hw t.id (Circuit.Graph.input_required ho hi)
  refine ⟨values, ?_⟩
  rw [operand, tensor_eq h, pure_bind, hv]

theorem reads_convolution (h : IsConvolution s.graph o c x w b) :
    (∃ values, operand s x.id = (do
      let address ← tensor x
      return ⟨⟨x, address.absolute, x.scale⟩, values⟩)) ∧
    (∃ values, operand s w.id = (do
      let address ← tensor w
      return ⟨⟨w, address.absolute, w.scale⟩, values⟩)) ∧
    channelsAgree x.shape w.shape = true ∧
    window? x.shape w.shape (c.strideH, c.strideW) (c.padH, c.padW) = some c ∧
    ¬(c.strideH < 1 ∨ c.strideW < 1 ∨ c.padH < 0 ∨ c.padW < 0) := by
  refine ⟨operand_eq hw ho (h.declared x (by simp)) (by simp [h.inputs]),
    operand_eq hw ho (h.declared w (by simp)) (by simp [h.inputs]), ?_, ?_, ?_⟩
  · simp [h.input, h.kernel, channelsAgree]
  · simp [h.input, h.kernel, window?]
  · have := h.forward
    have := h.outward
    omega

theorem lowerConv_eq [Platform] (h : IsConvolution s.graph o c x w b)
    (ht : s.graph.tensor? o.output = some t) (hc : 1 ≤ c.outHeight ∧ 1 ≤ c.outWidth) :
    lowerConv s o = (do
      let (x', w', b') ← convOperands s o x w b
      s.checkOutput o ((x :: w :: b.toList).map (·.shape)) c.outShape
      checkWindow c
      let terms ← MonadExcept.ofExcept
        ((Shape.indices c.outShape).mapM (windowTerms c s.zero x' w' b'))
      lowerReduction s o c.outShape terms (x.scale + w.scale)) := by
  obtain ⟨⟨_, hx⟩, ⟨_, hk⟩, hch, hwin, hrange⟩ := reads_convolution hw ho h
  have hsize : ¬(c.outHeight < 1 ∨ c.outWidth < 1) := by omega
  cases b with
  | none =>
    rw [lowerConv, h.inputs]
    simp [convOperands, hx, hk, tensor_eq ht, Lowering.Operand.shape, hch, convPair, h.stride,
      h.padding, hrange, hwin, hsize]
  | some b =>
    obtain ⟨_, hb⟩ := operand_eq hw ho (h.declared b (by simp)) (by simp [h.inputs])
    rw [lowerConv, h.inputs]
    simp [convOperands, hx, hk, hb, tensor_eq ht, Lowering.Operand.shape, hch, convPair, h.stride,
      h.padding, hrange, hwin, hsize, h.bias b rfl]

theorem lowerConv_small [Platform] (h : IsConvolution s.graph o c x w b)
    (ht : s.graph.tensor? o.output = some t) (hc : ¬(1 ≤ c.outHeight ∧ 1 ≤ c.outWidth)) :
    lowerConv s o = (do
      let _ ← operand s x.id
      let _ ← operand s w.id
      mismatch o [x.shape, w.shape] t.shape .kernelTooLarge) := by
  obtain ⟨⟨_, hx⟩, ⟨_, hk⟩, hch, hwin, hrange⟩ := reads_convolution hw ho h
  have hsize : c.outHeight < 1 ∨ c.outWidth < 1 := by omega
  rw [lowerConv, h.inputs]
  cases b <;> simp [hx, hk, tensor_eq ht, Lowering.Operand.shape, hch, convPair, h.stride,
    h.padding, hrange, hwin, hsize, mismatch_bind]

theorem lowerConv_fails [Platform] (h : IsConvolution s.graph o c x w b)
    (ht : s.graph.tensor? o.output = some t) (hbad : ¬c.Gives t.shape) (e : State) :
    ∃ f e', (lowerConv s o).Fails e f e' ∧
      ((∃ shapes complaint, f = .compile (.shape ⟨o.id, o.kind, shapes, t.shape, complaint⟩)) ∨
        (convOperands s o x w b).Fails e f e') := by
  have hmis (shapes : List (List Nat)) (complaint : ShapeComplaint) (e : State) :
      (mismatch o shapes t.shape complaint : Emitter Unit).Fails e
        (.compile (.shape ⟨o.id, o.kind, shapes, t.shape, complaint⟩)) e := rfl
  by_cases hc : 1 ≤ c.outHeight ∧ 1 ≤ c.outWidth
  · have hne : t.shape ≠ c.outShape := fun heq => hbad ((Window.gives_iff h.forward).2 ⟨heq, hc⟩)
    rw [lowerConv_eq hw ho h ht hc]
    rcases Stateful.yields_or_fails (convOperands s o x w b) e with ⟨a, d, hy⟩ | ⟨f, d, hf⟩
    · have hcheck := hmis ((x :: w :: b.toList).map (·.shape)) (.expected c.outShape) d
      have heq : (s.checkOutput o ((x :: w :: b.toList).map (·.shape)) c.outShape : Emitter Unit) =
          mismatch o ((x :: w :: b.toList).map (·.shape)) t.shape (.expected c.outShape) := by
        rw [Lowering.Setting.checkOutput, tensor_eq ht, pure_bind, if_pos hne]
      rw [← heq] at hcheck
      exact ⟨_, d, hy.bind_fails hcheck.bind, .inl ⟨_, _, rfl⟩⟩
    · exact ⟨f, d, hf.bind, .inr hf⟩
  · rw [lowerConv_small hw ho h ht hc]
    obtain ⟨rest, hrest⟩ : ∃ rest : Operand → Operand →
        Emitter (Operand × Operand × Option Operand), convOperands s o x w b =
          operand s x.id >>= fun x' => operand s w.id >>= rest x' := by
      cases b <;> exact ⟨_, rfl⟩
    rw [hrest]
    rcases Stateful.yields_or_fails (operand s x.id) e with ⟨x', d, hx⟩ | ⟨f, d, hf⟩
    · rcases Stateful.yields_or_fails (operand s w.id) d with ⟨w', d', hk⟩ | ⟨f, d', hf⟩
      · exact ⟨_, d', hx.bind_fails (hk.bind_fails (hmis _ _ d')), .inl ⟨_, _, rfl⟩⟩
      · exact ⟨f, d', hx.bind_fails hf.bind, .inr (hx.bind_fails hf.bind)⟩
    · exact ⟨f, d, hf.bind, .inr hf.bind⟩

end

end Emitter

namespace Lowering

section

variable {g : Circuit.Graph} {zero : Int} {a : Allocator} {o : Circuit.Operation} {c : Window}
  {x w : Circuit.Tensor} {b : Option Circuit.Tensor}

/-- The bias of a convolution at the scale of the products, with the block of its copy and the steps
that fill it. -/
inductive BiasBrought (g : Circuit.Graph) (a : Allocator) (o : Circuit.Operation) (natural : Int) :
    Option Circuit.Tensor → Option Operand → List Allocation → List Step → Prop
  | none : BiasBrought g a o natural none none [] []
  | some {t : Circuit.Tensor} {v v' : Operand} {bs : List Allocation} {ss : List Step} :
      Placed g a t.id v → v.tensor = t → Brought o v natural v' bs ss →
      BiasBrought g a o natural (some t) (some v') bs ss

/-- The steps of a convolution: those that copy the bias, and a chain for each element. -/
structure ConvolutionSteps (g : Circuit.Graph) (zero : Int) (a : Allocator)
    (o : Circuit.Operation) (c : Window) (x w : Circuit.Tensor) (b : Option Circuit.Tensor)
    (x' w' : Operand) (b' : Option Operand) (out : Operand) (r : Reduction)
    (copies sums : List Step) : Prop where
  input : Placed g a x.id x' ∧ x'.tensor = x
  kernel : Placed g a w.id w' ∧ w'.tensor = w
  bias : ∃ bs, BiasBrought g a o (x.scale + w.scale) b b' bs copies
  output : Placed g a o.output out ∧ out.shape = c.outShape
  chained : Chained zero o (x.scale + w.scale) c.outShape out.base
    (fun index => (b'.toList.map fun v => ⟨v.cell (index.getD 0 0), none⟩) ++
      c.taps zero x' w' (index.getD 0 0) (index.getD 1 0) (index.getD 2 0)) r sums

theorem Convolves.chained {natural out : Int} {x w : Operand} (hc : Convolves o x w c)
    (bias : Option Operand) {bs : List Allocation} {ss : List Step}
    (hr : Reduced zero o natural c.outShape out (c.terms zero x w bias) bs ss) :
    ∃ r, Chained zero o natural c.outShape out
      (fun index => (bias.toList.map fun v => ⟨v.cell (index.getD 0 0), none⟩) ++
        c.taps zero x w (index.getD 0 0) (index.getD 1 0) (index.getD 2 0)) r ss := by
  have hu : Uniform (fun _ => True) c.outShape (c.terms zero x w bias) _ _ :=
    conv_uniform hc (by simp) (by simp) trivial bias (by simp)
  exact (hr.chained hu).imp fun _ => And.left

namespace IsConvolution

variable (h : IsConvolution g o c x w b)

include h

theorem operands : HasOperands g o (x :: w :: b.toList) := ⟨h.inputs, h.declared⟩

theorem window_eq {x' w' : Operand} {c' : Window} (hc : Convolves o x' w' c')
    (hx : x'.tensor = x) (hw : w'.tensor = w) : c' = c := by
  obtain ⟨hxs, hws⟩ := hc.shapes
  obtain ⟨hst, hpd⟩ := hc.steps
  rw [Operand.shape, hx, h.input] at hxs
  rw [Operand.shape, hw, h.kernel] at hws
  rw [h.stride] at hst
  rw [h.padding] at hpd
  cases c
  cases c'
  simp_all [Window.inputShape, Window.kernelShape]

theorem steps [Platform] {lookupBits : Json} {ts : List FoldedTable} {bs : List Allocation}
    {ss : List Step} (ht : Template g lookupBits zero a ts o bs ss) :
    ∃ x' w' b' out r copies sums, ss = copies ++ sums ∧
      ConvolutionSteps g zero a o c x w b x' w' b' out r copies sums := by
  have hk := h.kind
  have hin := h.inputs
  cases ht with
  | @reduction natural terms out bs rs ss steps hs hout hr =>
    generalize hsh : out.shape = shape at hs hr
    cases hs with
    | @conv ix iw x' w' c' _ hi px pw hc =>
      rw [hin] at hi
      cases b with
      | some t => simp at hi
      | none =>
        obtain ⟨rfl, rfl⟩ : x.id = ix ∧ w.id = iw := by simpa using hi
        have hx := h.operands.placed (by simp) px
        have hw := h.operands.placed (by simp) pw
        obtain rfl := h.window_eq hc hx hw
        obtain ⟨r, hr⟩ := hc.chained none hr
        rw [px.scale, pw.scale, hx, hw] at hr
        exact ⟨x', w', none, out, r, [], steps, rfl, ⟨px, hx⟩, ⟨pw, hw⟩, ⟨[], .none⟩,
          ⟨hout, hsh⟩, hr⟩
    | @biased ix iw ib x' w' v v' c' bs ss _ hi px pw pb hc hshape hbr =>
      rw [hin] at hi
      cases b with
      | none => simp at hi
      | some t =>
        obtain ⟨rfl, rfl, rfl⟩ : x.id = ix ∧ w.id = iw ∧ t.id = ib := by simpa using hi
        have hx := h.operands.placed (by simp) px
        have hw := h.operands.placed (by simp) pw
        have hb := h.operands.placed (by simp) pb
        obtain rfl := h.window_eq hc hx hw
        obtain ⟨r, hr⟩ := hc.chained (some v') hr
        rw [px.scale, pw.scale, hx, hw] at hr hbr
        exact ⟨x', w', some v', out, r, ss, steps, rfl, ⟨px, hx⟩, ⟨pw, hw⟩,
          ⟨bs, .some pb hb hbr⟩, ⟨hout, hsh⟩, hr⟩
    | _ => simp_all
  | linear hk' => rcases hk' with ⟨hk', -⟩ | ⟨hk', -⟩ <;> simp_all
  | unary hk' => rcases hk' with ⟨hk', -⟩ | ⟨hk', -⟩ <;> simp_all
  | lookup hk' hcat => simp_all
  | _ => simp_all

end IsConvolution

end

end Lowering

end TensorAsm
