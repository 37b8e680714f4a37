import Mathlib
import TensorAsm.Proofs.Broadcasting
import TensorAsm.Proofs.ConvolutionRuns
/-!
The block of an elementwise operation, run alone. It leaves at each index of the output what the
operation makes of the two elements that stand for the index, unless a change of scale is too far.
-/

namespace TensorAsm

namespace Lowering

structure IsElementwise (g : Circuit.Graph) (o : Circuit.Operation) (op : Arithmetic)
    (x y : Circuit.Tensor) : Prop where
  kind : o.kind? = some op.kind
  operands : HasOperands g o [x, y]

/-- The scales to which the operands are brought, and the one that they then result in. -/
structure Scales where
  left : Int
  right : Int
  natural : Int

namespace Arithmetic

def apply : Arithmetic → Int → Int → Int
  | add, p, q => p + q
  | sub, p, q => p - q
  | mul, p, q => p * q

def scales (op : Arithmetic) (o : Circuit.Operation) (x y : Circuit.Tensor) : Scales :=
  match op with
  | add | sub => ⟨o.scale, o.scale, o.scale⟩
  | mul => ⟨x.scale, y.scale, x.scale + y.scale⟩

/-- What an operation makes of two elements of the field. Those of a sum or a difference are moved
to its scale, and so is the product. -/
def result (op : Arithmetic) (m : Int) (o : Circuit.Operation) (x y : Circuit.Tensor) (p q : Int) :
    Int :=
  match op with
  | add => Quantity.rescale (Field.centre m p) (x.scale - o.scale) +
      Quantity.rescale (Field.centre m q) (y.scale - o.scale)
  | sub => Quantity.rescale (Field.centre m p) (x.scale - o.scale) -
      Quantity.rescale (Field.centre m q) (y.scale - o.scale)
  | mul => Quantity.rescale (Field.centre m (p * q)) (x.scale + y.scale - o.scale)

/-- None of what is moved is moved too far. -/
def Aligns [Platform] (op : Arithmetic) (m : Int) (o : Circuit.Operation) (x y : Circuit.Tensor)
    (entry : String → List Nat → Int) (shape : List Nat) : Prop :=
  match op with
  | add | sub => ∀ t ∈ [x, y], ∀ index ∈ Shape.indices t.shape,
      Quantity.rescaleFault? (Field.centre m (entry t.id index)) (t.scale - o.scale) = none
  | mul => ∀ index ∈ Shape.indices shape, Quantity.rescaleFault?
      (Field.centre m (entry x.id (Shape.aligned x.shape index) *
        entry y.id (Shape.aligned y.shape index))) (x.scale + y.scale - o.scale) = none

theorem kind_injective : Function.Injective kind := by
  intro op op' h
  cases op <;> cases op' <;> first | rfl | cases h

theorem kind_mem (op : Arithmetic) : op.kind ∈ [Circuit.Kind.add, .sub, .mul] := by
  cases op <;> simp [kind]

theorem dest_instruction (op : Arithmetic) (d p q : Int) :
    (op.instruction d p q).dest? = some d := by
  cases op <;> rfl

theorem eval_instruction [Platform] (op : Arithmetic) (S : Semantics) (look : Int → List Table.Row)
    (k : Int → Int) (d p q : Int) :
    (op.instruction d p q).eval S look k = some (S.wrap (op.apply (k p) (k q))) := by
  cases op <;> rfl

end Arithmetic

section

variable {S : Semantics} {look : Int → List Table.Row} {k : Int → Int} {o : Circuit.Operation}
  {op : Arithmetic} {u v : Operand} {shape : List Nat} {t : Target}

theorem binaryStep_landed [Platform] {index : List Nat}
    (h : Holds S look k (binaryStep o op u v shape t index).instruction) :
    k (t.landing + Shape.flat shape index) =
      S.wrap (op.apply (k (u.cell (Shape.flatProject u.shape index)))
        (k (v.cell (Shape.flatProject v.shape index)))) := by
  have hk := h _ (op.dest_instruction _ _ _)
  rw [binaryStep, op.eval_instruction] at hk
  exact (Option.some.inj hk).symm

theorem Landing.finished [Platform] {natural size out : Int} {ls : List Allocation}
    (h : Landing o natural size out t ls) {label : String} {i : Nat} {z : Int}
    (hz : k (t.landing + i) = S.wrap z)
    (hd : ∀ s ∈ t.finish label i, Holds S look k s.instruction) :
    S.moved (natural - o.scale) (S.wrap z) = some (k (out + i)) := by
  cases h with
  | direct hn =>
    rw [hn, Int.sub_self, Semantics.moved_zero (S.wrap_wrap z)]
    exact congrArg some hz.symm
  | @apart b hn =>
    have hmem : ⟨.rescale (out + i) (b.address.absolute + i) (natural - o.scale),
        label ++ scaleText natural o.scale, false⟩ ∈
          Target.finish ⟨out, b.address.absolute, natural, o.scale⟩ label i := by
      simp [Target.finish, Target.rescales, Target.finishStep, hn]
    rw [← hz]
    exact hd _ hmem _ rfl

theorem Landing.shift {natural size out : Int} {ls : List Allocation}
    (h : Landing o natural size out t ls) : t.natural - t.scale = natural - o.scale := by
  cases h <;> rfl

theorem binarySteps_behind {pre post : List Step} {s : Step}
    (h : binarySteps o op u v shape t = pre ++ s :: post) {dest e shift : Int}
    (hr : s.instruction = .rescale dest e shift) :
    ∃ index ∈ Shape.indices shape, e = t.landing + Shape.flat shape index ∧
      shift = t.natural - t.scale ∧ binaryStep o op u v shape t index ∈ pre := by
  rw [binarySteps_eq] at h
  obtain ⟨before, index, after, us, vs, hi, hindex, rfl⟩ := Sequences.flatMap_split h
  have hnot : s ∉ [binaryStep o op u v shape t index] := by
    intro hin
    rw [List.mem_singleton.1 hin] at hr
    cases op <;> simp [binaryStep, Arithmetic.instruction] at hr
  obtain ⟨ws, rfl, hfinish⟩ := Sequences.split_right hindex hnot
  refine ⟨index, by simp [hi], ?_⟩
  have hmem : s ∈ t.finish (elementLabel o index) (Shape.flat shape index) := by simp [hfinish]
  unfold Target.finish at hmem
  split at hmem
  · rw [List.mem_singleton.1 hmem] at hr
    obtain ⟨-, rfl, rfl⟩ := Instruction.rescale.inj hr
    exact ⟨rfl, rfl, by simp⟩
  · simp at hmem

end

/-- The blocks and steps of an elementwise operation. -/
inductive Joined (o : Circuit.Operation) (op : Arithmetic) (c : Scales) (u v out : Operand) :
    List Allocation → List Step → Prop
  | intro {u' v' : Operand} {bx bz ls : List Allocation} {sx sy : List Step} {t : Target} :
      Brought o u c.left u' bx sx → Brought o v c.right v' bz sy →
      Landing o c.natural (Shape.volume out.shape) out.base t ls →
      Joined o op c u v out (bx ++ bz ++ ls) (sx ++ sy ++ binarySteps o op u' v' out.shape t)

section

variable {g : Circuit.Graph} {zero : Int} {a : Allocator} {o : Circuit.Operation}
  {op : Arithmetic} {x y : Circuit.Tensor} {bs : List Allocation} {ss : List Step}

/-- The operands of a sum or a difference are brought to the scale of the operation, those of a
product are left as they are. -/
theorem IsElementwise.joined [Platform] {lookupBits : Json} {ts : List FoldedTable}
    (h : IsElementwise g o op x y) (ht : Template g lookupBits zero a ts o bs ss) :
    ∃ u v out, Placed g a x.id u ∧ Placed g a y.id v ∧ Placed g a o.output out ∧
      Shape.broadcast? x.shape y.shape = some out.shape ∧
      Joined o op (op.scales o x y) u v out bs ss := by
  obtain ⟨hkind, hops⟩ := h
  have hother (kind : Circuit.Kind) (hk : o.kind? = some kind) :
      kind ∈ [Circuit.Kind.add, .sub, .mul] := by
    obtain rfl := Option.some.inj (hkind.symm.trans hk)
    exact op.kind_mem
  have hcategory (kind : Circuit.Kind) (hk : o.kind? = some kind) :
      kind.category = .elementwise := by
    have hall : ∀ kind ∈ [Circuit.Kind.add, .sub, .mul], kind.category = .elementwise := by decide
    exact hall kind (hother kind hk)
  cases ht with
  | @linear op' ia ib u v u' v' out bx bz sx sy hk hi hu hv hout hb hbx hby =>
    obtain ⟨rfl, rfl, rfl, rfl⟩ := hops.pair hi hu hv
    have hj : Joined o op' ⟨o.scale, o.scale, o.scale⟩ u v out (bx ++ bz ++ [])
        (sx ++ sy ++ binarySteps o op' u' v' out.shape ⟨out.base, out.base, o.scale, o.scale⟩) :=
      .intro hbx hby (.direct rfl)
    rw [List.append_nil] at hj
    refine ⟨u, v, out, hu, hv, hout, hb, ?_⟩
    rcases hk with ⟨hk, rfl⟩ | ⟨hk, rfl⟩
    · obtain rfl : op = .add := Arithmetic.kind_injective (Option.some.inj (hkind.symm.trans hk))
      exact hj
    · obtain rfl : op = .sub := Arithmetic.kind_injective (Option.some.inj (hkind.symm.trans hk))
      exact hj
  | @product ia ib u v out t ls hk hi hu hv hout hb hl =>
    obtain ⟨rfl, rfl, rfl, rfl⟩ := hops.pair hi hu hv
    rw [hu.scale, hv.scale] at hl
    obtain rfl : op = .mul := Arithmetic.kind_injective (Option.some.inj (hkind.symm.trans hk))
    exact ⟨u, v, out, hu, hv, hout, hb, .intro (.same hu.scale) (.same hv.scale) hl⟩
  | unary hk =>
    rcases hk with ⟨hk, -⟩ | ⟨hk, -⟩ <;> exact absurd (hother _ hk) (by decide)
  | reduction hs =>
    obtain ⟨kind, hk, hcat⟩ := hs.contraction
    exact absurd ((hcategory kind hk).symm.trans hcat) (by decide)
  | lookup hk hcat => exact absurd ((hcategory _ hk).symm.trans hcat) (by decide)
  | rescale hk | clamp hk => exact absurd (hother _ hk) (by decide)

variable {m : Int} {entry : String → List Nat → Int} {c : Scales} {shape : List Nat}

/-- The entry of a tensor for an index of the whole, brought to a scale. -/
def brought (m : Int) (entry : String → List Nat → Int) (t : Circuit.Tensor) (target : Int)
    (index : List Nat) : Int :=
  Field.encode m (Quantity.rescale
    (Field.centre m (entry t.id (Shape.aligned t.shape index))) (t.scale - target))

namespace Scales

/-- The result for an index at the natural scale. -/
def joint (c : Scales) (op : Arithmetic) (m : Int) (x y : Circuit.Tensor)
    (entry : String → List Nat → Int) (index : List Nat) : Int :=
  op.apply (brought m entry x c.left index) (brought m entry y c.right index)

structure Reach [Platform] (c : Scales) (op : Arithmetic) (m : Int) (o : Circuit.Operation)
    (x y : Circuit.Tensor) (entry : String → List Nat → Int) (shape : List Nat) : Prop where
  left : ∀ index ∈ Shape.indices x.shape,
    Quantity.rescaleFault? (Field.centre m (entry x.id index)) (x.scale - c.left) = none
  right : ∀ index ∈ Shape.indices y.shape,
    Quantity.rescaleFault? (Field.centre m (entry y.id index)) (y.scale - c.right) = none
  natural : ∀ index ∈ Shape.indices shape,
    Quantity.rescaleFault? (Field.centre m (c.joint op m x y entry index))
      (c.natural - o.scale) = none

end Scales

section

variable [Platform] {ok : Int → Prop} {ts : List Circuit.Tensor} {blk : Allocation} {u u' : Operand}
  {target : Int} {cs : List Allocation} {rs pre post : List Step} {memory : Machine.Memory}
  {w : Machine.State} {look : Int → List Table.Row} {index : List Nat}
  (hops : HasOperands g o ts) (hst : Stands g zero a o bs)
  (hb : a.bound? .tensor o.output = some blk) (hf : Fills ok bs blk.cells ss)
  (hl : Filled m a ts entry memory) (hx : x ∈ ts) (hu : Placed g a x.id u) (hss : ss = pre ++ post)
  (hran : Machine.Ran m look (.start memory) (pre.map (·.instruction)) w)

include hops hst hb hf hl hx hu hss hran

theorem Brought.shown (h : Brought o u target u' cs rs) (hrs : rs ⊆ pre)
    (hi : index ∈ Shape.indices x.shape) :
    Quantity.rescaleFault? (Field.centre m (entry x.id index)) (x.scale - target) = none ∧
      w.cell (u'.cell (Shape.flat x.shape index)) = Field.encode m
        (Quantity.rescale (Field.centre m (entry x.id index)) (x.scale - target)) :=
  h.shows hu (hops.placed hx hu) (hl.elements x hx)
    (fun _ hi => hl.shown hops hst hb hf hss hran hx hu hi)
    (fun _ hs => hran.holds _ (List.mem_map_of_mem (hrs hs))) hi

theorem Brought.shown_at (h : Brought o u target u' cs rs) (hrs : rs ⊆ pre)
    (hs : Shape.Stretches x.shape shape) (hi : index ∈ Shape.indices shape) :
    w.cell (u'.cell (Shape.flatProject u'.shape index)) = brought m entry x target index := by
  have hcell := (h.shown hops hst hb hf hl hx hu hss hran hrs (Shape.project_mem_indices hs hi)).2
  rw [Operand.shape, h.tensor_eq, hops.placed hx hu, Shape.flatProject, hcell, hs.project_eq hi]
  rfl

theorem Brought.stuck (h : Brought o u target u' cs rs) {s : Step} (hs : s ∈ rs)
    {dest e shift : Int} (hr : s.instruction = .rescale dest e shift)
    (hnone : (Semantics.field m).moved shift (w.cell e) = none) :
    ∃ index ∈ Shape.indices x.shape,
      Quantity.rescaleFault? (Field.centre m (entry x.id index)) (x.scale - target) ≠ none := by
  obtain ⟨i, hi, d, heq⟩ := h.step hs
  obtain ⟨-, rfl, rfl⟩ := Instruction.rescale.inj (hr.symm.trans heq)
  obtain rfl := hops.placed hx hu
  obtain ⟨index, hindex, rfl⟩ := Shape.exists_index hi
  refine ⟨index, hindex, ?_⟩
  have hcell := hl.shown hops hst hb hf hss hran hx hu hindex
  rw [Semantics.moved_eq_none, hu.scale, Operand.shape, hcell] at hnone
  exact hnone

end

section

variable [Platform] {ok : Int → Prop} {blk : Allocation} {u v u' v' : Operand} {out : Int}
  {t : Target} {bx bz ls : List Allocation} {sx sy pre post : List Step} {memory : Machine.Memory}
  {w : Machine.State} {look : Int → List Table.Row} (hbx : Brought o u c.left u' bx sx)
  (hby : Brought o v c.right v' bz sy) (hland : Landing o c.natural (Shape.volume shape) out t ls)
  (hops : HasOperands g o [x, y]) (hu : Placed g a x.id u) (hv : Placed g a y.id v)
  (hsx : Shape.Stretches x.shape shape) (hsy : Shape.Stretches y.shape shape)
  (hst : Stands g zero a o bs) (hb : a.bound? .tensor o.output = some blk)
  (hf : Fills ok bs blk.cells (sx ++ sy ++ binarySteps o op u' v' shape t))
  (hl : Filled m a [x, y] entry memory)

include hbx hby hops hu hv hsx hsy hst hb hf hl

theorem joint_landed (hss : sx ++ sy ++ binarySteps o op u' v' shape t = pre ++ post)
    (hran : Machine.Ran m look (.start memory) (pre.map (·.instruction)) w)
    (hcopies : sx ++ sy ⊆ pre) {index : List Nat} (hi : index ∈ Shape.indices shape)
    (hstep : binaryStep o op u' v' shape t index ∈ pre) :
    w.cell (t.landing + Shape.flat shape index) =
      Field.encode m (c.joint op m x y entry index) := by
  have hleft := hbx.shown_at hops hst hb hf hl (by simp) hu hss hran
    (fun s hs => hcopies (List.mem_append_left _ hs)) hsx hi
  have hright := hby.shown_at hops hst hb hf hl (by simp) hv hss hran
    (fun s hs => hcopies (List.mem_append_right _ hs)) hsy hi
  rw [binaryStep_landed (hran.holds _ (List.mem_map_of_mem hstep)), hleft, hright]
  rfl

include hland

theorem joint_finished (hran : Machine.Ran m look (.start memory)
      ((sx ++ sy ++ binarySteps o op u' v' shape t).map (·.instruction)) w) :
    c.Reach op m o x y entry shape ∧ ∀ index ∈ Shape.indices shape,
      Field.encode m (Quantity.rescale (Field.centre m (c.joint op m x y entry index))
        (c.natural - o.scale)) = w.cell (out + Shape.flat shape index) := by
  have hend := (List.append_nil (sx ++ sy ++ binarySteps o op u' v' shape t)).symm
  have hfinal (index : List Nat) (hi : index ∈ Shape.indices shape) := by
    have hsteps : binaryStep o op u' v' shape t index ::
        t.finish (elementLabel o index) (Shape.flat shape index) ⊆
          sx ++ sy ++ binarySteps o op u' v' shape t := fun s hs =>
      List.mem_append_right _ (List.mem_flatMap.2 ⟨index, hi, hs⟩)
    have hlanded := joint_landed hbx hby hops hu hv hsx hsy hst hb hf hl hend hran
      (List.subset_append_left _ _) hi (hsteps List.mem_cons_self)
    exact moved_encode.1 (hland.finished hlanded fun s hs =>
      hran.holds _ (List.mem_map_of_mem (hsteps (List.mem_cons_of_mem _ hs))))
  refine ⟨⟨fun index hi => ?_, fun index hi => ?_, fun index hi => (hfinal index hi).1⟩,
    fun index hi => (hfinal index hi).2⟩
  · exact (hbx.shown hops hst hb hf hl (by simp) hu hend hran (by simp) hi).1
  · exact (hby.shown hops hst hb hf hl (by simp) hv hend hran (by simp) hi).1

theorem joint_stuck {s : Step}
    (hss : sx ++ sy ++ binarySteps o op u' v' shape t = pre ++ s :: post)
    (hran : Machine.Ran m look (.start memory) (pre.map (·.instruction)) w) {dest e shift : Int}
    (hr : s.instruction = .rescale dest e shift)
    (hnone : (Semantics.field m).moved shift (w.cell e) = none) :
    ¬c.Reach op m o x y entry shape := by
  intro hreach
  rcases Sequences.append_split hss with ⟨us, hcopies⟩ | ⟨us, rfl, hjoin⟩
  · -- an operand is being copied
    have hmem : s ∈ sx ++ sy := by simp [hcopies]
    rcases List.mem_append.1 hmem with hs | hs
    · obtain ⟨index, hi, hfar⟩ :=
        hbx.stuck hops hst hb hf hl (by simp) hu hss hran hs hr hnone
      exact hfar (hreach.left index hi)
    · obtain ⟨index, hi, hfar⟩ :=
        hby.stuck hops hst hb hf hl (by simp) hv hss hran hs hr hnone
      exact hfar (hreach.right index hi)
  · -- an element is being finished, so that it has landed
    obtain ⟨index, hi, rfl, rfl, hstep⟩ := binarySteps_behind hjoin hr
    rw [joint_landed hbx hby hops hu hv hsx hsy hst hb hf hl hss hran
      (List.subset_append_left _ _) hi (List.mem_append_right _ hstep), hland.shift,
      Semantics.moved_eq_none] at hnone
    refine hnone ?_
    have hfar := hreach.natural index hi
    rw [← Field.centre_encode_self] at hfar
    exact hfar

end

/-- Run over its operands, an elementwise operation gets through just if nothing is moved too far,
and leaves its results at its scale. -/
theorem Joined.runs [Platform] {u v out : Operand} {blk : Allocation}
    (h : Joined o op c u v out bs ss) (hops : HasOperands g o [x, y]) (hu : Placed g a x.id u)
    (hv : Placed g a y.id v) (hsx : Shape.Stretches x.shape out.shape)
    (hsy : Shape.Stretches y.shape out.shape) (hst : Stands g zero a o bs)
    (hb : a.bound? .tensor o.output = some blk)
    (hcells : blk.cells = elementCells out.shape out.base)
    (har : ∀ s ∈ ss, s.instruction.isArithmetic = true) {settings : Machine.Settings}
    (hm : settings.modulus ≠ 0) (hs : settings.strict = false) {memory : Machine.Memory}
    (hl : Filled settings.modulus a [x, y] entry memory) :
    ∃ last stop, Machine.runThrough settings (.start memory) (ss.map (·.instruction)) =
        (last, stop) ∧
      (stop = none ↔ c.Reach op settings.modulus o x y entry out.shape) ∧
      (stop = none → ∀ index ∈ Shape.indices out.shape,
        last.memory[out.base + (Shape.flat out.shape index : Int)]? =
          some (Field.encode settings.modulus (Quantity.rescale
            (Field.centre settings.modulus (c.joint op settings.modulus x y entry index))
            (c.natural - o.scale)))) := by
  obtain @⟨u', v', bx, bz, ls, sx, sy, t, hbx, hby, hland⟩ := h
  -- the zero cell is not among what is read
  have hf : Fills (InputCell g a o) (bx ++ bz ++ ls) blk.cells
      (sx ++ sy ++ binarySteps o op u' v' out.shape t) := by
    rw [hcells]
    refine joined_fills op hbx hby hland (by rwa [Operand.shape, hops.placed (by simp) hu])
      (by rwa [Operand.shape, hops.placed (by simp) hv]) ?_ ?_
    · exact fun i hi => ⟨x.id, by simp [hops.inputs], u, hu, i, hi, rfl⟩
    · exact fun i hi => ⟨y.id, by simp [hops.inputs], v, hv, i, hi, rfl⟩
  rcases hst.runs hb hf (fun _ => .inr) har hm hs (fun _ he => hl.input hops he) (fun _ => []) with
    ⟨last, hrun, hran⟩ | ⟨⟨last, f, hrun⟩, pre, s, post, w, hss, hran, dest, e, shift, hr, hnone⟩
  · obtain ⟨hreach, hleft⟩ := joint_finished hbx hby hland hops hu hv hsx hsy hst hb hf hl hran
    refine ⟨last, none, hrun, ⟨fun _ => hreach, fun _ => rfl⟩, fun _ index hi => ?_⟩
    have hthere : out.base + (Shape.flat out.shape index : Int) ∈
        targets ((sx ++ sy ++ binarySteps o op u' v' out.shape t).map (·.instruction)) := by
      rw [targets_map, mem_writes, hf.final, hcells, mem_elementCells]
      exact .inr ⟨_, Shape.flat_lt hi, rfl⟩
    rw [hran.there _ hthere, hleft index hi]
  · have hfar := joint_stuck hbx hby hland hops hu hv hsx hsy hst hb hf hl hss hran hr hnone
    exact ⟨last, some f, hrun, ⟨by simp, fun hreach => absurd hreach hfar⟩, by simp⟩

theorem brought_own {t : Circuit.Tensor} {index : List Nat}
    (he : Field.encode m (entry t.id (Shape.aligned t.shape index)) =
      entry t.id (Shape.aligned t.shape index)) :
    brought m entry t t.scale index = entry t.id (Shape.aligned t.shape index) := by
  rw [brought, Int.sub_self, Quantity.rescale, if_pos rfl, Field.encode_centre, he]

theorem joint_mul {index : List Nat} (he : ∀ t ∈ [x, y],
      Field.encode m (entry t.id (Shape.aligned t.shape index)) =
        entry t.id (Shape.aligned t.shape index)) :
    (Arithmetic.mul.scales o x y).joint .mul m x y entry index =
      entry x.id (Shape.aligned x.shape index) * entry y.id (Shape.aligned y.shape index) := by
  rw [Arithmetic.scales, Scales.joint, brought_own (he x (by simp)), brought_own (he y (by simp))]
  rfl

theorem Arithmetic.moved_joint {index : List Nat} (he : ∀ t ∈ [x, y],
      Field.encode m (entry t.id (Shape.aligned t.shape index)) =
        entry t.id (Shape.aligned t.shape index)) :
    Field.encode m (Quantity.rescale
        (Field.centre m ((op.scales o x y).joint op m x y entry index))
        ((op.scales o x y).natural - o.scale)) =
      Field.encode m (op.result m o x y (entry x.id (Shape.aligned x.shape index))
        (entry y.id (Shape.aligned y.shape index))) := by
  have hright (p q : Int) : Field.encode m (p + Field.encode m q) = Field.encode m (p + q) := by
    rw [Int.add_comm, Field.encode_add, Int.add_comm]
  have hminus (p q : Int) : Field.encode m (Field.encode m p - q) = Field.encode m (p - q) := by
    rw [Int.sub_eq_add_neg, Field.encode_add, Int.sub_eq_add_neg]
  cases op with
  | add =>
    rw [Arithmetic.scales, Int.sub_self, Quantity.rescale, if_pos rfl, Field.encode_centre]
    exact (Field.encode_add m _ _).trans (hright _ _)
  | sub =>
    rw [Arithmetic.scales, Int.sub_self, Quantity.rescale, if_pos rfl, Field.encode_centre]
    exact (Field.encode_sub m _ _).trans (hminus _ _)
  | mul =>
    rw [joint_mul he]
    rfl

theorem Arithmetic.reach_iff_aligns [Platform] (he : ∀ t ∈ [x, y], ∀ index ∈ Shape.indices shape,
      Field.encode m (entry t.id (Shape.aligned t.shape index)) =
        entry t.id (Shape.aligned t.shape index)) :
    (op.scales o x y).Reach op m o x y entry shape ↔ op.Aligns m o x y entry shape := by
  have hstay (p s : Int) : Quantity.rescaleFault? p (s - s) = none := by
    rw [Int.sub_self]
    rfl
  cases op with
  | add | sub =>
    simp only [Aligns, List.forall_mem_cons]
    exact ⟨fun h => ⟨h.left, h.right, by simp⟩, fun h => ⟨h.1, h.2.1, fun _ _ => hstay _ _⟩⟩
  | mul =>
    have hjoint (index : List Nat) (hi : index ∈ Shape.indices shape) :=
      joint_mul (o := o) fun t ht => he t ht index hi
    exact ⟨fun h index hi => hjoint index hi ▸ h.natural index hi,
      fun h => ⟨fun _ _ => hstay _ _, fun _ _ => hstay _ _, fun index hi =>
        (hjoint index hi).symm ▸ h index hi⟩⟩

/-- The steps of a block compute an elementwise operation. Run over any elements of the field, they
get through unless a value is moved too far, and leave at each index what the operation makes of the
two elements that stand for it. -/
def ComputesElementwise [Platform] (a : Allocator) (o : Circuit.Operation) (op : Arithmetic)
    (x y : Circuit.Tensor) (shape : List Nat) (out : Allocation) (steps : List Step) : Prop :=
  ∀ (settings : Machine.Settings) (entry : String → List Nat → Int) (memory : Machine.Memory),
    settings.modulus ≠ 0 → settings.strict = false →
    Filled settings.modulus a [x, y] entry memory →
    ∃ last stop, Machine.runThrough settings (.start memory) (steps.map (·.instruction)) =
        (last, stop) ∧
      (stop = none ↔ op.Aligns settings.modulus o x y entry shape) ∧
      (stop = none → ∀ index ∈ Shape.indices shape,
        last.memory[out.address.absolute + (Shape.flat shape index : Int)]? =
          some (Field.encode settings.modulus (op.result settings.modulus o x y
            (entry x.id (Shape.aligned x.shape index)) (entry y.id (Shape.aligned y.shape index)))))

theorem Emitted.computesElementwise [Platform] {lookupBits : Json} {ts : List FoldedTable}
    {out : Allocation} {t : Circuit.Tensor} (hem : Emitted g lookupBits zero a ts o bs out ss)
    (h : IsElementwise g o op x y) (ht : g.tensor? o.output = some t) :
    Shape.Broadcasts x.shape y.shape t.shape ∧
      ComputesElementwise a o op x y t.shape out ss := by
  obtain ⟨u, v, w, hu, hv, hw, hb, hj⟩ := h.joined hem.template
  obtain rfl := Option.some.inj (hw.tensor.symm.trans ht)
  obtain ⟨us, hsound⟩ := hem.stands.sound
  obtain ⟨blk, hblk, hbase, hcells⟩ := hw.block hsound
  obtain rfl := Option.some.inj (hem.output.symm.trans hblk)
  obtain ⟨hsx, hsy⟩ := Shape.broadcast_stretches hb
  refine ⟨(Shape.broadcast_eq_some.1 hb).1, fun settings entry memory hm hs hl => ?_⟩
  have he : ∀ t ∈ [x, y], ∀ index ∈ Shape.indices w.shape,
      Field.encode settings.modulus (entry t.id (Shape.aligned t.shape index)) =
        entry t.id (Shape.aligned t.shape index) := by
    intro t ht index hi
    have hst : Shape.Stretches t.shape w.shape := by
      simp only [List.mem_cons, List.not_mem_nil, or_false] at ht
      rcases ht with rfl | rfl
      exacts [hsx, hsy]
    exact hl.elements t ht _ (hst.project_eq hi ▸ Shape.project_mem_indices hst hi)
  obtain ⟨last, stop, hrun, hstop, hleft⟩ := hj.runs h.operands hu hv hsx hsy hem.stands hem.output
    hcells (hem.arithmetic h.kind (by cases op <;> decide)) hm hs hl
  refine ⟨last, stop, hrun, hstop.trans (Arithmetic.reach_iff_aligns he), fun hn index hi => ?_⟩
  rw [hbase, ← Arithmetic.moved_joint fun t ht => he t ht index hi]
  exact hleft hn index hi

end

end Lowering

namespace Emitter

open Lowering

variable [Platform] {doc given : Json} {g : Circuit.Graph} {witness : Witness} {layout : Layout}
  {lookupBits : Json} {m : Int} {pre post : List Circuit.Operation} {o : Circuit.Operation}
  {s : Setting} {e : State} {op : Arithmetic} {x y t : Circuit.Tensor}

theorem Reaches.elementwise_refused (hwit : Witness.read m g given = .ok witness)
    (horder : g.order = .ok (pre ++ o :: post))
    (hreach : Reaches g witness layout lookupBits m pre s e) (hel : IsElementwise g o op x y)
    (hrx : x.shape.length ≤ Platform.axisLimit) (hry : y.shape.length ≤ Platform.axisLimit)
    (ht : g.tensor? o.output = some t) :
    (∃ cause e', (lowerNode s o).Fails e (.compile (.shape cause)) e') ↔
      (∃ v e', (binaryOperands s x y).Yields e v e') ∧
        ¬Shape.Broadcasts x.shape y.shape t.shape := by
  have ho := Circuit.Graph.mem_of_order horder (o := o) (by simp)
  have hfit : ¬Shape.Oversized t.shape := fun hbig =>
    Witness.read_not_oversized hwit ⟨_, Circuit.Graph.output_required ho, t, ht, hbig⟩
  have hkind : lowerKind s o op.kind = lowerBinary s o op := by cases op <;> rfl
  simp only [hreach.fails_iff hel.kind, hkind]
  obtain ⟨rfl, rfl, rfl, -⟩ := hreach.setting
  exact lowerBinary_shape_iff (Witness.read_complete hwit) ho hel.operands ht
    (by simp [Shape.wordProduct_eq hfit]) hrx hry e

/-- The lowering of an elementwise operation. Once its operands are placed, it is refused for its
shapes just if its output is declared with another shape than they are stretched to; if it fails, so
does the circuit. Where it succeeds, its block computes the operation. -/
theorem lowerNode_elementwise (hread : Circuit.read doc = .ok g)
    (hwit : Witness.read m g given = .ok witness) (horder : g.order = .ok (pre ++ o :: post))
    (hreach : Reaches g witness layout lookupBits m pre s e) (hel : IsElementwise g o op x y)
    (hrx : x.shape.length ≤ Platform.axisLimit) (hry : y.shape.length ≤ Platform.axisLimit)
    (ht : g.tensor? o.output = some t) :
    ((∃ cause e', (lowerNode s o).Fails e (.compile (.shape cause)) e') ↔
      (∃ v e', (binaryOperands s x y).Yields e v e') ∧
        ¬Shape.Broadcasts x.shape y.shape t.shape) ∧
    (∀ f e', (lowerNode s o).Fails e f e' → ∀ name,
      (Program.lower name g witness layout lookupBits m).1 = .error f) ∧
    ∀ e', (lowerNode s o).Yields e () e' → Shape.Broadcasts x.shape y.shape t.shape ∧
      ∃ steps out, e'.blocks = e.blocks ++ [⟨o, steps⟩] ∧
        e'.allocator.bound? .tensor o.output = some out ∧
        ComputesElementwise e'.allocator o op x y t.shape out steps := by
  refine ⟨hreach.elementwise_refused hwit horder hel hrx hry ht, fun f e' hf =>
    hreach.lower_fails horder hel.kind hf, fun e' h => ?_⟩
  obtain ⟨bs, out, steps, hblocks, hem⟩ :=
    hreach.emitted hread (Witness.read_complete hwit) horder h
  obtain ⟨hb, hcomputes⟩ := hem.computesElementwise hel ht
  exact ⟨hb, steps, out, hblocks, hem.output, hcomputes⟩

end Emitter

namespace Lowering.Outer

def column : Circuit.Tensor := ⟨"x", [2, 1], 1, .priv⟩

def row : Circuit.Tensor := ⟨"k", [3], 0, .fixed⟩

def output : Circuit.Tensor := ⟨"y", [2, 3], 0, .priv⟩

def node : Circuit.Operation := ⟨1, "sub", ["x", "k"], "y", 0, []⟩

def graph : Circuit.Graph := ⟨[column, row, output], [node], ["x"], ["y"]⟩

def circuit : Json := graph.document

def differences : List Int := [1, 2, -2, -4, -3, -7]

def values : Json := .obj [
  ("x", .arr [.arr [.int 3], .arr [.int (-5)]]),
  ("k", .arr [.int 1, .int 0, .int 4]),
  ("y", .arr [.arr [.int 1, .int 2, .int (-2)], .arr [.int (-4), .int (-3), .int (-7)]])]

def witness : Witness :=
  [("k", ⟨[3], #[1, 0, 4]⟩), ("x", ⟨[2, 1], #[3, -5]⟩), ("y", ⟨[2, 3], #[1, 2, -2, -4, -3, -7]⟩)]

theorem read_circuit : Circuit.read circuit = .ok graph := by
  cbv

theorem read_values : Witness.read Field.defaultModulus graph values = .ok witness := by
  cbv

theorem order : graph.order = .ok ([] ++ node :: []) := by
  cbv

theorem isElementwise : IsElementwise graph node .sub column row where
  kind := by cbv
  operands := by
    refine ⟨by cbv, ?_⟩
    simp only [List.forall_mem_cons]
    exact ⟨by cbv, by cbv, by simp⟩

def entry (id : String) (index : List Nat) : Int :=
  if id = "x" then Field.encode Field.defaultModulus ([3, -5].getD (index.getD 0 0) 0)
  else [1, 0, 4].getD (index.getD 0 0) 0

def memory : Machine.Memory := MemoryTable.cellMap [(16, 3),
  (17, Field.encode Field.defaultModulus (-5)), (65552, 1), (65553, 0), (65554, 4)]

def bases : List (Circuit.Tensor × Int) := [(column, 16), (row, 65552)]

theorem lowers : ∃ s e e',
    Emitter.Reaches graph witness default (.int 8) Field.defaultModulus [] s e ∧
    (Emitter.lowerNode s node).Yields e () e' ∧ s.zero = 0 ∧
    [column, row].map (Emitter.base? e'.allocator) = bases.map fun b => some b.2 :=
  Emitter.Reaches.of_run isElementwise.kind (by decide +kernel)

theorem filled {a : Allocator}
    (h : [column, row].map (Emitter.base? a) = bases.map fun b => some b.2) :
    Filled Field.defaultModulus a [column, row] entry memory :=
  have hfilled : Filled Field.defaultModulus a (bases.map (·.1)) entry memory :=
    .of_bases h (by decide +kernel)
  hfilled

theorem aligns : Arithmetic.sub.Aligns Field.defaultModulus node column row entry [2, 3] := by
  unfold Arithmetic.Aligns
  decide +kernel

theorem results : ∀ index ∈ Shape.indices [2, 3], Field.encode Field.defaultModulus
    (Arithmetic.sub.result Field.defaultModulus node column row
      (entry "x" (Shape.aligned [2, 1] index)) (entry "k" (Shape.aligned [3] index))) =
    Field.encode Field.defaultModulus (differences.getD (Shape.flat [2, 3] index) 0) := by
  decide +kernel

end Lowering.Outer

open Lowering in
/-- A row subtracted from a column at the scale one. The halves of `3` and `-5` are rounded away
from zero. -/
theorem Emitter.outer_difference :
    ∃ s e e' steps out last,
      Reaches Outer.graph Outer.witness default (.int 8) Field.defaultModulus [] s e ∧
      (lowerNode s Outer.node).Yields e () e' ∧ Shape.Broadcasts [2, 1] [3] [2, 3] ∧
      e'.blocks = e.blocks ++ [⟨Outer.node, steps⟩] ∧
      e'.allocator.bound? .tensor "y" = some out ∧
      Machine.runThrough ⟨Field.defaultModulus, false, none, []⟩ (.start Outer.memory)
        (steps.map (·.instruction)) = (last, none) ∧
      ∀ index ∈ Shape.indices [2, 3],
        last.memory[out.address.absolute + (Shape.flat [2, 3] index : Int)]? = some
          (Field.encode Field.defaultModulus
            (Outer.differences.getD (Shape.flat [2, 3] index) 0)) := by
  obtain ⟨s, e, e', hreach, hyields, -, hbases⟩ := Outer.lowers
  obtain ⟨-, -, hall⟩ := lowerNode_elementwise Outer.read_circuit Outer.read_values Outer.order
    hreach Outer.isElementwise (by decide) (by decide) (t := Outer.output) (by cbv)
  obtain ⟨hb, steps, out, hsteps, hout, hcomputes⟩ := hall e' hyields
  obtain ⟨last, stop, hrun, hstop, hcells⟩ := hcomputes ⟨Field.defaultModulus, false, none, []⟩
    Outer.entry Outer.memory (by decide) rfl (Outer.filled hbases)
  obtain rfl := hstop.2 Outer.aligns
  refine ⟨s, e, e', steps, out, last, hreach, hyields, hb, hsteps, hout, hrun, fun index hi => ?_⟩
  exact (hcells rfl index hi).trans (congrArg some (Outer.results index hi))

namespace Lowering.Mixed

def graph (scale : Int) (n k : Nat) : Circuit.Graph :=
  ⟨[⟨"x", [n], scale, .priv⟩, ⟨"k", [k], 0, .fixed⟩, ⟨"y", [k], 0, .priv⟩],
    [⟨1, "mul", ["x", "k"], "y", 0, []⟩], ["x"], ["y"]⟩

def circuit (scale : Int) (n k : Nat) : Json := (graph scale n k).document

def values (n k : Nat) : Json := .obj [
  ("x", .arr (List.replicate n (.int 0))), ("k", .arr (List.replicate k (.int 1))),
  ("y", .arr (List.replicate k (.int 0)))]

def farWitness : Witness := [("k", ⟨[1], #[1]⟩), ("x", ⟨[1], #[0]⟩), ("y", ⟨[1], #[0]⟩)]

def unlikeWitness : Witness :=
  [("k", ⟨[3], #[1, 1, 1]⟩), ("x", ⟨[2], #[0, 0]⟩), ("y", ⟨[3], #[0, 0, 0]⟩)]

theorem read_far : Circuit.read (circuit (2 ^ 70) 1 1) = .ok (graph (2 ^ 70) 1 1) ∧
    Witness.read Field.defaultModulus (graph (2 ^ 70) 1 1) (values 1 1) = .ok farWitness :=
  ⟨by cbv, by cbv⟩

theorem read_unlike : Circuit.read (circuit 0 2 3) = .ok (graph 0 2 3) ∧
    Witness.read Field.defaultModulus (graph 0 2 3) (values 2 3) = .ok unlikeWitness :=
  ⟨by cbv, by cbv⟩

def memory : Machine.Memory := MemoryTable.cellMap [(16, 0), (65552, 1)]

theorem far_ending : Program.ending
    (Program.lower "far" (graph (2 ^ 70) 1 1) farWitness default (.int 8) Field.defaultModulus).1
    ⟨Field.defaultModulus, false, none, []⟩ memory 983040 = some (true, none) := by
  decide +kernel

/-- A layout with one cell for inputs. -/
def cramped : Layout where
  size r := if r = .input then 1 else Layout.defaultSize r
  capacity := Layout.defaultCapacity
  size_nonneg r := by cases r <;> decide
  total_le := by decide

def crampedMessage : String :=
  "namespace 'input' exhausted allocating 2 cells for 'x' (0 of 1 cells already used)"

theorem unlike_fails : ((Program.lower "unlike" (graph 0 2 3) unlikeWitness cramped (.int 8)
    Field.defaultModulus).1.mapError Fault.message).map (fun _ => ()) = .error crampedMessage := by
  decide +kernel

end Lowering.Mixed

open Lowering.Mixed in
/-- The product of zero at the scale `2 ^ 70` with one is zero, but it never gets to the output.
Operands for which there is no room are refused for that, though their shapes do not agree. -/
theorem Lowering.elementwise_out_of_reach :
    (∃ p last f, Circuit.read (circuit (2 ^ 70) 1 1) = .ok (graph (2 ^ 70) 1 1) ∧
      Witness.read Field.defaultModulus (graph (2 ^ 70) 1 1) (values 1 1) = .ok farWitness ∧
      (Program.lower "far" (graph (2 ^ 70) 1 1) farWitness default (.int 8)
        Field.defaultModulus).1 = .ok p ∧
      Machine.runThrough ⟨Field.defaultModulus, false, none, []⟩ (.start memory)
        p.plan.instructions = (last, some f) ∧ last.memory[(983040 : Int)]? = none) ∧
    ∃ f, Circuit.read (circuit 0 2 3) = .ok (graph 0 2 3) ∧
      Witness.read Field.defaultModulus (graph 0 2 3) (values 2 3) = .ok unlikeWitness ∧
      ¬Shape.Broadcasts [2] [3] [3] ∧
      (Program.lower "unlike" (graph 0 2 3) unlikeWitness cramped (.int 8)
        Field.defaultModulus).1 = .error f ∧ f.message = crampedMessage := by
  constructor
  · obtain ⟨p, last, f, hl, hstop⟩ := Program.stops_short far_ending
    exact ⟨p, last, f, read_far.1, read_far.2, hl, hstop⟩
  · have hunlike : ¬Shape.Broadcasts [2] [3] [3] := fun h => by
      simpa [Shape.fromEnd] using h.agree 0
    have hfails := unlike_fails
    cases hl : (Program.lower "unlike" (graph 0 2 3) unlikeWitness cramped (.int 8)
        Field.defaultModulus).1 with
    | ok p => simp [hl, Except.mapError, Except.map] at hfails
    | error f =>
      rw [hl] at hfails
      exact ⟨f, read_unlike.1, read_unlike.2, hunlike, rfl, Except.error.inj hfails⟩

end TensorAsm
