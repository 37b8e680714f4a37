import Mathlib
import TensorAsm.Proofs.BlockRuns
import TensorAsm.Proofs.Recovery
import TensorAsm.Proofs.Reductions
/-!
Products of matrices, inner products and sums. Run over any elements of the field, the block of such
an operation leaves the sum of its terms in each cell of the output, at the scale of the operation,
unless the change of scale is too far.
-/

namespace TensorAsm

theorem Shape.getD_indices {shape : List Nat} {r : Nat} (h : r < volume shape) :
    (indices shape).getD r [] ∈ indices shape ∧ flat shape ((indices shape).getD r []) = r := by
  have hlen : r < (indices shape).length := by rwa [length_indices]
  rw [List.getD_eq_getElem _ _ hlen]
  refine ⟨List.getElem_mem hlen, ?_⟩
  have hflat := congrArg (·[r]?) (map_flat_indices shape)
  simpa [hlen, h] using hflat

def Witness.entry (w : Witness) (g : Circuit.Graph) (id : String) (index : List Nat) : Int :=
  ((g.tensor? id).map fun t => w.value id (Shape.flat t.shape index)).getD 0

namespace Lowering

/-- An operation that adds up terms for each element, with the tensors it works on and their
dimensions. -/
inductive Contraction where
  | matmul (x y : Circuit.Tensor) (m k n : Nat)
  | vecmul (x y : Circuit.Tensor) (k n : Nat)
  | dot (x y : Circuit.Tensor) (k : Nat)
  | sum (x : Circuit.Tensor)

namespace Contraction

def kind : Contraction → Circuit.Kind
  | matmul _ _ _ _ _ | vecmul _ _ _ _ => .matmul
  | dot _ _ _ => .dot
  | sum _ => .sum

theorem category (c : Contraction) : c.kind.category = .contraction := by
  cases c <;> rfl

def operands : Contraction → List Circuit.Tensor
  | matmul x y _ _ _ | vecmul x y _ _ | dot x y _ => [x, y]
  | sum x => [x]

def shapes : Contraction → List (List Nat)
  | matmul _ _ m k n => [[m, k], [k, n]]
  | vecmul _ _ k n => [[k], [k, n]]
  | dot _ _ k => [[k], [k]]
  | sum x => [x.shape]

def steps : Contraction → Nat
  | matmul _ _ _ k _ | vecmul _ _ k _ | dot _ _ k => k
  | sum x => Shape.volume x.shape

def natural (c : Contraction) : Int := (c.operands.map (·.scale)).sum

/-- The shapes that the output may have. -/
def Gives : Contraction → List Nat → Prop
  | matmul _ _ m _ n, shape => shape = [m, n]
  | vecmul _ _ _ n, shape => shape = [n]
  | dot _ _ _, shape | sum _, shape => shape = [] ∨ shape = [1]

/-- The term of an element with a number; the elements of a sum are numbered in their order. -/
def term (entry : String → List Nat → Int) (index : List Nat) (r : Nat) : Contraction → Int
  | matmul x y _ _ _ => entry x.id [index.getD 0 0, r] * entry y.id [r, index.getD 1 0]
  | vecmul x y _ _ => entry x.id [r] * entry y.id [r, index.getD 0 0]
  | dot x y _ => entry x.id [r] * entry y.id [r]
  | sum x => entry x.id ((Shape.indices x.shape).getD r [])

/-- The sum of the first terms of an element. -/
def total (c : Contraction) (entry : String → List Nat → Int) (index : List Nat) (n : Nat) : Int :=
  ∑ r ∈ Finset.range n, c.term entry index r

theorem total_eq (c : Contraction) (entry : String → List Nat → Int) (index : List Nat) (n : Nat) :
    c.total entry index n = ((List.range n).map fun r => c.term entry index r).sum := by
  rw [total, Finset.sum_eq_multiset_sum]
  rfl

end Contraction

structure IsContraction (g : Circuit.Graph) (o : Circuit.Operation) (c : Contraction) : Prop where
  kind : o.kind? = some c.kind
  operands : HasOperands g o c.operands
  shapes : c.operands.map (·.shape) = c.shapes

section

variable {g : Circuit.Graph} {zero natural out : Int} {a : Allocator} {o : Circuit.Operation}
  {c : Contraction} {shape : List Nat} {terms : List (List Term)} {bs : List Allocation}
  {ss : List Step}

/-- The values of these cells are the terms of the elements. -/
def TermCells (g : Circuit.Graph) (zero : Int) (a : Allocator) (c : Contraction)
    (shape : List Nat) (f : List Nat → List Term) : Prop :=
  ∀ k entry, Shows k g zero a c.operands entry → ∀ index ∈ Shape.indices shape,
    (f index).map (Term.value k) = (List.range c.steps).map fun r => c.term entry index r

theorem Shows.cell {k : Int → Int} {ts : List Circuit.Tensor} {entry : String → List Nat → Int}
    (hs : Shows k g zero a ts entry) (h : HasOperands g o ts) {t : Circuit.Tensor} (ht : t ∈ ts)
    {v : Operand} (hv : Placed g a t.id v) {index : List Nat}
    (hi : index ∈ Shape.indices v.shape) :
    k (v.cell (Shape.flat v.shape index)) = entry t.id index := by
  have hvt := h.placed ht hv
  rw [Operand.shape, hvt] at hi ⊢
  exact hs.cells t ht v hv index hi

theorem matmul_termCells {x y : Circuit.Tensor} {x' y' : Operand} {k n : Nat}
    (hops : HasOperands g o [x, y]) (hc : c.operands = [x, y]) (hsteps : c.steps = k)
    (hx : Placed g a x.id x') (hy : Placed g a y.id y')
    (hp : product? x'.shape y'.shape = some (k, n, shape))
    (hterm : ∀ entry, ∀ index ∈ Shape.indices shape, ∀ r, c.term entry index r =
      entry x.id (index.dropLast ++ [r]) * entry y.id [r, index.getLastD 0]) :
    TermCells g zero a c shape fun index => (List.range k).map fun r =>
      ⟨x'.cell ((if x'.shape.length = 2 then index.headD 0 else 0) * k + r),
        some (y'.cell (r * n + index.getLastD 0))⟩ := by
  intro cells entry hs index hi
  rw [hc] at hs
  rw [List.map_map, hsteps]
  refine List.map_congr_left fun r hr => ?_
  obtain ⟨hxi, hyi, hxf, hyf⟩ := product_places hp hi (List.mem_range.1 hr)
  rw [hterm entry index hi, ← hs.cell hops (by simp) hx hxi, ← hs.cell hops (by simp) hy hyi,
    hxf, hyf]
  rfl

theorem dot_termCells {x y : Circuit.Tensor} {x' y' : Operand} {k : Nat}
    (hops : HasOperands g o [x, y]) (hx : Placed g a x.id x') (hy : Placed g a y.id y')
    (hxs : x'.shape = [k]) (hys : y'.shape = [k]) :
    TermCells g zero a (.dot x y k) shape fun _ => (List.range k).map fun (i : Nat) =>
      ⟨x'.cell i, some (y'.cell i)⟩ := by
  intro cells entry hs index hi
  rw [List.map_map]
  refine List.map_congr_left fun r hr => ?_
  have hin : [r] ∈ Shape.indices [k] := Shape.mem_indices.2 (by simpa using hr)
  have hflat : Shape.flat [k] [r] = r := by simp [Shape.flat]
  have hxr := hs.cell hops (by simp [Contraction.operands]) hx (hxs ▸ hin)
  have hyr := hs.cell hops (by simp [Contraction.operands]) hy (hys ▸ hin)
  rw [hxs, hflat] at hxr
  rw [hys, hflat] at hyr
  rw [Contraction.term, ← hxr, ← hyr]
  rfl

theorem sum_termCells {x : Circuit.Tensor} {x' : Operand} (hops : HasOperands g o [x])
    (hx : Placed g a x.id x') :
    TermCells g zero a (.sum x) shape fun _ => (List.range (Shape.volume x'.shape)).map
      fun (i : Nat) => ⟨x'.cell i, none⟩ := by
  intro cells entry hs index hi
  have hxt : x'.shape = x.shape := congrArg (·.shape) (hops.placed (by simp) hx)
  rw [List.map_map, hxt]
  refine List.map_congr_left fun r hr => ?_
  obtain ⟨hin, hflat⟩ := Shape.getD_indices (List.mem_range.1 hr)
  have hxr := hs.cell hops (by simp [Contraction.operands]) hx (hxt ▸ hin)
  rw [hxt, hflat] at hxr
  exact hxr

theorem IsContraction.summands (hc : IsContraction g o c)
    (hs : Summands g zero a o natural shape terms bs ss) :
    natural = c.natural ∧ c.Gives shape ∧ bs = [] ∧ ss = [] ∧
      ∃ f, Uniform (fun _ => True) shape terms c.steps f ∧ TermCells g zero a c shape f := by
  obtain ⟨hkind, hops, hshapes⟩ := hc
  cases hs with
  | @matmul ia ib x' y' k n shape hk hi hx hy hp =>
    rw [hk] at hkind
    cases c with
    | dot | sum => simp [Contraction.kind] at hkind
    | matmul x y m k' n' =>
      obtain ⟨rfl, rfl, rfl, rfl⟩ := hops.pair hi hx hy
      obtain ⟨hxs, hys⟩ : x'.shape = [m, k'] ∧ y'.shape = [k', n'] := by
        simpa [Contraction.operands, Contraction.shapes, Operand.shape] using hshapes
      obtain ⟨rfl, rfl, rfl⟩ : k' = k ∧ n' = n ∧ [m, n'] = shape := by
        simpa [hxs, hys, product?] using hp
      refine ⟨by simp [Contraction.natural, Contraction.operands, hx.scale, hy.scale], rfl, rfl,
        rfl, _, ⟨rfl, by simp [Contraction.steps], by simp⟩,
        matmul_termCells hops rfl rfl hx hy hp ?_⟩
      intro entry index hi r
      obtain ⟨i, j, rfl⟩ := List.length_eq_two.1 (Shape.length_of_mem_indices hi)
      rfl
    | vecmul x y k' n' =>
      obtain ⟨rfl, rfl, rfl, rfl⟩ := hops.pair hi hx hy
      obtain ⟨hxs, hys⟩ : x'.shape = [k'] ∧ y'.shape = [k', n'] := by
        simpa [Contraction.operands, Contraction.shapes, Operand.shape] using hshapes
      obtain ⟨rfl, rfl, rfl⟩ : k' = k ∧ n' = n ∧ [n'] = shape := by
        simpa [hxs, hys, product?] using hp
      refine ⟨by simp [Contraction.natural, Contraction.operands, hx.scale, hy.scale], rfl, rfl,
        rfl, _, ⟨rfl, by simp [Contraction.steps], by simp⟩,
        matmul_termCells hops rfl rfl hx hy hp ?_⟩
      intro entry index hi r
      obtain ⟨j, rfl⟩ := List.length_eq_one_iff.1 (Shape.length_of_mem_indices hi)
      rfl
  | @dot ia ib x' y' shape hk hi hx hy hs hone =>
    rw [hk] at hkind
    cases c with
    | matmul | vecmul | sum => simp [Contraction.kind] at hkind
    | dot x y k =>
      obtain ⟨rfl, rfl, rfl, rfl⟩ := hops.pair hi hx hy
      obtain ⟨hxs, hys⟩ : x'.shape = [k] ∧ y'.shape = [k] := by
        simpa [Contraction.operands, Contraction.shapes, Operand.shape] using hshapes
      have hvol : Shape.volume x'.shape = k := by simp [hxs, Shape.volume]
      have hu : Uniform (fun _ => True) shape (dotTerms x' y' k) _ _ :=
        uniform_single hone (by simp)
      rw [List.length_map, List.length_range] at hu
      rw [hvol]
      exact ⟨by simp [Contraction.natural, Contraction.operands, hx.scale, hy.scale], hone, rfl,
        rfl, _, hu, dot_termCells hops hx hy hxs hys⟩
  | @sum ia x' shape hk hi hx hone =>
    rw [hk] at hkind
    cases c with
    | matmul | vecmul | dot => simp [Contraction.kind] at hkind
    | sum x =>
      have hin := hi.symm.trans hops.inputs
      obtain rfl : ia = x.id := by simpa [Contraction.operands] using hin
      obtain rfl := hops.placed (by simp [Contraction.operands]) hx
      have hu : Uniform (fun _ => True) shape (sumTerms x' (Shape.volume x'.shape)) _ _ :=
        uniform_single hone (by simp)
      rw [List.length_map, List.length_range] at hu
      exact ⟨by simp [Contraction.natural, Contraction.operands, hx.scale], hone, rfl, rfl, _,
        hu, sum_termCells hops hx⟩
  | conv hk | biased hk =>
    rw [hkind] at hk
    cases c <;> simp [Contraction.kind] at hk

theorem IsContraction.chained [Platform] {lookupBits : Json} {ts : List FoldedTable}
    (hc : IsContraction g o c) (ht : Template g lookupBits zero a ts o bs ss) :
    ∃ v r f, Placed g a o.output v ∧ c.Gives v.shape ∧
      Chained zero o c.natural v.shape v.base f r ss ∧ TermCells g zero a c v.shape f ∧
      r.steps = c.steps ∧ (Shape.indices v.shape ≠ [] →
        ∃ ps, ps ⊆ bs ∧ Partials o (Shape.volume v.shape) c.steps r.partials ps) := by
  have hother (kind : Circuit.Kind) (hk : o.kind? = some kind) : kind.category = .contraction := by
    obtain rfl := Option.some.inj (hc.kind.symm.trans hk)
    exact c.category
  cases ht with
  | @reduction natural terms v bs rs ss steps hs hout hr =>
    obtain ⟨rfl, hgives, rfl, rfl, f, hu, hcells⟩ := hc.summands hs
    obtain ⟨r, hch, hsteps, hps⟩ := hr.chained hu
    exact ⟨v, r, f, hout, hgives, hch, hcells, hsteps, hps⟩
  | linear hk | unary hk =>
    rcases hk with ⟨hk, -⟩ | ⟨hk, -⟩ <;> exact absurd (hother _ hk) (by decide)
  | product hk | rescale hk | clamp hk => exact absurd (hother _ hk) (by decide)
  | lookup hk hcat => exact absurd ((hother _ hk).symm.trans hcat) (by decide)

variable {f : List Nat → List Term} {r : Reduction} {blk : Allocation} {ts : List Circuit.Tensor}
  {entry : String → List Nat → Int} {total : List Nat → Int}

/-- Run over its operands, a reduction gets through just if no sum is moved too far, and leaves the
sums at the scale of the operation. -/
theorem Chained.runs [Platform] (h : Chained zero o natural shape out f r ss)
    (hops : HasOperands g o ts) (hst : Stands g zero a o bs)
    (hb : a.bound? .tensor o.output = some blk) (hf : Fills (Readable g a zero o) bs blk.cells ss)
    (hcells : blk.cells = elementCells shape out)
    (har : ∀ s ∈ ss, s.instruction.isArithmetic = true)
    (htotal : ∀ k, Shows k g zero a ts entry → ∀ index ∈ Shape.indices shape,
      ((f index).map (Term.value k)).sum = total index) {settings : Machine.Settings}
    (hm : settings.modulus ≠ 0) (hs : settings.strict = false) {memory : Machine.Memory}
    (hl : Loaded settings.modulus zero a ts entry memory) :
    ∃ last stop, Machine.runThrough settings (.start memory) (ss.map (·.instruction)) =
        (last, stop) ∧
      (stop = none ↔ ∀ index ∈ Shape.indices shape,
        Quantity.rescaleFault? (Field.centre settings.modulus (total index))
          (natural - o.scale) = none) ∧
      (stop = none → ∀ index ∈ Shape.indices shape,
        last.memory[out + (Shape.flat shape index : Int)]? = some (Field.encode settings.modulus
          (Quantity.rescale (Field.centre settings.modulus (total index))
            (natural - o.scale)))) := by
  have hchain (index : List Nat) (hi : index ∈ Shape.indices shape) :
      ∀ s ∈ r.chain (elementLabel o index) (Shape.flat shape index) 0 zero (f index), s ∈ ss := by
    intro s hs
    rw [h.steps]
    exact List.mem_flatMap.2 ⟨index, hi, List.mem_append_left _ hs⟩
  rcases hst.runs hb hf (fun _ => id) har hm hs (fun _ hr => hl.readable hops hr)
      (fun _ => []) with
    ⟨last, hrun, hran⟩ | ⟨⟨last, f, hrun⟩, pre, s, post, u, hss, hran, dest, e, shift, hs, hnone⟩
  · have hshow := hl.shows hops hst hb hf (List.append_nil _).symm hran
    have hholds : ∀ s ∈ ss, Holds (.field settings.modulus) (fun _ => []) last.cell
        s.instruction := fun s hs => hran.holds _ (List.mem_map_of_mem hs)
    have hfinal (index : List Nat) (hi : index ∈ Shape.indices shape) := by
      have hland := h.landed hshow.zero hi fun s hs => hholds s (hchain index hi s hs)
      rw [htotal _ hshow index hi] at hland
      exact moved_encode.1 (h.finished hi hland hholds)
    refine ⟨last, none, hrun, ⟨fun _ index hi => (hfinal index hi).1, fun _ => rfl⟩,
      fun _ index hi => ?_⟩
    have hthere : out + (Shape.flat shape index : Int) ∈ targets (ss.map (·.instruction)) := by
      rw [targets_map, mem_writes, hf.final, hcells, mem_elementCells]
      exact .inr ⟨_, Shape.flat_lt hi, rfl⟩
    rw [hran.there _ hthere, (hfinal index hi).2]
  · have hshow := hl.shows hops hst hb hf hss hran
    refine ⟨last, some f, hrun, ⟨by simp, fun hreach => absurd hnone ?_⟩, by simp⟩
    -- an element is being finished, so that it has landed
    obtain ⟨index, hi, rfl, rfl, hbefore⟩ := h.rescale_behind hss hs
    have hland := h.landed hshow.zero hi fun s hs =>
      hran.holds _ (List.mem_map_of_mem (hbefore s hs))
    have hfar := hreach index hi
    rw [htotal _ hshow index hi] at hland
    rw [← Field.centre_encode_self] at hfar
    rw [Semantics.moved_eq_none, not_not, hland]
    exact hfar

end

end Lowering

namespace Program

open Lowering

variable [Platform]

/-- The block of a contraction, with the shape and the block of its output. Its steps are one chain
for each element, each cell for the sums on the way is written once, and what is derived for a step
is the exact sum of the terms so far. Run over any elements of the field it leaves the sums at the
scale of the operation, unless one of them is moved too far. -/
structure Unrolls (g : Circuit.Graph) (w : Witness) (p : Program) (blk : Block) (c : Contraction)
    (shape : List Nat) (out : Allocation) (r : Reduction) : Prop where
  gives : c.Gives shape
  length : r.steps = c.steps
  chains : ∃ f, Chained p.plan.zero blk.op c.natural shape out.address.absolute f r blk.steps
  onTheWay : 1 < c.steps → Shape.volume shape ≠ 0 → ∃ b ∈ p.plan.allocator.allocations,
    b.kind = .scratch ∧ b.address.absolute = r.partials ∧
      b.size = (Shape.volume shape * (c.steps - 1) : Nat) ∧
      ∀ e ∈ b.cells, (targets p.plan.instructions).count e = 1
  derived : ∀ index ∈ Shape.indices shape, ∀ s < c.steps,
    p.derived[r.dest (Shape.flat shape index) s]? =
      if s + 1 = c.steps ∧ c.natural = blk.op.scale then none
      else some (c.total (w.entry g) index (s + 1))
  runs : ∀ (settings : Machine.Settings) (entry : String → List Nat → Int)
      (memory : Machine.Memory), settings.modulus ≠ 0 → settings.strict = false →
    Loaded settings.modulus p.plan.zero p.plan.allocator c.operands entry memory →
    ∃ last stop, Machine.runThrough settings (.start memory) (blk.steps.map (·.instruction)) =
        (last, stop) ∧
      (stop = none ↔ ∀ index ∈ Shape.indices shape,
        Quantity.rescaleFault? (Field.centre settings.modulus (c.total entry index c.steps))
          (c.natural - blk.op.scale) = none) ∧
      (stop = none → ∀ index ∈ Shape.indices shape,
        last.memory[out.address.absolute + (Shape.flat shape index : Int)]? =
          some (Field.encode settings.modulus (Quantity.rescale
            (Field.centre settings.modulus (c.total entry index c.steps))
            (c.natural - blk.op.scale))))

namespace Lowered

variable {g : Circuit.Graph} {w : Witness} {lookupBits : Json} {m : Int} {p : Program}
  {values : Values} {blk : Block} {c : Contraction} {shape : List Nat} {out : Allocation}
  {f : List Nat → List Term} {r : Reduction}

theorem emitted (h : Lowered g w lookupBits m p values) (hb : blk ∈ p.plan.blocks) :
    ∃ bs out, Emitted g lookupBits p.plan.zero p.plan.allocator p.plan.tables blk.op bs out
      blk.steps := by
  obtain ⟨layout, journal, zb, xs, outs, hp⟩ := h.planned
  rw [hp.blocks] at hb
  obtain ⟨x, hx, rfl⟩ := List.mem_map.1 hb
  obtain ⟨before, hv⟩ := hp.valid hx
  obtain ⟨out, hout, hf⟩ := hp.fills hx
  refine ⟨x.scratch, out, ⟨⟨_, hp.sound⟩, ⟨zb, hp.zero_mem.1, hp.kind, hp.zero_mem.2⟩, ?_, ?_⟩,
    hv.template, hout, hf⟩
  · rw [hp.scratch_eq]
    obtain ⟨pre, post, rfl⟩ := List.append_of_mem hx
    simp
  · exact (hp.topological h.wellFormed).apart h.wellFormed (List.mem_map_of_mem hx)

theorem count_scratch (h : Lowered g w lookupBits m p values) {b : Allocation}
    (hb : b ∈ p.plan.allocator.allocations) (hk : b.kind = .scratch) {e : Int} (he : e ∈ b.cells) :
    (targets p.plan.instructions).count e = 1 := by
  obtain ⟨layout, journal, zb, xs, outs, hp⟩ := h.planned
  rw [Plan.instructions, targets_map]
  apply List.count_eq_one_of_mem (hp.writes_nodup h.wellFormed)
  rw [mem_writes, hp.derived_perm.mem_iff]
  exact .inl (List.mem_flatMap.2 ⟨b, mem_ofKind.2 ⟨hb, hk⟩, he⟩)

theorem shows_entry (h : Lowered g w lookupBits m p values) {ts : List Circuit.Tensor}
    (hdecl : ∀ t ∈ ts, g.tensor? t.id = some t) :
    Shows values.cell g p.plan.zero p.plan.allocator ts (w.entry g) where
  zero := h.derivation.zero
  cells := by
    intro t ht v hv index hi
    have hvt : v.tensor = t := Option.some.inj (hv.tensor.symm.trans (hdecl t ht))
    rw [h.cell_placed hv (by rw [Operand.shape, hvt]; exact Shape.flat_lt hi), Witness.entry,
      hdecl t ht]
    rfl

theorem derived_total (h : Lowered g w lookupBits m p values) (hb : blk ∈ p.plan.blocks)
    (hdecl : ∀ t ∈ c.operands, g.tensor? t.id = some t)
    (hch : Chained p.plan.zero blk.op c.natural shape out.address.absolute f r blk.steps)
    (hcells : TermCells g p.plan.zero p.plan.allocator c shape f) (hlen : r.steps = c.steps)
    {index : List Nat} (hi : index ∈ Shape.indices shape) {s : Nat} (hs : s < c.steps)
    (hder : ¬(s + 1 = c.steps ∧ c.natural = blk.op.scale)) :
    p.derived[r.dest (Shape.flat shape index) s]? = some (c.total (w.entry g) index (s + 1)) := by
  have hmem : ∀ u ∈ r.chain (elementLabel blk.op index) (Shape.flat shape index) 0 p.plan.zero
      (f index), u ∈ p.plan.steps := by
    intro u hu
    refine List.mem_flatMap.2 ⟨blk, hb, ?_⟩
    rw [hch.steps]
    exact List.mem_flatMap.2 ⟨index, hi, List.mem_append_left _ hu⟩
  have hrescales : r.target.rescales = (c.natural != blk.op.scale) := by
    obtain ⟨landing, ht⟩ := hch.target
    rw [ht]
    rfl
  have hmore : 0 + s + 1 ≠ r.steps ∨ r.target.rescales = true := by
    rw [hrescales, bne_iff_ne, Nat.zero_add, hlen]
    tauto
  have hlt : s < (f index).length := by rwa [hch.length index hi, hlen]
  obtain ⟨u, hu, hdest, hflag⟩ := chain_step (elementLabel blk.op index) (Shape.flat shape index) 0
    p.plan.zero (r := r) hlt
  have hsum := chain_sum (S := .exact) (k := values.cell) _ _
    (by simpa using hch.length index hi) hlt hmore fun u hu => h.derived_holds (hmem u hu)
  obtain ⟨-, -, hvalue⟩ := h.derivation.derived u (hmem u hu) (by simpa [hflag] using hmore) _ hdest
  rw [Nat.zero_add] at hvalue hsum
  rw [h.derived, hvalue, hsum, h.derivation.zero, Int.zero_add, List.map_take,
    hcells _ _ (h.shows_entry hdecl) index hi, ← List.map_take, List.take_range,
    Nat.min_eq_left hs, c.total_eq]
  rfl

end Lowered

variable {doc given : Json} {g : Circuit.Graph} {w : Witness} {name : String} {layout : Layout}
  {lookupBits : Json} {m : Int} {p : Program} {blk : Block} {c : Contraction}

theorem derived_tensor (hg : Circuit.read doc = .ok g) (hw : Witness.read m g given = .ok w)
    (h : (lower name g w layout lookupBits m).1 = .ok p) {b : Allocation}
    (hb : b ∈ p.plan.allocator.allocations) (hk : b.kind = .tensor) {e : Int} (he : e ∈ b.cells) :
    p.derived[e]? = none := by
  obtain ⟨values, hl⟩ := lower_lowered hg hw h
  obtain ⟨_, _, zb, xs, outs, hp⟩ := hl.planned
  rw [← Option.not_isSome_iff_eq_none, ← Std.TreeMap.mem_iff_isSome_getElem?,
    lower_derived_iff hg hw h, hp.derived_perm.mem_iff, List.mem_flatMap]
  rintro ⟨b', hb', he'⟩
  obtain ⟨hb', hk'⟩ := mem_ofKind.1 hb'
  obtain rfl := hp.sound.tiles.owner_unique hb hb' he he'
  exact absurd (hk.symm.trans hk') (by simp)

/-- The block of a product of matrices, an inner product or a sum computes it. -/
theorem lower_unrolls (hg : Circuit.read doc = .ok g) (hw : Witness.read m g given = .ok w)
    (h : (lower name g w layout lookupBits m).1 = .ok p) (hb : blk ∈ p.plan.blocks)
    (hc : IsContraction g blk.op c) (hpos : 1 ≤ c.steps) :
    ∃ t out r, g.tensor? blk.op.output = some t ∧
      p.plan.allocator.bound? .tensor blk.op.output = some out ∧
      Unrolls g w p blk c t.shape out r := by
  obtain ⟨values, hl⟩ := lower_lowered hg hw h
  obtain ⟨bs, out, hem⟩ := hl.emitted hb
  obtain ⟨v, r, f, hv, hgives, hch, hcells, hlen, hps⟩ := hc.chained hem.template
  obtain ⟨out', hout', hbase, hblock⟩ := hv.block hl.sound
  obtain rfl := Option.some.inj (hem.output.symm.trans hout')
  rw [← hbase] at hch hblock
  obtain ⟨hmem, hkind, -⟩ := hl.sound.coherent.bound_mem hem.output
  refine ⟨v.tensor, out, r, hv.tensor, hem.output, hgives, hlen, ⟨f, hch⟩, ?_, ?_, ?_⟩
  · intro hmore hvol
    obtain ⟨ps, hsub, hpart⟩ := hps fun hnone => hvol (by
      rw [← Shape.length_indices]
      simp [show Shape.indices v.tensor.shape = [] from hnone])
    generalize r.partials = base at hpart ⊢
    cases hpart with
    | single hone => omega
    | @chained b _ hown =>
      have hb := mem_ofKind.1 (hem.stands.scratch.subset (hsub (List.mem_singleton_self b)))
      refine ⟨b, hb.1, hb.2, rfl, ?_, fun e he => hl.count_scratch hb.1 hb.2 he⟩
      rw [hown.size, Operand.shape]
      push_cast [hpos]
      rfl
  · intro index hi s hs
    split
    · next hlast =>
        refine derived_tensor hg hw h hmem hkind ?_
        rw [Reduction.dest, hlen, if_pos hlast.1, hch.direct hlast.2, hblock, mem_elementCells]
        exact ⟨_, Shape.flat_lt hi, rfl⟩
    · next hder => exact hl.derived_total hb hc.operands.declared hch hcells hlen hi hs hder
  · intro settings entry memory hm hs hload
    refine hch.runs hc.operands hem.stands hem.output hem.fills hblock
      (hem.arithmetic hc.kind (by rw [c.category]; decide)) (fun k hk index hi => ?_) hm hs hload
    rw [hcells k entry hk index hi, c.total_eq]

end Program

namespace Product

def left : Circuit.Tensor := ⟨"x", [2, 2], 1, .priv⟩

def right : Circuit.Tensor := ⟨"w", [2, 2], 0, .fixed⟩

def output : Circuit.Tensor := ⟨"y", [2, 2], 0, .priv⟩

def node : Circuit.Operation := ⟨1, "matmul", ["x", "w"], "y", 0, []⟩

def graph : Circuit.Graph := ⟨[left, right, output], [node], ["x"], ["y"]⟩

def circuit : Json := graph.document

def values : Json := .obj [
  ("x", .arr [.arr [.int 1, .int 2], .arr [.int (-3), .int 4]]),
  ("w", .arr [.arr [.int 5, .int 0], .arr [.int 1, .int 6]]),
  ("y", .arr [.arr [.int 4, .int 6], .arr [.int (-6), .int 12]])]

def witness : Witness :=
  [("w", ⟨[2, 2], #[5, 0, 1, 6]⟩), ("x", ⟨[2, 2], #[1, 2, -3, 4]⟩),
    ("y", ⟨[2, 2], #[4, 6, -6, 12]⟩)]

theorem read_circuit : Circuit.read circuit = .ok graph := by
  cbv

theorem read_values : Witness.read Field.defaultModulus graph values = .ok witness := by
  cbv

def product : Lowering.Contraction := .matmul left right 2 2 2

theorem isContraction : Lowering.IsContraction graph node product where
  kind := by cbv
  operands := by
    refine ⟨by cbv, ?_⟩
    simp only [product, Lowering.Contraction.operands, List.forall_mem_cons]
    exact ⟨by cbv, by cbv, by simp⟩
  shapes := rfl

/-- The entries are those of the witness, with the modulus added where they are negative. -/
def entry (id : String) (index : List Nat) : Int :=
  Field.encode Field.defaultModulus (witness.entry graph id index)

def memory : Machine.Memory := MemoryTable.cellMap [(0, 0), (16, 1), (17, 2),
  (18, Field.encode Field.defaultModulus (-3)), (19, 4), (65552, 5), (65553, 0), (65554, 1),
  (65555, 6)]

def bases : List (Circuit.Tensor × Int) := [(left, 16), (right, 65552)]

theorem lowers : ∃ p blk,
    (Program.lower "product" graph witness default (.int 8) Field.defaultModulus).1 = .ok p ∧
    blk ∈ p.plan.blocks ∧ blk.op = node ∧ p.plan.zero = 0 ∧
    [left, right].map (Emitter.base? p.plan.allocator) = bases.map fun b => some b.2 := by
  have hrun : ((Program.lower "product" graph witness default (.int 8)
      Field.defaultModulus).1.toOption.map fun p => (p.plan.zero,
        [left, right].map (Emitter.base? p.plan.allocator))) =
          some (0, bases.map fun b => some b.2) := by
    decide +kernel
  cases hl : (Program.lower "product" graph witness default (.int 8) Field.defaultModulus).1 with
  | error f => simp [hl, Except.toOption] at hrun
  | ok p =>
    rw [hl] at hrun
    obtain ⟨hzero, hbases⟩ := Prod.mk.inj (Option.some.inj hrun)
    obtain ⟨v, hv⟩ := Program.lower_lowered read_circuit read_values hl
    obtain ⟨blk, hblk, hop⟩ := hv.mem_blocks.1 (List.mem_singleton_self node)
    exact ⟨p, blk, rfl, hblk, hop, hzero, hbases⟩

theorem loaded {a : Allocator}
    (h : [left, right].map (Emitter.base? a) = bases.map fun b => some b.2) :
    Lowering.Loaded Field.defaultModulus 0 a product.operands entry memory := by
  have hfilled : Lowering.Filled Field.defaultModulus a (bases.map (·.1)) entry memory :=
    .of_bases h (by decide +kernel)
  exact ⟨hfilled, by decide +kernel⟩

theorem total_reach : ∀ index ∈ Shape.indices output.shape,
    Quantity.rescaleFault? (Field.centre Field.defaultModulus
      (product.total entry index product.steps)) (product.natural - node.scale) = none := by
  decide +kernel

theorem total_moved : ∀ index ∈ Shape.indices output.shape,
    Field.encode Field.defaultModulus (Quantity.rescale (Field.centre Field.defaultModulus
      (product.total entry index product.steps)) (product.natural - node.scale)) =
        Field.encode Field.defaultModulus
          ([4, 6, -6, 12].getD (Shape.flat output.shape index) 0) := by
  decide +kernel

theorem total_first : product.total (witness.entry graph) [1, 0] 1 = -15 := by
  decide +kernel

end Product

/-- Two matrices at the scale one and zero, with the product at the scale zero. The sums `7`, `12`,
`-11` and `24` are halved; on the way to `-11` there is `-15`. -/
theorem Program.product_unrolls : ∃ p blk out r last,
    (lower "product" Product.graph Product.witness default (.int 8) Field.defaultModulus).1
      = .ok p ∧
    blk ∈ p.plan.blocks ∧
    Unrolls Product.graph Product.witness p blk Product.product [2, 2] out r ∧
    p.derived[r.dest 2 0]? = some (-15) ∧
    Machine.runThrough ⟨Field.defaultModulus, false, none, []⟩ (.start Product.memory)
      (blk.steps.map (·.instruction)) = (last, none) ∧
    ∀ index ∈ Shape.indices [2, 2],
      last.memory[out.address.absolute + (Shape.flat [2, 2] index : Int)]? = some
        (Field.encode Field.defaultModulus ([4, 6, -6, 12].getD (Shape.flat [2, 2] index) 0)) := by
  obtain ⟨p, blk, hl, hblk, hop, hzero, hbases⟩ := Product.lowers
  obtain ⟨t, out, r, ht, hout, hun⟩ := lower_unrolls Product.read_circuit Product.read_values hl
    hblk (hop ▸ Product.isContraction) (by decide)
  obtain rfl : t = Product.output := by
    rw [hop] at ht
    exact Option.some.inj (ht.symm.trans (by cbv))
  obtain ⟨last, stop, hrun, hstop, hcells⟩ := hun.runs ⟨Field.defaultModulus, false, none, []⟩
    Product.entry Product.memory (by decide) rfl (hzero ▸ Product.loaded hbases)
  rw [hop] at hstop hcells
  obtain rfl := hstop.2 Product.total_reach
  refine ⟨p, blk, out, r, last, hl, hblk, hun, ?_, hrun, fun index hi => ?_⟩
  · have hder := hun.derived [1, 0] (by decide) 0 (by decide)
    rw [hop, if_neg (by decide), Product.total_first] at hder
    exact hder
  · exact (hcells rfl index hi).trans (congrArg some (Product.total_moved index hi))

namespace FarProduct

def graph : Circuit.Graph :=
  ⟨[⟨"x", [2], 2 ^ 70, .priv⟩, ⟨"k", [2], 0, .fixed⟩, ⟨"y", [], 0, .priv⟩],
    [⟨1, "dot", ["x", "k"], "y", 0, []⟩], ["x"], ["y"]⟩

def circuit : Json := graph.document

def values : Json := .obj [
  ("x", .arr [.int 0, .int 0]), ("k", .arr [.int 1, .int 2]), ("y", .int 0)]

def witness : Witness := [("k", ⟨[2], #[1, 2]⟩), ("x", ⟨[2], #[0, 0]⟩), ("y", ⟨[], #[0]⟩)]

theorem read_far : Circuit.read circuit = .ok graph ∧
    Witness.read Field.defaultModulus graph values = .ok witness :=
  ⟨by cbv, by cbv⟩

def memory : Machine.Memory :=
  MemoryTable.cellMap [(0, 0), (16, 0), (17, 0), (65552, 1), (65553, 2)]

theorem far_ending : Program.ending
    (Program.lower "far" graph witness default (.int 8) Field.defaultModulus).1
    ⟨Field.defaultModulus, false, none, []⟩ memory 983040 = some (true, none) := by
  decide +kernel

end FarProduct

/-- The inner product of zeros at the scale `2 ^ 70` with anything is zero, but it never gets to the
output. -/
theorem Program.inner_product_out_of_reach : ∃ p last f,
    Circuit.read FarProduct.circuit = .ok FarProduct.graph ∧
    Witness.read Field.defaultModulus FarProduct.graph FarProduct.values = .ok FarProduct.witness ∧
    (lower "far" FarProduct.graph FarProduct.witness default (.int 8) Field.defaultModulus).1
      = .ok p ∧
    Machine.runThrough ⟨Field.defaultModulus, false, none, []⟩ (.start FarProduct.memory)
      p.plan.instructions = (last, some f) ∧ last.memory[(983040 : Int)]? = none := by
  obtain ⟨p, last, f, hl, hstop⟩ := stops_short FarProduct.far_ending
  exact ⟨p, last, f, FarProduct.read_far.1, FarProduct.read_far.2, hl, hstop⟩

end TensorAsm
