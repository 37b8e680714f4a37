import TensorAsm.Proofs.Emission
import TensorAsm.Proofs.Order
/-!
What the lowering of an operation leaves: for each kind of operation the scratch blocks and steps,
over blocks that hold its inputs and its output. Every run that succeeds goes through one of these
templates.
-/

namespace TensorAsm.Lowering

/-- The operand for a tensor where an allocator has it. -/
structure Placed (g : Circuit.Graph) (a : Allocator) (id : String) (x : Operand) : Prop where
  tensor : g.tensor? id = some x.tensor
  base : ∃ b, a.bound? .tensor id = some b ∧ b.address.absolute = x.base
  scale : x.scale = x.tensor.scale

/-- An operand brought to a scale, with the block of its copy and the steps that fill it. -/
inductive Brought (o : Circuit.Operation) (x : Operand) (target : Int) :
    Operand → List Allocation → List Step → Prop
  | same : x.scale = target → Brought o x target x [] []
  | copied {b : Allocation} : x.scale ≠ target → Owned o (Shape.volume x.shape) b →
      Brought o x target ⟨x.tensor, b.address.absolute, target⟩ [b]
        (requantSteps o x target b.address.absolute (Shape.volume x.shape))

theorem Brought.tensor_eq {o : Circuit.Operation} {x x' : Operand} {target : Int}
    {bs : List Allocation} {ss : List Step} (h : Brought o x target x' bs ss) :
    x'.tensor = x.tensor := by
  cases h <;> rfl

/-- Where results of a natural scale go: to the output, or to a block of their own first. -/
inductive Landing (o : Circuit.Operation) (natural size output : Int) :
    Target → List Allocation → Prop
  | direct : natural = o.scale → Landing o natural size output ⟨output, output, natural, o.scale⟩ []
  | apart {b : Allocation} : natural ≠ o.scale → Owned o size b →
      Landing o natural size output ⟨output, b.address.absolute, natural, o.scale⟩ [b]

/-- The block for the sums on the way of chains of `n` steps. -/
inductive Partials (o : Circuit.Operation) (count n : Nat) : Int → List Allocation → Prop
  | single : n = 1 → Partials o count n 0 []
  | chained {b : Allocation} : 1 < n → Owned o (count * ((n : Int) - 1)) b →
      Partials o count n b.address.absolute [b]

structure Convolves (o : Circuit.Operation) (x w : Operand) (c : Window) : Prop where
  channels : channelsAgree x.shape w.shape = true
  window : ∃ stride pad, pair? ((o.param? "stride").getD (.int 1)) = some stride ∧
    pair? ((o.param? "padding").getD (.int 0)) = some pad ∧
    window? x.shape w.shape stride pad = some c

namespace Window

variable (c : Window) (zero : Int) (x w : Operand)

theorem taps_eq (o i j : Nat) :
    c.taps zero x w o i j =
      (Shape.indices [c.channels, c.kernelHeight, c.kernelWidth]).map fun k =>
        c.tap zero x w o i j (k.getD 0 0) (k.getD 1 0) (k.getD 2 0) := by
  rw [taps, ← List.filterMap_eq_map']
  apply List.filterMap_congr
  intro k hk
  obtain ⟨a, b, e, rfl⟩ := List.length_eq_three.1 (Shape.length_of_mem_indices hk)
  rfl

theorem terms_eq (bias : Option Operand) :
    c.terms zero x w bias = (Shape.indices c.outShape).map fun index =>
      (bias.toList.map fun b => ⟨b.cell (index.getD 0 0), none⟩) ++
        c.taps zero x w (index.getD 0 0) (index.getD 1 0) (index.getD 2 0) := by
  rw [terms, ← List.filterMap_eq_map']
  apply List.filterMap_congr
  intro k hk
  obtain ⟨a, b, e, rfl⟩ := List.length_eq_three.1 (Shape.length_of_mem_indices hk)
  rfl

end Window

/-- What a reduction adds up for each element, the natural scale of the sums and the shape of the
output, with a copied bias if there is one. -/
inductive Summands (g : Circuit.Graph) (zero : Int) (a : Allocator) (o : Circuit.Operation) :
    Int → List Nat → List (List Term) → List Allocation → List Step → Prop
  | matmul {ia ib : String} {x y : Operand} {k n : Nat} {shape : List Nat} :
      o.kind? = some .matmul → o.inputs = [ia, ib] → Placed g a ia x → Placed g a ib y →
      product? x.shape y.shape = some (k, n, shape) →
      Summands g zero a o (x.scale + y.scale) shape (matmulTerms x y k n shape) [] []
  | dot {ia ib : String} {x y : Operand} {shape : List Nat} :
      o.kind? = some .dot → o.inputs = [ia, ib] → Placed g a ia x → Placed g a ib y →
      x.shape = y.shape → shape = [] ∨ shape = [1] →
      Summands g zero a o (x.scale + y.scale) shape (dotTerms x y (Shape.volume x.shape)) [] []
  | sum {ia : String} {x : Operand} {shape : List Nat} :
      o.kind? = some .sum → o.inputs = [ia] → Placed g a ia x → shape = [] ∨ shape = [1] →
      Summands g zero a o x.scale shape (sumTerms x (Shape.volume x.shape)) [] []
  | conv {ix iw : String} {x w : Operand} {c : Window} :
      o.kind? = some .conv → o.inputs = [ix, iw] → Placed g a ix x → Placed g a iw w →
      Convolves o x w c →
      Summands g zero a o (x.scale + w.scale) c.outShape (c.terms zero x w none) [] []
  | biased {ix iw ib : String} {x w b b' : Operand} {c : Window} {bs : List Allocation}
      {ss : List Step} :
      o.kind? = some .conv → o.inputs = [ix, iw, ib] → Placed g a ix x → Placed g a iw w →
      Placed g a ib b → Convolves o x w c → b.shape = [c.filters] →
      Brought o b (x.scale + w.scale) b' bs ss →
      Summands g zero a o (x.scale + w.scale) c.outShape (c.terms zero x w (some b')) bs ss

theorem Summands.contraction {g : Circuit.Graph} {zero natural : Int} {a : Allocator}
    {o : Circuit.Operation} {shape : List Nat} {terms : List (List Term)} {bs : List Allocation}
    {ss : List Step} (h : Summands g zero a o natural shape terms bs ss) :
    ∃ kind, o.kind? = some kind ∧ kind.category = .contraction := by
  cases h with
  | matmul hk | dot hk | sum hk | conv hk | biased hk => exact ⟨_, hk, rfl⟩

/-- The blocks and steps of a reduction. -/
inductive Reduced (zero : Int) (o : Circuit.Operation) (natural : Int) (shape : List Nat)
    (output : Int) (terms : List (List Term)) : List Allocation → List Step → Prop
  | empty : terms = [] → Reduced zero o natural shape output terms [] []
  | chains {n : Nat} {partials : Int} {t : Target} {ps ls : List Allocation} :
      n ≠ 0 → (terms.head?).map List.length = some n → Partials o terms.length n partials ps →
      Landing o natural terms.length output t ls →
      Reduced zero o natural shape output terms (ps ++ ls)
        (reductionSteps o ⟨zero, partials, n, t⟩ shape terms)

/-- Bounds that come with a rescaling, if they can be read. -/
def bounds? (o : Circuit.Operation) : Option (Option (Int × Int)) :=
  match o.param? "clamp" with
  | none | some .null => some none
  | some (.arr [x, y]) =>
    match count? x, count? y with
    | some lo, some hi => some (some (lo, hi))
    | _, _ => none
  | _ => none

/-- The scratch blocks and steps of an operation. -/
inductive Template [Platform] (g : Circuit.Graph) (lookupBits : Json) (zero : Int) (a : Allocator)
    (ts : List FoldedTable) (o : Circuit.Operation) : List Allocation → List Step → Prop
  | linear {op : Arithmetic} {ia ib : String} {x y x' y' out : Operand}
      {bx bz : List Allocation} {sx sy : List Step} :
      (o.kind? = some .add ∧ op = .add) ∨ (o.kind? = some .sub ∧ op = .sub) →
      o.inputs = [ia, ib] → Placed g a ia x → Placed g a ib y → Placed g a o.output out →
      Shape.broadcast? x.shape y.shape = some out.shape →
      Brought o x o.scale x' bx sx → Brought o y o.scale y' bz sy →
      Template g lookupBits zero a ts o (bx ++ bz)
        (sx ++ sy ++ binarySteps o op x' y' out.shape ⟨out.base, out.base, o.scale, o.scale⟩)
  | product {ia ib : String} {x y out : Operand} {t : Target} {ls : List Allocation} :
      o.kind? = some .mul → o.inputs = [ia, ib] → Placed g a ia x → Placed g a ib y →
      Placed g a o.output out → Shape.broadcast? x.shape y.shape = some out.shape →
      Landing o (x.scale + y.scale) (Shape.volume out.shape) out.base t ls →
      Template g lookupBits zero a ts o ls (binarySteps o .mul x y out.shape t)
  | unary {negate : Bool} {ia : String} {x x' out : Operand} {bs : List Allocation}
      {ss : List Step} :
      (o.kind? = some .neg ∧ negate = true) ∨ (o.kind? = some .identity ∧ negate = false) →
      o.inputs = [ia] → Placed g a ia x → Placed g a o.output out → out.shape = x.shape →
      Brought o x o.scale x' bs ss →
      Template g lookupBits zero a ts o bs
        (ss ++ unarySteps o negate x' zero out.base (Shape.volume x.shape))
  | reduction {natural : Int} {terms : List (List Term)} {out : Operand}
      {bs rs : List Allocation} {ss steps : List Step} :
      Summands g zero a o natural out.shape terms bs ss → Placed g a o.output out →
      Reduced zero o natural out.shape out.base terms rs steps →
      Template g lookupBits zero a ts o (bs ++ rs) (ss ++ steps)
  | lookup {kind : Circuit.Kind} {ia : String} {x out : Operand} {spec : Table.Spec}
      {t : FoldedTable} :
      o.kind? = some kind → kind.category = .nonlinearity → o.inputs = [ia] → Placed g a ia x →
      Placed g a o.output out → out.shape = x.shape →
      Table.specFor o x.scale lookupBits = .ok spec → t ∈ ts →
      Table.fold spec = .ok t.rows.toList →
      Template g lookupBits zero a ts o []
        (lookupSteps o x t.address.absolute spec.rows out.base (Shape.volume x.shape))
  | rescale {ia : String} {x out : Operand} :
      o.kind? = some .rescale → o.inputs = [ia] → Placed g a ia x → Placed g a o.output out →
      out.shape = x.shape → bounds? o = some none →
      Template g lookupBits zero a ts o [] (rescaleSteps o x out.base (Shape.volume x.shape))
  | clamp {ia : String} {x x' out : Operand} {lo hi : Immediate} {bs : List Allocation}
      {ss : List Step} :
      o.kind? = some .rescale → o.inputs = [ia] → Placed g a ia x → Placed g a o.output out →
      out.shape = x.shape → bounds? o = some (some (lo.value, hi.value)) → lo.value ≤ hi.value →
      Brought o x o.scale x' bs ss →
      Template g lookupBits zero a ts o bs
        (ss ++ clampSteps o x' lo hi out.base (Shape.volume x.shape))

/-- A run that lowers an operation: it places the inputs and then goes through a template. -/
structure Lowers [Platform] (s : Setting) (o : Circuit.Operation) (d : Draft)
    (ins rest : List Event) (d' : Draft) : Prop where
  writes : Writes s.graph d (ins ++ rest) d'
  placements : Placements ins
  inputs : ∀ id ∈ o.inputs,
    ∃ b ∈ d.allocator.allocations ++ blocksOf ins, b.kind = .tensor ∧ b.name = id
  template : Template s.graph s.lookupBits s.zero d'.allocator d'.tables o
    (ofKind .scratch (blocksOf rest)) (stepsOf rest)

end TensorAsm.Lowering
