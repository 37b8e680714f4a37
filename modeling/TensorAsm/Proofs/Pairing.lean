import TensorAsm.Proofs.Scopes
/-!
Two placements of the same blocks. Cells go together that have the same place in blocks that go
together, and so do steps with the same instructions over such cells.
-/

namespace TensorAsm

namespace Lowering

/-- Blocks that go together. -/
abbrev Pairs := List (Allocation × Allocation)

/-- The same cell of blocks that go together. -/
def SameCell (K : Pairs) (x y : Int) : Prop :=
  ∃ p ∈ K, ∃ i : Nat, (i : Int) < p.1.size ∧ x = p.1.address.absolute + i ∧
    y = p.2.address.absolute + i

/-- So many cells from two addresses on. -/
def SameRow (K : Pairs) (n : Nat) (x y : Int) : Prop :=
  ∀ i : Nat, i < n → SameCell K (x + i) (y + i)

section

variable {K K' : Pairs} {n : Nat} {x y : Int}

theorem SameCell.mono (h : SameCell K x y) (hK : K ⊆ K') : SameCell K' x y := by
  obtain ⟨p, hp, hi⟩ := h
  exact ⟨p, hK hp, hi⟩

theorem SameRow.mono (h : SameRow K n x y) (hK : K ⊆ K') : SameRow K' n x y :=
  fun i hi => (h i hi).mono hK

theorem sameRow_block {p : Allocation × Allocation} (hp : p ∈ K) (hn : p.1.size = n) :
    SameRow K n p.1.address.absolute p.2.address.absolute :=
  fun i hi => ⟨p, hp, i, by omega, rfl, rfl⟩

theorem SameRow.head (h : SameRow K n x y) (hn : 0 < n) : SameCell K x y := by
  simpa using h 0 hn

end

/-- The same instruction over cells that go together; a lookup has all of its table. -/
inductive SameInstruction (K : Pairs) : Instruction → Instruction → Prop
  | add {d a b d' a' b' : Int} : SameCell K d d' → SameCell K a a' → SameCell K b b' →
      SameInstruction K (.add d a b) (.add d' a' b')
  | sub {d a b d' a' b' : Int} : SameCell K d d' → SameCell K a a' → SameCell K b b' →
      SameInstruction K (.sub d a b) (.sub d' a' b')
  | mul {d a b d' a' b' : Int} : SameCell K d d' → SameCell K a a' → SameCell K b b' →
      SameInstruction K (.mul d a b) (.mul d' a' b')
  | mac {d c a b d' c' a' b' : Int} : SameCell K d d' → SameCell K c c' → SameCell K a a' →
      SameCell K b b' → SameInstruction K (.mac d c a b) (.mac d' c' a' b')
  | rescale {d a d' a' : Int} (shift : Int) : SameCell K d d' → SameCell K a a' →
      SameInstruction K (.rescale d a shift) (.rescale d' a' shift)
  | clamp {d a d' a' : Int} (lo hi : Immediate) : SameCell K d d' → SameCell K a a' →
      SameInstruction K (.clamp d a lo hi) (.clamp d' a' lo hi)
  | lookup {d a t d' a' t' rows : Int} : SameCell K d d' → SameCell K a a' → 0 < rows →
      SameRow K (2 * rows).toNat t t' →
      SameInstruction K (.lookup d a t rows) (.lookup d' a' t' rows)

structure SameStep (K : Pairs) (s s' : Step) : Prop where
  instruction : SameInstruction K s.instruction s'.instruction
  comment : s'.comment = s.comment
  derived : s'.derived = s.derived

abbrev SameSteps (K : Pairs) : List Step → List Step → Prop := List.Forall₂ (SameStep K)

theorem SameInstruction.mono {K K' : Pairs} {i i' : Instruction} (h : SameInstruction K i i')
    (hK : K ⊆ K') : SameInstruction K' i i' := by
  cases h with
  | add hd ha hb => exact .add (hd.mono hK) (ha.mono hK) (hb.mono hK)
  | sub hd ha hb => exact .sub (hd.mono hK) (ha.mono hK) (hb.mono hK)
  | mul hd ha hb => exact .mul (hd.mono hK) (ha.mono hK) (hb.mono hK)
  | mac hd hc ha hb => exact .mac (hd.mono hK) (hc.mono hK) (ha.mono hK) (hb.mono hK)
  | rescale shift hd ha => exact .rescale shift (hd.mono hK) (ha.mono hK)
  | clamp lo hi hd ha => exact .clamp lo hi (hd.mono hK) (ha.mono hK)
  | lookup hd ha hr ht => exact .lookup (hd.mono hK) (ha.mono hK) hr (ht.mono hK)

theorem SameSteps.mono {K K' : Pairs} {ss ss' : List Step} (h : SameSteps K ss ss')
    (hK : K ⊆ K') : SameSteps K' ss ss' :=
  h.imp fun _ _ hs => ⟨hs.instruction.mono hK, hs.comment, hs.derived⟩

end Lowering

def Circuit.Tensor.veiled (t : Circuit.Tensor) : Circuit.Tensor := { t with visibility := .priv }

namespace Lowering

/-- Tensors, or copies of them, that differ in visibility only, on rows that go together and have
as many cells as the tensors have elements. -/
structure SameOperand (K : Pairs) (a a' : Operand) : Prop where
  tensor : a'.tensor.veiled = a.tensor.veiled
  scale : a'.scale = a.scale
  size : a.tensor.size? = .ok (Shape.volume a.shape : Int)
  row : SameRow K (Shape.volume a.shape) a.base a'.base

namespace SameOperand

variable {K K' : Pairs} {a a' : Operand}

theorem shape (h : SameOperand K a a') : a'.shape = a.shape := congrArg (·.shape) h.tensor

theorem id (h : SameOperand K a a') : a'.tensor.id = a.tensor.id := congrArg (·.id) h.tensor

theorem mono (h : SameOperand K a a') (hK : K ⊆ K') : SameOperand K' a a' :=
  ⟨h.tensor, h.scale, h.size, h.row.mono hK⟩

theorem cell (h : SameOperand K a a') {i : Nat} (hi : i < Shape.volume a.shape) :
    SameCell K (a.cell i) (a'.cell i) :=
  h.row i hi

end SameOperand

theorem sameSteps_range {K : Pairs} {n : Nat} {f f' : Nat → Step}
    (h : ∀ i < n, SameStep K (f i) (f' i)) :
    SameSteps K ((List.range n).map f) ((List.range n).map f') :=
  Sequences.forall₂_map fun i hi => h i (List.mem_range.1 hi)

section

variable {K : Pairs} {o : Circuit.Operation} {a a' b b' : Operand} {out out' : Int}

theorem requantSteps_same (ha : SameOperand K a a') (target : Int)
    (hout : SameRow K (Shape.volume a.shape) out out') :
    SameSteps K (requantSteps o a target out (Shape.volume a.shape))
      (requantSteps o a' target out' (Shape.volume a.shape)) := by
  apply sameSteps_range
  intro i hi
  refine ⟨?_, by rw [requantStep, requantStep, ha.id, ha.scale], rfl⟩
  rw [requantStep_instruction, requantStep_instruction, ha.scale]
  exact .rescale _ (hout i hi) (ha.cell hi)

theorem unarySteps_same {zero zero' : Int} (negate : Bool) (ha : SameOperand K a a')
    (hz : SameCell K zero zero') (hout : SameRow K (Shape.volume a.shape) out out') :
    SameSteps K (unarySteps o negate a zero out (Shape.volume a.shape))
      (unarySteps o negate a' zero' out' (Shape.volume a.shape)) := by
  apply sameSteps_range
  intro i hi
  refine ⟨?_, rfl, rfl⟩
  cases negate with
  | true => exact .sub (hout i hi) hz (ha.cell hi)
  | false => exact .add (hout i hi) (ha.cell hi) hz

theorem lookupSteps_same {table table' rows : Int} (ha : SameOperand K a a') (hr : 0 < rows)
    (ht : SameRow K (2 * rows).toNat table table')
    (hout : SameRow K (Shape.volume a.shape) out out') :
    SameSteps K (lookupSteps o a table rows out (Shape.volume a.shape))
      (lookupSteps o a' table' rows out' (Shape.volume a.shape)) :=
  sameSteps_range fun i hi => ⟨.lookup (hout i hi) (ha.cell hi) hr ht, rfl, rfl⟩

theorem rescaleSteps_same (ha : SameOperand K a a')
    (hout : SameRow K (Shape.volume a.shape) out out') :
    SameSteps K (rescaleSteps o a out (Shape.volume a.shape))
      (rescaleSteps o a' out' (Shape.volume a.shape)) := by
  apply sameSteps_range
  intro i hi
  refine ⟨?_, by rw [ha.scale], rfl⟩
  rw [ha.scale]
  exact .rescale _ (hout i hi) (ha.cell hi)

theorem clampSteps_same (lo hi : Immediate) (ha : SameOperand K a a')
    (hout : SameRow K (Shape.volume a.shape) out out') :
    SameSteps K (clampSteps o a lo hi out (Shape.volume a.shape))
      (clampSteps o a' lo hi out' (Shape.volume a.shape)) :=
  sameSteps_range fun i hi => ⟨.clamp _ _ (hout i hi) (ha.cell hi), rfl, rfl⟩

/-- Targets on rows that go together. -/
structure SameTarget (K : Pairs) (n : Nat) (t t' : Target) : Prop where
  output : SameRow K n t.output t'.output
  landing : SameRow K n t.landing t'.landing
  natural : t'.natural = t.natural
  scale : t'.scale = t.scale

theorem SameTarget.rescales {n : Nat} {t t' : Target} (h : SameTarget K n t t') :
    t'.rescales = t.rescales := by
  rw [Target.rescales, Target.rescales, h.natural, h.scale]

theorem SameTarget.isWritten {n : Nat} {t t' : Target} (h : SameTarget K n t t') :
    t'.isWritten = t.isWritten := by
  rw [Target.isWritten, Target.isWritten, h.rescales, h.natural, h.scale]

theorem finish_same {n i : Nat} {t t' : Target} (h : SameTarget K n t t') (label : String)
    (hi : i < n) : SameSteps K (t.finish label i) (t'.finish label i) := by
  rw [Target.finish, Target.finish, h.rescales]
  unfold Target.finishStep
  rw [h.natural, h.scale]
  split
  · exact .cons ⟨.rescale _ (h.output i hi) (h.landing i hi), rfl, rfl⟩ .nil
  · exact .nil

theorem arithmetic_same (op : Arithmetic) {d x y d' x' y' : Int} (hd : SameCell K d d')
    (hx : SameCell K x x') (hy : SameCell K y y') :
    SameInstruction K (op.instruction d x y) (op.instruction d' x' y') := by
  cases op with
  | add => exact .add hd hx hy
  | sub => exact .sub hd hx hy
  | mul => exact .mul hd hx hy

theorem binarySteps_same (op : Arithmetic) {shape : List Nat} {t t' : Target}
    (hb : Shape.broadcast? a.shape b.shape = some shape) (ha : SameOperand K a a')
    (hb' : SameOperand K b b') (ht : SameTarget K (Shape.volume shape) t t') :
    SameSteps K (binarySteps o op a b shape t) (binarySteps o op a' b' shape t') := by
  obtain ⟨hsa, hsb⟩ := Shape.broadcast_stretches hb
  apply Sequences.forall₂_flatMap
  intro index hi
  have hflat := Shape.flat_lt hi
  refine .cons ⟨?_, rfl, ht.rescales⟩ (finish_same ht _ hflat)
  apply arithmetic_same
  · exact ht.landing _ hflat
  · rw [ha.shape]
    exact ha.cell (Shape.flatProject_lt hsa hi)
  · rw [hb'.shape]
    exact hb'.cell (Shape.flatProject_lt hsb hi)

/-- Summands over cells that go together. -/
structure SameTerm (K : Pairs) (t t' : Term) : Prop where
  a : SameCell K t.a t'.a
  b : Option.Rel (SameCell K) t.b t'.b

theorem term_same {t t' : Term} {d acc d' acc' : Int} (h : SameTerm K t t')
    (hd : SameCell K d d') (hacc : SameCell K acc acc') :
    SameInstruction K (t.instruction d acc) (t'.instruction d' acc') := by
  obtain ⟨x, y⟩ := t
  obtain ⟨x', y'⟩ := t'
  obtain ⟨hx, hy⟩ := h
  cases hy with
  | none => exact .add hd hacc hx
  | some hy => exact .mac hd hacc hx hy

/-- Reductions of so many elements, each in at least one step, on rows that go together. -/
structure SameReduction (K : Pairs) (n : Nat) (r r' : Reduction) : Prop where
  zero : SameCell K r.zero r'.zero
  partials : SameRow K (n * (r.steps - 1)) r.partials r'.partials
  steps : r'.steps = r.steps
  target : SameTarget K n r.target r'.target

variable {n : Nat} {r r' : Reduction}

theorem SameReduction.dest (h : SameReduction K n r r') {i k : Nat} (hi : i < n)
    (hk : k < r.steps) : SameCell K (r.dest i k) (r'.dest i k) := by
  rw [Reduction.dest, Reduction.dest, h.steps]
  split
  · exact h.target.landing i hi
  · have hlt : i * (r.steps - 1) + k < n * (r.steps - 1) := by
      calc i * (r.steps - 1) + k < i * (r.steps - 1) + (r.steps - 1) := by omega
        _ = (i + 1) * (r.steps - 1) := by rw [Nat.succ_mul]
        _ ≤ n * (r.steps - 1) := Nat.mul_le_mul_right _ hi
    have hcast : ((i * (r.steps - 1) + k : Nat) : Int) = i * ((r.steps : Int) - 1) + k := by
      rw [Int.natCast_add, Int.natCast_mul, Int.natCast_sub (by omega)]
      rfl
    have hcell := h.partials _ hlt
    rwa [hcast, ← Int.add_assoc, ← Int.add_assoc] at hcell

theorem chain_same (h : SameReduction K n r r') (label : String) {i k : Nat} (hi : i < n)
    {acc acc' : Int} (hacc : SameCell K acc acc') {ts ts' : List Term}
    (ht : List.Forall₂ (SameTerm K) ts ts') (hk : k + ts.length ≤ r.steps) :
    SameSteps K (r.chain label i k acc ts) (r'.chain label i k acc' ts') := by
  induction ht generalizing k acc acc' with
  | nil => exact .nil
  | @cons t t' ts ts' ht _ ih =>
    rw [List.length_cons] at hk
    have hd := h.dest hi (k := k) (by omega)
    refine .cons ⟨term_same ht hd hacc, rfl, ?_⟩ (ih hd (by omega))
    rw [Reduction.step_derived, Reduction.step_derived, h.steps, h.target.rescales]

theorem elements_same (h : SameReduction K n r r') {i : Nat} (indices : List (List Nat))
    {terms terms' : List (List Term)} (ht : List.Forall₂ (List.Forall₂ (SameTerm K)) terms terms')
    (hlen : ∀ ts ∈ terms, ts.length = r.steps) (hn : i + terms.length ≤ n) :
    SameSteps K (r.elements o i indices terms) (r'.elements o i indices terms') := by
  induction ht generalizing i indices with
  | nil =>
    cases indices <;> exact .nil
  | @cons ts ts' terms terms' ht _ ih =>
    cases indices with
    | nil => exact .nil
    | cons index indices =>
      rw [List.length_cons] at hn
      have hchain := chain_same h (elementLabel o index) (i := i) (k := 0) (by omega) h.zero ht
        (by rw [hlen ts (by simp)]; omega)
      refine List.rel_append (List.rel_append hchain ?_) (ih indices ?_ (by omega))
      · exact finish_same h.target _ (by omega)
      · exact fun us hu => hlen us (by simp [hu])

abbrev SameTerms (K : Pairs) : List (List Term) → List (List Term) → Prop :=
  List.Forall₂ (List.Forall₂ (SameTerm K))

theorem SameTerms.mono {K' : Pairs} {terms terms' : List (List Term)}
    (h : SameTerms K terms terms') (hK : K ⊆ K') : SameTerms K' terms terms' := by
  have hrel {b b' : Option Int} (h : Option.Rel (SameCell K) b b') :
      Option.Rel (SameCell K') b b' := by
    cases h with
    | none => exact .none
    | some hb => exact .some (hb.mono hK)
  exact h.imp fun ts ts' hts => hts.imp fun t t' ht => ⟨ht.a.mono hK, hrel ht.b⟩

theorem matmulTerms_same {k m : Nat} {shape : List Nat}
    (hp : product? a.shape b.shape = some (k, m, shape)) (ha : SameOperand K a a')
    (hb : SameOperand K b b') :
    SameTerms K (matmulTerms a b k m shape) (matmulTerms a' b' k m shape) := by
  apply Sequences.forall₂_map
  intro index hi
  apply Sequences.forall₂_map
  intro r hr
  obtain ⟨hx, hy, hfx, hfy⟩ := product_places hp hi (List.mem_range.1 hr)
  rw [ha.shape]
  refine ⟨ha.cell ?_, .some (hb.cell ?_)⟩
  · rw [← hfx]
    exact Shape.flat_lt hx
  · rw [← hfy]
    exact Shape.flat_lt hy

theorem dotTerms_same (hs : a.shape = b.shape) (ha : SameOperand K a a')
    (hb : SameOperand K b b') :
    SameTerms K (dotTerms a b (Shape.volume a.shape)) (dotTerms a' b' (Shape.volume a.shape)) := by
  refine .cons (Sequences.forall₂_map fun i hi => ?_) .nil
  rw [List.mem_range] at hi
  exact ⟨ha.cell hi, .some (hb.cell (hs ▸ hi))⟩

theorem sumTerms_same (ha : SameOperand K a a') :
    SameTerms K (sumTerms a (Shape.volume a.shape)) (sumTerms a' (Shape.volume a.shape)) := by
  refine .cons (Sequences.forall₂_map fun i hi => ?_) .nil
  exact ⟨ha.cell (List.mem_range.1 hi), .none⟩

theorem windowTerms_same {c : Window} {zero zero' : Int} {x x' w w' : Operand}
    {bias bias' : Option Operand} (hc : Convolves o x w c) (hz : SameCell K zero zero')
    (hx : SameOperand K x x') (hw : SameOperand K w w')
    (hbias : Option.Rel (fun b b' => SameOperand K b b' ∧ b.shape = [c.filters]) bias bias') :
    SameTerms K (c.terms zero x w bias) (c.terms zero' x' w' bias') := by
  obtain ⟨hxs, hws⟩ := hc.shapes
  rw [Window.terms_eq, Window.terms_eq]
  apply Sequences.forall₂_map
  intro index hi
  apply List.rel_append
  · cases hbias with
    | none => exact .nil
    | @some b b' hb =>
      refine .cons ⟨hb.1.cell ?_, .none⟩ .nil
      obtain ⟨f, i, j, rfl⟩ := List.length_eq_three.1 (Shape.length_of_mem_indices hi)
      have hi := Shape.mem_indices.1 hi
      simp only [Window.outShape, List.forall₂_cons] at hi
      simpa [hb.2] using hi.1
  · rw [Window.taps_eq, Window.taps_eq]
    apply Sequences.forall₂_map
    intro k hk
    obtain ⟨hker, hin⟩ := tap_places hi hk
    refine ⟨?_, .some (hw.cell (hws ▸ hker))⟩
    dsimp only [Window.tap]
    split
    · next hinside => exact hx.cell (hxs ▸ hin _ _ hinside)
    · exact hz

end

end Lowering

end TensorAsm
