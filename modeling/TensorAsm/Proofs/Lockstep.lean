import TensorAsm.Proofs.Lowerings
import TensorAsm.Proofs.Pairing
/-!
Two lowerings side by side, of circuits that differ in visibilities only and under any two layouts.
Where both succeed they make the same requests, and their blocks and steps go together one by one.
-/

namespace TensorAsm

open Stateful

def Circuit.Graph.veiled (g : Circuit.Graph) : Circuit.Graph :=
  { g with tensors := g.tensors.map Circuit.Tensor.veiled }

namespace Lowering

/-- Blocks that are alike but for their places. -/
structure Twin (b b' : Allocation) : Prop where
  name : b'.name = b.name
  kind : b'.kind = b.kind
  size : b'.size = b.size

structure SameTable (K : Pairs) (t t' : FoldedTable) : Prop where
  spec : t'.spec = t.spec
  rows : t'.rows = t.rows
  row : SameRow K (2 * t.rows.size) t.address.absolute t'.address.absolute

structure SameBlock (K : Pairs) (b b' : Block) : Prop where
  op : b'.op = b.op
  steps : SameSteps K b.steps b'.steps

def pairsOf (d d' : Draft) : Pairs := d.allocator.allocations.zip d'.allocator.allocations

/-- Drafts of two lowerings that have come equally far. -/
structure SameDraft [Platform] (g : Circuit.Graph) (d d' : Draft) : Prop where
  allocations : List.Forall₂ Twin d.allocator.allocations d'.allocator.allocations
  count : d'.allocator.scratchCount = d.allocator.scratchCount
  coherent : d.allocator.Coherent
  bound : ∀ kind name,
    (d.allocator.bound? kind name = none ∧ d'.allocator.bound? kind name = none) ∨
      ∃ q ∈ pairsOf d d', d.allocator.bound? kind name = some q.1 ∧
        d'.allocator.bound? kind name = some q.2
  sized : ∀ b ∈ d.allocator.allocations, b.kind = .tensor →
    ∀ t, g.tensor? b.name = some t → b.size = Shape.volume t.shape
  tables : List.Forall₂ (SameTable (pairsOf d d')) d.tables d'.tables
  folded : ∀ t ∈ d.tables, Table.fold t.spec = .ok t.rows.toList
  blocks : List.Forall₂ (SameBlock (pairsOf d d')) d.blocks d'.blocks
  current : SameSteps (pairsOf d d') d.current d'.current

/-- Two requests that keep drafts equally far, if both succeed, and whose results are related.
Blocks that are known to go together are there from the start. -/
def Tied [Platform] {α : Type} (g : Circuit.Graph) (K : Pairs) (x y : Emit α)
    (Q : Pairs → α → α → Prop) : Prop :=
  ∀ ⦃d d' : Draft⦄ ⦃a b : α⦄ ⦃e e' : Draft⦄, SameDraft g d d' → K ⊆ pairsOf d d' →
    x.Yields d a e → y.Yields d' b e' →
      SameDraft g e e' ∧ pairsOf d d' ⊆ pairsOf e e' ∧ Q (pairsOf e e') a b

namespace Tied

variable [Platform] {α β : Type} {g : Circuit.Graph} {K : Pairs} {x y : Emit α}
  {Q : Pairs → α → α → Prop}

theorem bind {f f' : α → Emit β} {R : Pairs → β → β → Prop} (hx : Tied g K x y Q)
    (hf : ∀ K' a b, K ⊆ K' → Q K' a b → Tied g K' (f a) (f' b) R) :
    Tied g K (x >>= f) (y >>= f') R := by
  intro d d' c c' e e' hd hK h h'
  obtain ⟨a, u, hx₁, hf₁⟩ := yields_bind.1 h
  obtain ⟨b, u', hx₂, hf₂⟩ := yields_bind.1 h'
  obtain ⟨hu, hsub, hq⟩ := hx hd hK hx₁ hx₂
  obtain ⟨he, hsub', hr⟩ := hf _ a b (List.Subset.trans hK hsub) hq hu (List.Subset.refl _) hf₁ hf₂
  exact ⟨he, List.Subset.trans hsub hsub', hr⟩

theorem pure {a b : α} (h : ∀ K', K ⊆ K' → Q K' a b) : Tied g K (pure a) (pure b) Q := by
  intro d d' _ _ e e' hd hK h₁ h₂
  obtain ⟨rfl, rfl⟩ := yields_pure.1 h₁
  obtain ⟨rfl, rfl⟩ := yields_pure.1 h₂
  exact ⟨hd, List.Subset.refl _, h _ hK⟩

theorem of_fails (h : ∀ d a e, ¬ x.Yields d a e) : Tied g K x y Q :=
  fun _ _ _ _ _ _ _ _ h₁ _ => absurd h₁ (h _ _ _)

theorem reads_bind {f f' : α → Emit β} {S : Pairs → β → β → Prop} {P R : α → Prop}
    (hx : ∀ d a e, x.Yields d a e → P a ∧ d = e) (hy : ∀ d a e, y.Yields d a e → R a ∧ d = e)
    (hf : ∀ a b, P a → R b → Tied g K (f a) (f' b) S) : Tied g K (x >>= f) (y >>= f') S := by
  intro d d' c c' e e' hd hK h h'
  obtain ⟨a, u, hx₁, hf₁⟩ := yields_bind.1 h
  obtain ⟨b, u', hx₂, hf₂⟩ := yields_bind.1 h'
  obtain ⟨ha, rfl⟩ := hx _ _ _ hx₁
  obtain ⟨hb, rfl⟩ := hy _ _ _ hx₂
  exact hf a b ha hb hd hK hf₁ hf₂

theorem ite {c : Prop} [Decidable c] {x' y' : Emit α} (h : c → Tied g K x y Q)
    (h' : ¬ c → Tied g K x' y' Q) : Tied g K (if c then x else x') (if c then y else y') Q := by
  by_cases hc : c
  · rw [if_pos hc, if_pos hc]
    exact h hc
  · rw [if_neg hc, if_neg hc]
    exact h' hc

theorem ite_bind {c : Prop} [Decidable c] {x' y' : Emit α} {f f' : α → Emit β}
    {R : Pairs → β → β → Prop} (h : Tied g K (if c then x else x') (if c then y else y') Q)
    (hf : ∀ K' a b, K ⊆ K' → Q K' a b → Tied g K' (f a) (f' b) R) :
    Tied g K (if c then x >>= f else x' >>= f) (if c then y >>= f' else y' >>= f') R := by
  by_cases hc : c
  · rw [if_pos hc, if_pos hc] at h ⊢
    exact h.bind hf
  · rw [if_neg hc, if_neg hc] at h ⊢
    exact h.bind hf

end Tied

section

variable {g : Circuit.Graph} {d d' : Draft} {K : Pairs}

theorem SameTable.mono {K' : Pairs} {t t' : FoldedTable} (h : SameTable K t t') (hK : K ⊆ K') :
    SameTable K' t t' :=
  ⟨h.spec, h.rows, h.row.mono hK⟩

theorem SameBlock.mono {K' : Pairs} {b b' : Block} (h : SameBlock K b b') (hK : K ⊆ K') :
    SameBlock K' b b' :=
  ⟨h.op, h.steps.mono hK⟩

theorem SameDraft.place [Platform] (h : SameDraft g d d') {c c' : Allocation} (hc : Twin c c')
    {bind : Allocator → Allocation → Allocator} (hbind : Allocator.Binder c.kind bind)
    (hs : c.kind = .tensor → ∀ t, g.tensor? c.name = some t → c.size = Shape.volume t.shape)
    (n : Nat) (j j' : List Event) :
    let e : Draft := { d with
      allocator := bind (({ d.allocator with scratchCount := n } : Allocator).push c) c,
      journal := j }
    let e' : Draft := { d' with
      allocator := bind (({ d'.allocator with scratchCount := n } : Allocator).push c') c',
      journal := j' }
    SameDraft g e e' ∧ pairsOf d d' ⊆ pairsOf e e' ∧ (c, c') ∈ pairsOf e e' := by
  intro e e'
  have hgrow := Allocator.Grows.of_binder (a := d.allocator) hbind n
  have hgrow' := Allocator.Grows.of_binder (a := d'.allocator) (hc.kind ▸ hbind) n
  have hpairs : pairsOf e e' = pairsOf d d' ++ [(c, c')] := by
    rw [pairsOf, hgrow.allocations, hgrow'.allocations]
    exact List.zip_append h.allocations.length_eq
  have hsub : pairsOf d d' ⊆ pairsOf e e' := by
    rw [hpairs]
    exact List.subset_append_left _ _
  have hmem : (c, c') ∈ pairsOf e e' := by simp [hpairs]
  have hcount (a : Allocator) (b : Allocation) :
      (bind (({ a with scratchCount := n } : Allocator).push b) b).scratchCount = n :=
    (hbind.same _ b).2.2.2.2.2
  refine ⟨⟨?_, (hcount _ c').trans (hcount _ c).symm, hgrow.coherent h.coherent, ?_, ?_, ?_,
    h.folded, ?_, ?_⟩, hsub, hmem⟩
  · rw [hgrow.allocations, hgrow'.allocations]
    exact List.rel_append h.allocations (.cons hc .nil)
  · intro kind name
    obtain ⟨takes, hb⟩ := hbind.bound
    rw [hb _ c kind name rfl, hb _ c' kind name hc.kind, hc.name]
    split
    · exact .inr ⟨(c, c'), hmem, rfl, rfl⟩
    · refine (h.bound kind name).imp ?_ ?_
      · exact fun hnone => by cases kind <;> exact hnone
      · rintro ⟨q, hq, hfound⟩
        exact ⟨q, hsub hq, by cases kind <;> exact hfound⟩
  · intro b hb hk
    rw [hgrow.allocations] at hb
    rcases List.mem_append.1 hb with hb | hb
    · exact h.sized b hb hk
    · obtain rfl := List.mem_singleton.1 hb
      exact hs hk
  · exact h.tables.imp fun _ _ ht => ht.mono hsub
  · exact h.blocks.imp fun _ _ hb => hb.mono hsub
  · exact h.current.mono hsub

theorem place_tied [Platform] (hd : SameDraft g d d') {n n' : Nat} (hn : n' = n) {r r' : Region}
    {size : Int} {name : String} {kind : BlockKind} {bind : Allocator → Allocation → Allocator}
    (hbind : Allocator.Binder kind bind) {x x' : Address} {a a' : Allocator} (j j' : List Event)
    (hs : kind = .tensor → ∀ t, g.tensor? name = some t → size = Shape.volume t.shape)
    (h : ({ d.allocator with scratchCount := n } : Allocator).place r size name kind bind
      = (.ok x, a))
    (h' : ({ d'.allocator with scratchCount := n' } : Allocator).place r' size name kind bind
      = (.ok x', a')) :
    let e : Draft := { d with allocator := a, journal := j }
    let e' : Draft := { d' with allocator := a', journal := j' }
    SameDraft g e e' ∧ pairsOf d d' ⊆ pairsOf e e' ∧
      SameRow (pairsOf e e') size.toNat x.absolute x'.absolute := by
  subst hn
  obtain ⟨-, rfl, rfl⟩ := Allocator.place_eq_ok h
  obtain ⟨-, rfl, rfl⟩ := Allocator.place_eq_ok h'
  have hc : Twin (d.allocator.next r size name kind) (d'.allocator.next r' size name kind) :=
    ⟨rfl, rfl, rfl⟩
  obtain ⟨he, hsub, hmem⟩ := hd.place hc hbind hs n' j j'
  refine ⟨he, hsub, ?_⟩
  intro i hi
  exact ⟨_, hmem, i, by dsimp only [Allocator.next]; omega, rfl, rfl⟩

theorem request_scratch_tied [Platform] {name : String} {size : Int} {r : Region} {kind : BlockKind}
    (hk : kind ≠ .tensor) :
    Tied g K (Emit.request (·.scratch name size r kind)) (Emit.request (·.scratch name size r kind))
      fun K x y => SameRow K size.toNat x.absolute y.absolute := by
  intro d d' x y e e' hd _ h h'
  obtain ⟨a, ha, rfl⟩ := Emit.yields_request h
  obtain ⟨a', ha', rfl⟩ := Emit.yields_request h'
  rw [Allocator.scratch] at ha ha'
  dsimp only at ha ha'
  rw [hd.count] at ha'
  exact place_tied hd rfl .unbound _ _ (fun h => absurd h hk) ha ha'

theorem scratch_tied [Platform] {o : Circuit.Operation} {purpose : String} {size : Int} :
    Tied g K (Emit.scratch o purpose size) (Emit.scratch o purpose size) fun K x y =>
      SameRow K size.toNat x y := by
  apply Tied.reads_bind (P := fun _ => True) (R := fun _ => True)
  · simp
  · simp
  intro _ _ _ _
  apply (request_scratch_tied (by simp)).bind
  intro K' x y _ hxy
  exact .pure fun K'' hK => hxy.mono hK

theorem allocate_found {a : Allocator} {t : Circuit.Tensor} {b : Allocation}
    (h : a.bound? .tensor t.id = some b) : a.allocate t = (.ok b.address, a) := by
  simp [Allocator.allocate, Allocator.allocateSized, Allocator.lookup?, h]

theorem allocate_new {a : Allocator} {t : Circuit.Tensor} {n : Int}
    (h : a.bound? .tensor t.id = none) (hn : t.size? = .ok n) :
    a.allocate t = a.place (a.regionOf t.id t.visibility) n t.id .tensor Allocator.bindTensor := by
  simp [Except.toOption, Allocator.allocate, Allocator.allocateSized, Allocator.lookup?, h, hn]

theorem tensor_tied [Platform] (hg : g.Measured) {id : String} (hid : id ∈ g.required)
    {t t' : Circuit.Tensor} (ht : g.tensor? id = some t) (hv : t'.veiled = t.veiled) :
    Tied g K (Emit.tensor t) (Emit.tensor t') fun K x y =>
      SameRow K (Shape.volume t.shape) x.absolute y.absolute := by
  intro d d' x y e e' hd _ h h'
  obtain ⟨a, ha, rfl⟩ := Emit.yields_request h
  obtain ⟨a', ha', rfl⟩ := Emit.yields_request h'
  obtain rfl := Circuit.Graph.tensor_id ht
  have hn : t'.id = t.id := congrArg (·.id) hv
  have hsize := hg.size_eq hid ht
  have hsize' : t'.size? = .ok (Shape.volume t.shape : Int) :=
    (congrArg (·.size?) hv).trans hsize
  rcases hd.bound .tensor t.id with ⟨hf, hf'⟩ | ⟨q, hq, hf, hf'⟩
  · rw [allocate_new hf hsize] at ha
    rw [allocate_new (by rw [hn]; exact hf') hsize', hn] at ha'
    have hs : BlockKind.tensor = .tensor → ∀ u, g.tensor? t.id = some u →
        (Shape.volume t.shape : Int) = Shape.volume u.shape := by
      intro _ u hu
      rw [Option.some.inj (hu.symm.trans ht)]
    exact place_tied hd hd.count .tensor _ _ hs ha ha'
  · rw [allocate_found hf] at ha
    rw [allocate_found (by rw [hn]; exact hf')] at ha'
    obtain ⟨hx, rfl⟩ := Prod.mk.inj ha
    obtain ⟨hy, rfl⟩ := Prod.mk.inj ha'
    obtain rfl := Except.ok.inj hx
    obtain rfl := Except.ok.inj hy
    simp only [List.drop_length, List.map_nil, List.append_nil]
    refine ⟨hd, List.Subset.refl _, sameRow_block hq ?_⟩
    obtain ⟨hm, hk, hname⟩ := hd.coherent.bound_mem hf
    exact hd.sized q.1 hm hk t (hname ▸ ht)

theorem table_tied [Platform] {s : Table.Spec} :
    Tied g K (Emit.table s) (Emit.table s) fun K t t' =>
      Table.fold s = .ok t.rows.toList ∧ SameTable K t t' := by
  intro d d' t t' e e' hd hK h h'
  rw [Emit.table] at h h'
  simp only [yields_bind, yields_get] at h h'
  obtain ⟨_, _, ⟨rfl, rfl⟩, h⟩ := h
  obtain ⟨_, _, ⟨rfl, rfl⟩, h'⟩ := h'
  rcases Sequences.find?_forall₂ hd.tables (p := fun t => t.spec.same s)
    (q := fun t => t.spec.same s) (fun t t' ht => by rw [ht.spec]) with
    ⟨hf, hf'⟩ | ⟨q, hq, hsame, hf, hf'⟩
  · rw [hf] at h
    rw [hf'] at h'
    simp only [yields_bind, yields_ofExcept, yields_modify,
      yields_checkWritten, Emit.note, yields_pure] at h h'
    obtain ⟨rows, _, ⟨hr, rfl⟩, x, u, h, _, _, rfl, _, _, ⟨-, rfl⟩, _, _, rfl, rfl, rfl⟩ := h
    obtain ⟨rows', _, ⟨hr', rfl⟩, x', u', h', _, _, rfl, _, _, ⟨-, rfl⟩, _, _, rfl, rfl, rfl⟩ := h'
    obtain rfl := Except.ok.inj (hr.symm.trans hr')
    obtain ⟨hu, hsub, hrow⟩ := request_scratch_tied (g := g) (by simp) hd hK h h'
    have hrow : SameRow (pairsOf u u') (2 * rows.toArray.size) x.absolute x'.absolute := by
      intro i hi
      rw [List.size_toArray] at hi
      exact hrow i (by omega)
    have hsame : SameTable (pairsOf u u') ⟨s, x, rows.toArray⟩ ⟨s, x', rows.toArray⟩ :=
      ⟨rfl, rfl, hrow⟩
    refine ⟨⟨hu.allocations, hu.count, hu.coherent, hu.bound, hu.sized, ?_, ?_, hu.blocks,
      hu.current⟩, hsub, by simpa using hr, hsame⟩
    · exact List.rel_append hu.tables (.cons hsame .nil)
    · intro t ht
      rcases List.mem_append.1 ht with ht | ht
      · exact hu.folded t ht
      · obtain rfl := List.mem_singleton.1 ht
        simpa using hr
  · rw [hf] at h
    rw [hf'] at h'
    obtain ⟨rfl, rfl⟩ := yields_pure.1 h
    obtain ⟨rfl, rfl⟩ := yields_pure.1 h'
    refine ⟨hd, List.Subset.refl _, ?_, hsame⟩
    have hs := List.find?_some hf
    rw [← Table.fold_eq_of_same hs]
    exact hd.folded q.1 (List.mem_of_find?_eq_some hf)

theorem note_tied [Platform] {ev ev' : Event} :
    Tied g K (Emit.note ev) (Emit.note ev') fun _ _ _ => True := by
  intro d d' _ _ e e' hd _ h h'
  obtain rfl := yields_modify.1 h
  obtain rfl := yields_modify.1 h'
  exact ⟨⟨hd.allocations, hd.count, hd.coherent, hd.bound, hd.sized, hd.tables, hd.folded,
    hd.blocks, hd.current⟩, List.Subset.refl _, trivial⟩

theorem steps_tied [Platform] {o : Circuit.Operation} {ss ss' : List Step}
    (h : SameSteps K ss ss') :
    Tied g K (Emit.steps o ss) (Emit.steps o ss') fun _ _ _ => True := by
  refine Tied.bind (Q := fun _ _ _ => True) ?_ fun _ _ _ _ _ => note_tied
  intro d d' _ _ e e' hd hK h₁ h₂
  obtain rfl := yields_modify.1 h₁
  obtain rfl := yields_modify.1 h₂
  exact ⟨⟨hd.allocations, hd.count, hd.coherent, hd.bound, hd.sized, hd.tables, hd.folded,
    hd.blocks, List.rel_append hd.current (h.mono hK)⟩, List.Subset.refl _, trivial⟩

theorem commented_tied [Platform] {o : Circuit.Operation} {ns ns' : List Int} {ss ss' : List Step}
    (h : SameSteps K ss ss') :
    Tied g K (Emit.commented o ns ss) (Emit.commented o ns' ss') fun _ _ _ => True := by
  have he : ss'.isEmpty = ss.isEmpty := by cases h <;> rfl
  rw [Emit.commented, Emit.commented, he]
  apply Tied.ite
  · intro _
    apply Tied.reads_bind (P := fun _ => True) (R := fun _ => True) (by simp) (by simp)
    exact fun _ _ _ _ => steps_tied h
  · exact fun _ => steps_tied h

theorem breakOff_tied [Platform] {o : Circuit.Operation} {t t' : Target} {ss ss' : List Step}
    (ht : t.isWritten = false) (ht' : t'.isWritten = false) :
    Tied g K (breakOff o t ss) (breakOff o t' ss') fun _ _ _ => True := by
  intro d d' _ _ e e' hd hK h h'
  exact commented_tied .nil hd hK (breakOff_yields ht h).2 (breakOff_yields ht' h').2

theorem settle_tied [Platform] {o : Circuit.Operation} {t t' : Target}
    {start start' ss ss' : List Step} (ht : t'.isWritten = t.isWritten) (h : SameSteps K ss ss') :
    Tied g K (if t.isWritten then Emit.commented o [] ss else breakOff o t start)
      (if t'.isWritten then Emit.commented o [] ss' else breakOff o t' start')
      fun _ _ _ => True := by
  rw [ht]
  apply Tied.ite
  · exact fun _ => commented_tied h
  · intro hw
    rw [Bool.not_eq_true] at hw
    exact breakOff_tied hw (ht.trans hw)

theorem rescaled_tied [Platform] {o : Circuit.Operation} {a a' : Operand} (ha : SameOperand K a a')
    {target : Int} {purpose : String} :
    Tied g K (rescaled o a target purpose) (rescaled o a' target purpose) fun K b b' =>
      SameOperand K b b' ∧ b.tensor = a.tensor := by
  rw [rescaled, rescaled, ha.scale]
  apply Tied.ite
  · exact fun _ => .pure fun K' hK => ⟨ha.mono hK, rfl⟩
  intro _
  have hsize' : a'.tensor.size? = .ok (Shape.volume a.shape : Int) :=
    (congrArg (·.size?) ha.tensor).trans ha.size
  refine Tied.reads_bind (P := fun n => n = Shape.volume a.shape)
    (R := fun n => n = Shape.volume a.shape) (by simp [ha.size, eq_comm])
    (by simp [hsize', eq_comm]) ?_
  rintro _ _ rfl rfl
  apply scratch_tied.bind
  intro K' x y hK hrow
  have hsteps := requantSteps_same (o := o) (ha.mono hK) target hrow
  have hcopy : SameOperand K' ⟨a.tensor, x, target⟩ ⟨a'.tensor, y, target⟩ :=
    ⟨ha.tensor, rfl, ha.size, hrow⟩
  rw [Int.toNat_natCast]
  generalize requantSteps o a target x _ = ss at hsteps
  generalize requantSteps o a' target y _ = ss' at hsteps
  cases hsteps with
  | nil => exact .pure fun K'' hK => ⟨hcopy.mono hK, rfl⟩
  | @cons s s' ss ss' hs hss =>
    apply Tied.reads_bind (P := fun _ => True) (R := fun _ => True) (by simp) (by simp)
    intro _ _ _ _
    have hrest {K'' : Pairs} (hK : K' ⊆ K'') :
        Tied g K'' (do
          Emit.commented o [a.scale, target] (s :: ss)
          return (⟨a.tensor, x, target⟩ : Operand))
          (do
            Emit.commented o [a.scale, target] (s' :: ss')
            return ⟨a'.tensor, y, target⟩)
          fun K b b' => SameOperand K b b' ∧ b.tensor = a.tensor := by
      apply (commented_tied (SameSteps.mono (.cons hs hss) hK)).bind
      intro L _ _ hL _
      exact .pure fun L' hL' =>
        ⟨hcopy.mono (List.Subset.trans hK (List.Subset.trans hL hL')), rfl⟩
    apply Tied.ite
    · exact fun _ => note_tied.bind fun _ _ _ hK _ => hrest hK
    · exact fun _ => hrest (List.Subset.refl _)

end

end Lowering

end TensorAsm
