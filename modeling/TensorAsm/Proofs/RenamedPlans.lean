import TensorAsm.Proofs.RenamedDrafts
/-!
Plans of renamed circuits. There is a plan for a circuit exactly when there is one under other
names, and but for the names it is the same.
-/

namespace TensorAsm.Lowering

variable {f : String → String}

def Setting.rename (f : String → String) (s : Setting) : Setting :=
  { s with graph := s.graph.rename f }

section

variable {s : Setting} {o : Circuit.Operation} (hf : Set.InjOn f s.graph.names)

include hf

theorem tensor_parallel {id : String} (hid : id ∈ s.graph.names) :
    Parallel f s.graph.names (s.tensor id) ((s.rename f).tensor (f id)) fun t u =>
      t.id ∈ s.graph.names ∧ u = t.rename f := by
  have ht : (s.rename f).graph.tensor? (f id) = (s.graph.tensor? id).map (·.rename f) :=
    Circuit.Graph.tensor?_rename hf hid
  apply Parallel.reads (fun _ _ _ => yields_tensor) (fun _ _ _ => yields_tensor)
  · intro t hfound
    rw [ht, hfound]
    refine ⟨_, rfl, ?_, rfl⟩
    rwa [Circuit.Graph.tensor_id hfound]
  · intro u hfound
    obtain ⟨t, hfound, -⟩ := Option.map_eq_some_iff.1 (ht.symm.trans hfound)
    exact ⟨t, hfound⟩

theorem place_parallel {t : Circuit.Tensor} (ht : t.id ∈ s.graph.names) :
    Parallel f s.graph.names (Emit.tensor t) (Emit.tensor (t.rename f)) Eq :=
  request_parallel fun _ _ h => h.allocate hf ht

theorem operand_parallel {id : String} (hid : id ∈ s.graph.names) :
    Parallel f s.graph.names (s.operand id) ((s.rename f).operand (f id)) fun a b =>
      b = a.rename f := by
  apply (tensor_parallel hf hid).bind
  rintro t _ ⟨ht, rfl⟩
  apply (place_parallel hf ht).bind
  rintro x _ rfl
  exact .pure rfl

variable (ho : o.output ∈ s.graph.names)

include ho

theorem output_parallel :
    Parallel f s.graph.names (s.output o) ((s.rename f).output (o.rename f)) Eq := by
  apply (tensor_parallel hf ho).bind
  rintro t _ ⟨ht, rfl⟩
  apply (place_parallel hf ht).bind
  rintro x _ rfl
  exact .pure rfl

theorem checkOutput_parallel (operands : List (List Nat)) (expected : List Nat) :
    Parallel f s.graph.names (s.checkOutput o operands expected)
      ((s.rename f).checkOutput (o.rename f) operands expected) Done := by
  apply (tensor_parallel hf ho).bind
  rintro t _ ⟨-, rfl⟩
  apply Parallel.ite
  · exact fun _ => .of_fails (by simp) (by simp)
  · exact fun _ => .pure trivial

theorem lowerReduction_parallel (shape : List Nat) (terms : List (List Term)) (natural : Int) :
    Parallel f s.graph.names (lowerReduction s o shape terms natural)
      (lowerReduction (s.rename f) (o.rename f) shape terms natural) Done := by
  cases terms with
  | nil =>
    apply (output_parallel hf ho).bind
    exact fun _ _ _ => .pure trivial
  | cons first more =>
    rw [lowerReduction, lowerReduction]
    apply Parallel.ite
    · exact fun _ => .of_fails (by simp) (by simp)
    intro _
    apply (output_parallel hf ho).bind
    rintro output _ rfl
    refine Parallel.ite_bind (Q := Eq) ?_ ?_
    · exact .ite (fun _ => scratch_parallel _ _) fun _ => .pure rfl
    rintro partials _ rfl
    refine Parallel.ite_bind (Q := Eq) ?_ ?_
    · exact .ite (fun _ => .pure rfl) fun _ => scratch_parallel _ _
    rintro landing _ rfl
    exact settle_parallel _ (elements_bare o _ _ _ _) (reductionStart_bare o _ _ _)

theorem scalarShape_parallel (operands : List (List Nat)) :
    Parallel f s.graph.names (scalarShape s o operands)
      (scalarShape (s.rename f) (o.rename f) operands) Eq := by
  apply (tensor_parallel hf ho).bind
  rintro t _ ⟨-, rfl⟩
  apply Parallel.ite
  · exact fun _ => .pure rfl
  · exact fun _ => .of_fails (by simp) (by simp)

theorem convolution_parallel [Platform] (c : Window) (operands : List (List Nat)) (x w : Operand)
    (bias : Option Operand) (natural : Int) :
    Parallel f s.graph.names
      (do
        s.checkOutput o operands c.outShape
        checkWindow c
        lowerReduction s o c.outShape (c.terms s.zero x w bias) natural)
      (do
        (s.rename f).checkOutput (o.rename f) operands c.outShape
        checkWindow c
        lowerReduction (s.rename f) (o.rename f) c.outShape (c.terms s.zero x w bias) natural)
      Done := by
  apply (checkOutput_parallel hf ho _ _).bind
  intro _ _ _
  apply (checkWindow_parallel c).bind
  rintro _ _ rfl
  exact lowerReduction_parallel hf ho _ _ _

theorem linear_parallel [Platform] (op : Arithmetic) (shape : List Nat) (a b : Operand) :
    Parallel f s.graph.names
      (do
        let a ← rescaled o a o.scale "lhs"
        let b ← rescaled o b o.scale "rhs"
        let output ← s.output o
        checkCountable shape
        Emit.commented o [] (binarySteps o op a b shape ⟨output, output, o.scale, o.scale⟩))
      (do
        let a ← rescaled (o.rename f) (a.rename f) o.scale "lhs"
        let b ← rescaled (o.rename f) (b.rename f) o.scale "rhs"
        let output ← (s.rename f).output (o.rename f)
        checkCountable shape
        Emit.commented (o.rename f) []
          (binarySteps (o.rename f) op a b shape ⟨output, output, o.scale, o.scale⟩)) Done := by
  apply (rescaled_parallel a o.scale "lhs").bind
  rintro a _ rfl
  apply (rescaled_parallel b o.scale "rhs").bind
  rintro b _ rfl
  apply (output_parallel hf ho).bind
  rintro output _ rfl
  apply (checkCountable_parallel shape).bind
  rintro _ _ rfl
  exact commented_parallel [] (binarySteps_bare o a b op shape _)

variable (hi : ∀ id ∈ o.inputs, id ∈ s.graph.names)

include hi

theorem lowerUnary_parallel [Platform] (negate : Bool) :
    Parallel f s.graph.names (lowerUnary s o negate)
      (lowerUnary (s.rename f) (o.rename f) negate) Done := by
  rw [lowerUnary, lowerUnary, Circuit.Operation.rename_inputs]
  rcases hl : o.inputs with _ | ⟨ia, _ | ⟨ib, rest⟩⟩
  · exact .of_fails (by simp) (by simp)
  · apply (operand_parallel hf (hi ia (by simp [hl]))).bind
    rintro a _ rfl
    apply (checkOutput_parallel hf ho _ _).bind
    intro _ _ _
    apply (rescaled_parallel a o.scale "src").bind
    rintro b _ rfl
    apply (output_parallel hf ho).bind
    rintro output _ rfl
    apply (size_parallel b.tensor).bind
    rintro n _ rfl
    exact commented_parallel [] (unarySteps_bare o b negate s.zero output n.toNat)
  · exact .of_fails (by simp) (by simp)

theorem lowerLookup_parallel [Platform] :
    Parallel f s.graph.names (lowerLookup s o) (lowerLookup (s.rename f) (o.rename f)) Done := by
  rw [lowerLookup, lowerLookup, Circuit.Operation.rename_inputs]
  rcases hl : o.inputs with _ | ⟨ia, _ | ⟨ib, rest⟩⟩
  · exact .of_fails (by simp) (by simp)
  · apply (operand_parallel hf (hi ia (by simp [hl]))).bind
    rintro a _ rfl
    apply (checkOutput_parallel hf ho _ _).bind
    intro _ _ _
    apply (Parallel.ofExcept (Table.specFor o a.scale s.lookupBits)).bind
    rintro spec _ rfl
    apply (table_parallel spec).bind
    rintro t _ rfl
    apply (output_parallel hf ho).bind
    rintro output _ rfl
    apply (size_parallel a.tensor).bind
    rintro n _ rfl
    exact commented_parallel [] (lookupSteps_bare o a _ _ _ _)
  · exact .of_fails (by simp) (by simp)

theorem lowerRescale_parallel [Platform] :
    Parallel f s.graph.names (lowerRescale s o) (lowerRescale (s.rename f) (o.rename f)) Done := by
  rw [lowerRescale, lowerRescale, Circuit.Operation.rename_inputs]
  rcases hl : o.inputs with _ | ⟨ia, _ | ⟨ib, rest⟩⟩
  · exact .of_fails (by simp) (by simp)
  · apply (operand_parallel hf (hi ia (by simp [hl]))).bind
    rintro a _ rfl
    apply (checkOutput_parallel hf ho _ _).bind
    intro _ _ _
    obtain ⟨bounds, hb⟩ := clampBounds_read o
    have hb' : clampBounds (o.rename f) = MonadExcept.ofExcept bounds := hb
    rw [hb, hb']
    apply (Parallel.ofExcept bounds).bind
    rintro bounds _ rfl
    apply (output_parallel hf ho).bind
    rintro output _ rfl
    apply (size_parallel a.tensor).bind
    rintro n _ rfl
    cases bounds with
    | none => exact commented_parallel _ (rescaleSteps_bare o a output n.toNat)
    | some b =>
      apply (rescaled_parallel a o.scale "shifted").bind
      rintro c _ rfl
      exact commented_parallel [] (clampSteps_bare o c b.1 b.2 output n.toNat)
  · exact .of_fails (by simp) (by simp)

theorem lowerMatmul_parallel [Platform] :
    Parallel f s.graph.names (lowerMatmul s o) (lowerMatmul (s.rename f) (o.rename f)) Done := by
  rw [lowerMatmul, lowerMatmul, Circuit.Operation.rename_inputs]
  rcases hl : o.inputs with _ | ⟨ia, _ | ⟨ib, _ | ⟨ic, rest⟩⟩⟩
  · exact .of_fails (by simp) (by simp)
  · exact .of_fails (by simp) (by simp)
  · apply (operand_parallel hf (hi ia (by simp [hl]))).bind
    rintro a _ rfl
    apply (operand_parallel hf (hi ib (by simp [hl]))).bind
    rintro b _ rfl
    apply (tensor_parallel hf ho).bind
    rintro t _ ⟨-, rfl⟩
    rw [a.rename_shape, b.rename_shape]
    cases product? a.shape b.shape with
    | none => exact .of_fails (by simp) (by simp)
    | some q =>
      apply (checkOutput_parallel hf ho _ _).bind
      intro _ _ _
      apply (checkCountable_parallel _).bind
      rintro _ _ rfl
      exact lowerReduction_parallel hf ho _ _ _
  · exact .of_fails (by simp) (by simp)

theorem lowerDot_parallel :
    Parallel f s.graph.names (lowerDot s o) (lowerDot (s.rename f) (o.rename f)) Done := by
  rw [lowerDot, lowerDot, Circuit.Operation.rename_inputs]
  rcases hl : o.inputs with _ | ⟨ia, _ | ⟨ib, _ | ⟨ic, rest⟩⟩⟩
  · exact .of_fails (by simp) (by simp)
  · exact .of_fails (by simp) (by simp)
  · apply (operand_parallel hf (hi ia (by simp [hl]))).bind
    rintro a _ rfl
    apply (operand_parallel hf (hi ib (by simp [hl]))).bind
    rintro b _ rfl
    apply Parallel.ite
    · exact fun _ => .of_fails (by simp) (by simp)
    intro _
    apply (scalarShape_parallel hf ho _).bind
    rintro shape _ rfl
    apply (size_parallel a.tensor).bind
    rintro n _ rfl
    exact lowerReduction_parallel hf ho _ _ _
  · exact .of_fails (by simp) (by simp)

theorem lowerSum_parallel [Platform] :
    Parallel f s.graph.names (lowerSum s o) (lowerSum (s.rename f) (o.rename f)) Done := by
  rw [lowerSum, lowerSum, Circuit.Operation.rename_inputs]
  rcases hl : o.inputs with _ | ⟨ia, _ | ⟨ib, rest⟩⟩
  · exact .of_fails (by simp) (by simp)
  · apply (operand_parallel hf (hi ia (by simp [hl]))).bind
    rintro a _ rfl
    apply (scalarShape_parallel hf ho _).bind
    rintro shape _ rfl
    apply (size_parallel a.tensor).bind
    rintro n _ rfl
    apply Parallel.ite
    · intro _
      apply (checkAxes_parallel _).bind
      exact fun _ _ _ => lowerReduction_parallel hf ho _ _ _
    · exact fun _ => lowerReduction_parallel hf ho _ _ _
  · exact .of_fails (by simp) (by simp)

theorem lowerConv_parallel [Platform] :
    Parallel f s.graph.names (lowerConv s o) (lowerConv (s.rename f) (o.rename f)) Done := by
  rw [lowerConv, lowerConv, Circuit.Operation.rename_inputs]
  rcases hl : o.inputs with _ | ⟨ix, _ | ⟨iw, others⟩⟩
  · exact .of_fails (by simp) (by simp)
  · exact .of_fails (by simp) (by simp)
  rw [List.map_cons, List.map_cons]
  dsimp only
  rw [List.length_map]
  apply Parallel.ite
  · exact fun _ => .fails_bind (by simp) (by simp)
  intro _
  apply (operand_parallel hf (hi ix (by simp [hl]))).bind
  rintro x _ rfl
  apply (operand_parallel hf (hi iw (by simp [hl]))).bind
  rintro w _ rfl
  apply (tensor_parallel hf ho).bind
  rintro t _ ⟨-, rfl⟩
  apply Parallel.ite
  · exact fun _ => .fails_bind (by simp) (by simp)
  intro _
  apply (convPair_parallel "stride" 1).bind
  rintro stride _ rfl
  apply (convPair_parallel "padding" 0).bind
  rintro pad _ rfl
  apply Parallel.ite
  · exact fun _ => .fails_bind (by simp) (by simp)
  intro _
  rw [x.rename_shape, w.rename_shape]
  cases window? x.shape w.shape stride pad with
  | none => exact .of_fails (by simp) (by simp)
  | some c =>
    apply Parallel.ite
    · exact fun _ => .fails_bind (by simp) (by simp)
    intro _
    cases others with
    | nil => exact convolution_parallel hf ho c _ x w none _
    | cons ib rest =>
      apply (operand_parallel hf (hi ib (by simp [hl]))).bind
      rintro b _ rfl
      apply Parallel.ite
      · exact fun _ => .fails_bind (by simp) (by simp)
      intro _
      apply (rescaled_parallel b _ "bias").bind
      rintro e _ rfl
      exact convolution_parallel hf ho c _ x w (some e) _

theorem lowerBinary_parallel [Platform] (op : Arithmetic) :
    Parallel f s.graph.names (lowerBinary s o op)
      (lowerBinary (s.rename f) (o.rename f) op) Done := by
  rw [lowerBinary, lowerBinary, Circuit.Operation.rename_inputs]
  rcases hl : o.inputs with _ | ⟨ia, _ | ⟨ib, _ | ⟨ic, rest⟩⟩⟩
  · exact .of_fails (by simp) (by simp)
  · exact .of_fails (by simp) (by simp)
  · apply (operand_parallel hf (hi ia (by simp [hl]))).bind
    rintro a _ rfl
    apply (operand_parallel hf (hi ib (by simp [hl]))).bind
    rintro b _ rfl
    apply (tensor_parallel hf ho).bind
    rintro t _ ⟨-, rfl⟩
    apply (checkAxes_parallel a.shape).bind
    rintro _ _ rfl
    apply (checkAxes_parallel b.shape).bind
    rintro _ _ rfl
    rw [a.rename_shape, b.rename_shape]
    cases Shape.broadcast? a.shape b.shape with
    | none => exact .of_fails (by simp) (by simp)
    | some shape =>
      apply (checkOutput_parallel hf ho _ _).bind
      intro _ _ _
      cases op with
      | mul =>
        apply (output_parallel hf ho).bind
        rintro output _ rfl
        apply Parallel.ite
        · intro _
          apply (Parallel.pure (Q := Eq) rfl).bind
          rintro landing _ rfl
          exact product_parallel shape a b _
        · intro _
          apply (size_parallel t).bind
          rintro n _ rfl
          apply (scratch_parallel "product" n).bind
          rintro landing _ rfl
          exact product_parallel shape a b _
      | add => exact linear_parallel hf ho .add shape a b
      | sub => exact linear_parallel hf ho .sub shape a b
  · exact .of_fails (by simp) (by simp)

theorem lowerKind_parallel [Platform] (kind : Circuit.Kind) :
    Parallel f s.graph.names (lowerKind s o kind)
      (lowerKind (s.rename f) (o.rename f) kind) Done := by
  cases kind with
  | add => exact lowerBinary_parallel hf ho hi .add
  | sub => exact lowerBinary_parallel hf ho hi .sub
  | mul => exact lowerBinary_parallel hf ho hi .mul
  | neg => exact lowerUnary_parallel hf ho hi true
  | identity => exact lowerUnary_parallel hf ho hi false
  | matmul => exact lowerMatmul_parallel hf ho hi
  | dot => exact lowerDot_parallel hf ho hi
  | conv => exact lowerConv_parallel hf ho hi
  | sum => exact lowerSum_parallel hf ho hi
  | relu | leakyRelu | sigmoid | tanh | piecewiseLinear => exact lowerLookup_parallel hf ho hi
  | rescale => exact lowerRescale_parallel hf ho hi

theorem lowerNode_parallel [Platform] :
    Parallel f s.graph.names (lowerNode s o) (lowerNode (s.rename f) (o.rename f)) Done := by
  have hk : (o.rename f).kind? = o.kind? := rfl
  rw [lowerNode, lowerNode, hk]
  cases o.kind? with
  | none => exact .of_fails (by simp) (by simp)
  | some kind =>
    refine Parallel.bind (Q := Done) (modify_parallel ?_) fun _ _ _ => ?_
    · exact fun d d' hd => ⟨hd.allocator, hd.tables, hd.blocks, rfl, hd.journal⟩
    apply (lowerKind_parallel hf ho hi kind).bind
    exact fun _ _ _ => finish_parallel

end

theorem forM_parallel {α β : Type} {N : Set String} {k : α → β} {xs : List α}
    {run : α → Emit Unit} {run' : β → Emit Unit}
    (h : ∀ x ∈ xs, Parallel f N (run x) (run' (k x)) Done) :
    Parallel f N (xs.forM run) ((xs.map k).forM run') Done := by
  induction xs with
  | nil => exact .pure trivial
  | cons x xs ih =>
    apply (h x (by simp)).bind
    exact fun _ _ _ => ih fun y hy => h y (by simp [hy])

variable {g : Circuit.Graph}

theorem lowerGraph_parallel [Platform] (hf : Set.InjOn f g.names) (hc : g.Consistent)
    (lookupBits : Json) :
    Parallel f g.names (lowerGraph g lookupBits) (lowerGraph (g.rename f) lookupBits) Eq := by
  obtain ⟨order, ho⟩ := Circuit.Graph.order_of_acyclic hc.nodeIds hc.acyclic
  have hops : ∀ o ∈ order, o ∈ g.operations := fun o hm =>
    (Circuit.Graph.order_perm hc.nodeIds ho).mem_iff.1 hm
  rw [lowerGraph, lowerGraph, ho, Circuit.Graph.order_rename hf hc ho]
  apply (request_parallel fun _ _ h => h.control zeroName).bind
  rintro zero _ rfl
  refine Parallel.bind (Q := Done) ?_ fun _ _ _ => ?_
  · apply forM_parallel
    intro o hm
    have hd := hc.defined o (hops o hm)
    exact lowerNode_parallel (s := ⟨g, lookupBits, zero.absolute⟩) hf (hd o.output (by simp))
      fun id hid => hd id (by simp [hid])
  refine Parallel.bind (Q := Done) ?_ fun _ _ _ => .pure rfl
  apply forM_parallel
  intro id hid
  apply (tensor_parallel (s := ⟨g, lookupBits, zero.absolute⟩) hf
    (hc.declared id (by simp [hid]))).bind
  rintro t _ ⟨ht, rfl⟩
  apply (place_parallel (s := ⟨g, lookupBits, zero.absolute⟩) hf ht).bind
  exact fun _ _ _ => .pure trivial

theorem emptyDraft_renamed (hf : Set.InjOn f g.names) (hc : g.Consistent) (layout : Layout) :
    (emptyDraft g layout).Renamed f g.names (emptyDraft (g.rename f) layout) := by
  have hcontains {ids : List String} (hids : ∀ a ∈ ids, a ∈ g.names) (id : String)
      (hid : id ∈ g.names) : (ids.map f).contains (f id) = ids.contains id := by
    rw [Bool.eq_iff_iff, List.contains_iff_mem, List.contains_iff_mem,
      Circuit.Graph.mem_map_rename hf hids hid]
  refine ⟨⟨rfl, rfl, ?_, ?_, fun _ => rfl, rfl, by simp [emptyDraft, Allocator.start],
    fun _ _ => rfl, fun _ => rfl⟩, rfl, rfl, rfl, .nil⟩
  · exact hcontains fun id hid => hc.declared id (by simp [hid])
  · exact hcontains fun id hid => hc.declared id (by simp [hid])

theorem plan_of_yields [Platform] {layout : Layout} {lookupBits : Json} {z : Int} {d : Draft}
    (h : (lowerGraph g lookupBits).Yields (emptyDraft g layout) z d) :
    plan g layout lookupBits = (.ok ⟨d.allocator, d.blocks, d.tables, z⟩, d.journal) := by
  have hrun : (lowerGraph g lookupBits).run (emptyDraft g layout) = (.ok z, d) := h
  rw [plan, hrun]
  rfl

/-- There is a plan for both circuits or for none, and then with the same blocks but for their
names, the same tables and the same instructions. -/
theorem plan_renamed [Platform] (hf : Set.InjOn f g.names) (hc : g.Consistent) (layout : Layout)
    (lookupBits : Json) :
    ((∀ p journal, plan g layout lookupBits ≠ (.ok p, journal)) ∧
      ∀ p journal, plan (g.rename f) layout lookupBits ≠ (.ok p, journal)) ∨
    ∃ (z : Int) (d d' : Draft), d.Renamed f g.names d' ∧
      plan g layout lookupBits = (.ok ⟨d.allocator, d.blocks, d.tables, z⟩, d.journal) ∧
      plan (g.rename f) layout lookupBits =
        (.ok ⟨d'.allocator, d'.blocks, d'.tables, z⟩, d'.journal) := by
  rcases lowerGraph_parallel hf hc lookupBits (emptyDraft_renamed hf hc layout) with
    ⟨hno, hno'⟩ | ⟨z, _, d, d', hz, hz', hd, rfl⟩
  · left
    constructor
    · intro p journal h
      obtain ⟨z, d, hz, -⟩ := plan_yields h
      exact hno z d hz
    · intro p journal h
      obtain ⟨z, d, hz, -⟩ := plan_yields h
      exact hno' z d hz
  · exact .inr ⟨z, d, d', hd, plan_of_yields hz, plan_of_yields hz'⟩

end TensorAsm.Lowering
