import TensorAsm.Proofs.RefinedElements
/-!
Lowering an operation beside its outline, function by function, and from there a whole circuit. A
program that is lowered with a witness is the one of its outline.
-/

namespace TensorAsm.Emitter

open Lowering
open Program (Values)

variable {s : Setting} {o : Circuit.Operation} {e : State} {d : Draft} {v : Values}

section

variable {a b : Operand} {x y : Lowering.Operand}

theorem term_eq [Platform] (ha : Carries d v a x) (hax : x.shape.length ≤ Platform.axisLimit)
    {i : Nat} (hi : i < Shape.volume x.shape) :
    ∃ t, a.term i = .ok t ∧ t.toTerm = ⟨x.cell i, none⟩ ∧ t.Stands d v := by
  have hv := ha.value_eq hax hi
  obtain rfl := ha.operand
  refine ⟨⟨⟨a.cell i, none⟩, v.cell (a.cell i), 1⟩, ?_, rfl, ?_, ?_⟩
  · rw [Operand.term, hv]
    rfl
  · intro c hc
    obtain rfl : c = a.cell i := by simpa [Lowering.Term.cells] using hc
    exact ha.cell_mem hi
  · simp [Lowering.Term.value]

theorem times_eq [Platform] (ha : Carries d v a x) (hb : Carries d v b y)
    (hax : x.shape.length ≤ Platform.axisLimit) (hby : y.shape.length ≤ Platform.axisLimit)
    {i j : Nat}
    (hi : i < Shape.volume x.shape) (hj : j < Shape.volume y.shape) :
    ∃ t, a.times i b j = .ok t ∧ t.toTerm = ⟨x.cell i, some (y.cell j)⟩ ∧ t.Stands d v := by
  have hv := ha.value_eq hax hi
  have hu := hb.value_eq hby hj
  obtain rfl := ha.operand
  obtain rfl := hb.operand
  refine ⟨⟨⟨a.cell i, some (b.cell j)⟩, v.cell (a.cell i), v.cell (b.cell j)⟩, ?_, rfl, ?_, rfl⟩
  · rw [Operand.times, hv, hu]
    rfl
  · intro c hc
    have hc : c = a.cell i ∨ c = b.cell j := by simpa [Lowering.Term.cells] using hc
    rcases hc with rfl | rfl
    exacts [ha.cell_mem hi, hb.cell_mem hj]

theorem axes_le [Platform] {shape : List Nat} (h : shape.length ≤ 4) :
    shape.length ≤ Platform.axisLimit :=
  h.trans Platform.four_le_axisLimit

theorem product_axes {x y : List Nat} {p : Nat × Nat × List Nat} (h : product? x y = some p) :
    x.length ≤ 4 ∧ y.length ≤ 4 := by
  unfold product? at h
  split at h
  · simp
  · simp
  · exact absurd h (by simp)

theorem matmulTerms_eq [Platform] (ha : Carries d v a x) (hb : Carries d v b y) {k n : Nat}
    {shape : List Nat} (hp : product? x.shape y.shape = some (k, n, shape)) :
    ∃ terms, matmulTerms a b k n shape = .ok terms ∧
      terms.map (·.map Term.toTerm) = Lowering.matmulTerms x y k n shape ∧
      ∀ ts ∈ terms, ∀ t ∈ ts, t.Stands d v := by
  obtain rfl := ha.operand
  obtain ⟨hax, hay⟩ := product_axes hp
  refine Sequences.mapM_project fun index hi => Sequences.mapM_project fun r hr => ?_
  obtain ⟨hx, hy, hfx, hfy⟩ := product_places hp hi (List.mem_range.1 hr)
  have hpx := Shape.flat_lt hx
  have hpy := Shape.flat_lt hy
  rw [hfx] at hpx
  rw [hfy] at hpy
  exact times_eq ha hb (axes_le hax) (axes_le hay) hpx hpy

theorem dotTerms_eq [Platform] (ha : Carries d v a x) (hb : Carries d v b y)
    (hs : x.shape = y.shape) (hx : x.shape.length = 1) :
    ∃ terms, (List.range (Shape.volume x.shape)).mapM (fun i => a.times i b i) = .ok terms ∧
      [terms].map (·.map Term.toTerm) = dotTerms x y (Shape.volume x.shape) ∧
      ∀ ts ∈ [terms], ∀ t ∈ ts, t.Stands d v := by
  obtain ⟨terms, hterms, hmap, hstands⟩ := Sequences.mapM_project (q := Term.Stands d v)
    fun i hi => times_eq ha hb (axes_le (by omega)) (axes_le (by rw [← hs]; omega))
      (List.mem_range.1 hi) ((List.mem_range.1 hi).trans_eq (by rw [hs]))
  exact ⟨terms, hterms, by rw [dotTerms, ← hmap]; rfl, by simpa using hstands⟩

theorem sumTerms_eq [Platform] (ha : Carries d v a x)
    (hx : 0 < Shape.volume x.shape → x.shape.length ≤ Platform.axisLimit) :
    ∃ terms, (List.range (Shape.volume x.shape)).mapM a.term = .ok terms ∧
      [terms].map (·.map Term.toTerm) = sumTerms x (Shape.volume x.shape) ∧
      ∀ ts ∈ [terms], ∀ t ∈ ts, t.Stands d v := by
  obtain ⟨terms, hterms, hmap, hstands⟩ := Sequences.mapM_project (q := Term.Stands d v)
    fun i hi => term_eq ha (hx (Nat.zero_lt_of_lt (List.mem_range.1 hi))) (List.mem_range.1 hi)
  exact ⟨terms, hterms, by rw [sumTerms, ← hmap]; rfl, by simpa using hstands⟩

theorem tap_eq [Platform] (ht : Tracks s e d v) (ha : Carries d v a x) (hb : Carries d v b y)
    {c : Window} (hx : x.shape = c.inputShape) (hy : y.shape = c.kernelShape) {index k : List Nat}
    (hi : index ∈ Shape.indices c.outShape)
    (hk : k ∈ Shape.indices [c.channels, c.kernelHeight, c.kernelWidth]) :
    ∃ t, tap c s.zero a b (index.getD 0 0) (index.getD 1 0) (index.getD 2 0) (k.getD 0 0)
        (k.getD 1 0) (k.getD 2 0) = .ok t ∧
      t.toTerm = c.tap s.zero x y (index.getD 0 0) (index.getD 1 0) (index.getD 2 0) (k.getD 0 0)
        (k.getD 1 0) (k.getD 2 0) ∧ t.Stands d v := by
  obtain ⟨hplace, hinside⟩ := tap_places hi hk
  have hax : x.shape.length ≤ Platform.axisLimit := axes_le (by simp [hx, Window.inputShape])
  have hay : y.shape.length ≤ Platform.axisLimit := axes_le (by simp [hy, Window.kernelShape])
  have hvx : Shape.volume x.shape = Shape.volume c.inputShape := by rw [hx]
  have hplace : _ < Shape.volume y.shape := hplace.trans_eq (by rw [hy])
  unfold tap Window.tap
  dsimp only
  split
  · next hin => exact times_eq ha hb hax hay ((hinside _ _ hin).trans_eq hvx.symm) hplace
  · generalize Shape.flat c.kernelShape [index.getD 0 0, k.getD 0 0, k.getD 1 0, k.getD 2 0] = place
      at hplace ⊢
    have hv := hb.value_eq hay hplace
    obtain ⟨zb, hzb, -, hz⟩ := ht.control
    refine ⟨⟨⟨s.zero, some (y.cell place)⟩, 0, v.cell (y.cell place)⟩, ?_, rfl, ?_, ?_⟩
    · rw [hv, ← hb.operand]
      rfl
    · intro c hc
      rcases List.mem_cons.1 hc with rfl | hc
      · exact ⟨zb, hzb, hz⟩
      · obtain rfl := List.mem_singleton.1 hc
        exact hb.cell_mem hplace
    · simp [Lowering.Term.value, ht.zero]

theorem windowTerms_eq [Platform] (ht : Tracks s e d v) (ha : Carries d v a x)
    (hb : Carries d v b y) {c : Window} (hx : x.shape = c.inputShape) (hy : y.shape = c.kernelShape)
    {bias : Option Operand} {bias' : Option Lowering.Operand}
    (hbias : Option.Rel (Carries d v) bias bias') (hshape : ∀ z ∈ bias', z.shape = [c.filters]) :
    ∃ terms, (Shape.indices c.outShape).mapM (windowTerms c s.zero a b bias) = .ok terms ∧
      terms.map (·.map Term.toTerm) = c.terms s.zero x y bias' ∧
      ∀ ts ∈ terms, ∀ t ∈ ts, t.Stands d v := by
  rw [Window.terms_eq]
  refine Sequences.mapM_project fun index hi => ?_
  obtain ⟨taps, htaps, hmap, hstands⟩ := Sequences.mapM_project (q := Term.Stands d v)
    fun k hk => tap_eq ht ha hb hx hy hi hk
  rw [← Window.taps_eq] at hmap
  obtain ⟨first, hfirst, hmap', hstands'⟩ : ∃ first,
      bias.toList.mapM (·.term (index.getD 0 0)) = .ok first ∧
      first.map Term.toTerm = (bias'.toList.map fun z => ⟨z.cell (index.getD 0 0), none⟩) ∧
      ∀ t ∈ first, t.Stands d v := by
    cases hbias with
    | none => exact ⟨[], rfl, rfl, by simp⟩
    | @some z z' hz =>
      have hplace : index.getD 0 0 < Shape.volume z'.shape := by
        obtain ⟨f, i, j, rfl⟩ := List.length_eq_three.1 (Shape.length_of_mem_indices hi)
        have hf := Shape.mem_indices.1 hi
        simp only [Window.outShape, List.forall₂_cons] at hf
        simpa [hshape z' rfl] using hf.1
      obtain ⟨t, ht, hto, hst⟩ := term_eq hz (axes_le (by simp [hshape z' rfl])) hplace
      refine ⟨[t], ?_, by simp [hto], by simpa using hst⟩
      rw [Option.toList_some, List.mapM_cons, ht]
      rfl
  refine ⟨first ++ taps, ?_, by rw [List.map_append, hmap', hmap], fun t htm => ?_⟩
  · obtain ⟨f, i, j, rfl⟩ := List.length_eq_three.1 (Shape.length_of_mem_indices hi)
    have hfirst : bias.toList.mapM (·.term f) = .ok first := hfirst
    have htaps : (Shape.indices [c.channels, c.kernelHeight, c.kernelWidth]).mapM (fun k =>
      tap c s.zero a b f i j (k.getD 0 0) (k.getD 1 0) (k.getD 2 0)) = .ok taps := htaps
    rw [windowTerms, hfirst, htaps]
    rfl
  · exact (List.mem_append.1 htm).elim (hstands' t) (hstands t)

end

section

variable [Platform] (ht : Tracks s e d v) (hw : s.witness.Complete s.modulus s.graph)
  (ho : o ∈ s.graph.operations)
include ht hw ho

theorem input_refines {id : String} (hi : id ∈ o.inputs) :
    Refines s e d v (operand s id) (s.toSetting.operand id) (fun a x e' d' v' =>
      (s.toSetting.operand id).Yields d x d' ∧ Carries d' v' a x ∧ Tracks s e' d' v' ∧
        Later d v d' v') true :=
  operand_refines ht hw (Circuit.Graph.input_required ho hi)

theorem lowerUnary_refines {negate : Bool} :
    Refines s e d v (lowerUnary s o negate) (Lowering.lowerUnary s.toSetting o negate)
      (fun _ _ e' d' v' => Tracks s e' d' v') false := by
  unfold lowerUnary Lowering.lowerUnary
  match hi : o.inputs with
  | [ia] =>
    refine (input_refines ht hw ho (by simp [hi])).bind ?_
    rintro a x e₁ d₁ v₁ ⟨-, hc, ht₁, -⟩
    obtain rfl := hc.operand
    refine (Neutral.checkOutput s.toSetting o _ _).refines_bind fun _ _ => ?_
    refine (rescaled_refines ht₁ hw hc).bind_continues (fun _ j =>
      continues_output.bind fun _ _ =>
        ((Neutral.size _).continues j).bind fun _ _ => continues_commented) ?_
    rintro a' x' e₂ d₂ v₂ ⟨hc', -, ht₂, -⟩
    obtain rfl := hc'.operand
    refine (output_refines ht₂ hw ho).bind ?_
    rintro output _ e₃ d₃ v₃ ⟨rfl, -, ht₃, -⟩
    refine (Neutral.size a'.tensor).refines_bind fun n _ => ?_
    exact forM_refines ht₃ (by simp [unarySteps])
  | [] | _ :: _ :: _ => exact (Neutral.wrongCount o _).refines fun _ h => absurd h (by simp)

theorem inputs_refines {ia ib : String} (hi : o.inputs = [ia, ib]) {β δ : Type}
    {k : Operand → Operand → Emitter β} {l : Lowering.Operand → Lowering.Operand → Emit δ}
    {R : β → δ → State → Draft → Values → Prop} {calm : Bool}
    (h : ∀ a b e' d' v', Carries d' v' a a.toOperand → Carries d' v' b b.toOperand →
      Tracks s e' d' v' → Refines s e' d' v' (k a b) (l a.toOperand b.toOperand) R calm) :
    Refines s e d v (operand s ia >>= fun a => operand s ib >>= fun b => k a b)
      (s.toSetting.operand ia >>= fun x => s.toSetting.operand ib >>= fun y => l x y) R calm := by
  refine (input_refines ht hw ho (by simp [hi])).bind ?_
  rintro a _ e₁ d₁ v₁ ⟨-, hca, ht₁, -⟩
  obtain rfl := hca.operand
  refine (input_refines ht₁ hw ho (by simp [hi])).bind ?_
  rintro b _ e₂ d₂ v₂ ⟨-, hcb, ht₂, hl⟩
  obtain rfl := hcb.operand
  exact h a b e₂ d₂ v₂ (hca.later hl) hcb ht₂

theorem reduced_refines {rows : List (List Term)} {terms : List (List Lowering.Term)}
    {shape : List Nat} {natural : Int} {n : Nat} (hmap : rows.map (·.map Term.toTerm) = terms)
    (hlen : ∀ ts ∈ terms, ts.length = n) (hcount : terms.length = (Shape.indices shape).length)
    (hstands : ∀ ts ∈ rows, ∀ t ∈ ts, t.Stands d v) :
    Refines s e d v (lowerReduction s o shape rows natural)
      (Lowering.lowerReduction s.toSetting o shape terms natural)
      (fun _ _ e' d' v' => Tracks s e' d' v') false := by
  subst hmap
  refine lowerReduction_refines ht hw ho (n := n) (fun ts hts => ?_) (by simpa using hcount) hstands
  simpa using hlen _ (List.mem_map_of_mem hts)

theorem lowerBinary_refines {op : Arithmetic} :
    Refines s e d v (lowerBinary s o op) (Lowering.lowerBinary s.toSetting o op)
      (fun _ _ e' d' v' => Tracks s e' d' v') false := by
  unfold lowerBinary Lowering.lowerBinary
  match hi : o.inputs with
  | [ia, ib] =>
    refine inputs_refines ht hw ho hi fun a b e d v hca hcb ht => ?_
    refine (Neutral.tensor s.toSetting o.output).refines_bind fun declared hdecl => ?_
    refine (Neutral.checkAxes a.shape).refines_bind fun _ hax => ?_
    refine (Neutral.checkAxes b.shape).refines_bind fun _ hay => ?_
    match hb : Shape.broadcast? a.shape b.shape with
    | none => exact (Neutral.mismatch o _ _ _).refines fun _ h => absurd h (by simp)
    | some shape =>
      refine (Neutral.checkOutput s.toSetting o _ _).refines_bind fun _ hout => ?_
      cases op with
      | mul =>
        refine (output_refines ht hw ho).bind ?_
        rintro output _ e₁ d₁ v₁ ⟨rfl, -, ht₁, hl₁⟩
        obtain ⟨t, htensor, hshape, -⟩ := yields_checkOutput.1 hout
        obtain rfl := Option.some.inj (htensor.symm.trans (yields_tensor.1 hdecl).1)
        have hsize := hw.measured.size_eq (Circuit.Graph.output_required ho) htensor
        dsimp only
        split
        · next hn =>
            rw [pure_bind, pure_bind]
            refine (Neutral.checkCountable shape).refines_bind fun _ _ => ?_
            exact product_refines ht₁ hl₁ hca hcb (yields_checkAxes.1 hax).1
              (yields_checkAxes.1 hay).1 hb (by simp [Target.rescales, hn])
        · refine (Neutral.size t).refines_bind fun n hn => ?_
          obtain rfl := Except.ok.inj ((yields_size.1 hn).1.symm.trans hsize)
          refine (scratch_refines ht₁ hw (Int.natCast_nonneg _)).bind ?_
          rintro landing _ e₂ d₂ v₂ ⟨rfl, -, hopen, ht₂, hl₂⟩
          refine (Neutral.checkCountable shape).refines_bind fun _ _ => ?_
          refine product_refines ht₂ (hl₁.trans hl₂) hca hcb (yields_checkAxes.1 hax).1
            (yields_checkAxes.1 hay).1 hb fun _ => ?_
          rw [← hshape]
          exact hopen.mono hl₁.allocations fun _ h => h
      | add | sub =>
        have hrest (j : List Event) {op : Arithmetic} {x y : Lowering.Operand} : (do
            let output ← s.toSetting.output o
            checkCountable shape
            Emit.commented o [] (binarySteps o op x y shape
              ⟨output, output, o.scale, o.scale⟩)).Continues j :=
          continues_output.bind fun _ _ =>
            ((Neutral.checkCountable _).continues j).bind fun _ _ => continues_commented
        refine (rescaled_refines ht hw hca).bind_continues
          (fun _ j => continues_rescaled.bind fun _ _ => hrest j) ?_
        rintro a' _ e₁ d₁ v₁ ⟨hca', -, ht₁, hl₁⟩
        obtain rfl := hca'.operand
        refine (rescaled_refines ht₁ hw (hcb.later hl₁)).bind_continues
          (fun _ j => hrest j) ?_
        rintro b' _ e₂ d₂ v₂ ⟨hcb', -, ht₂, -⟩
        obtain rfl := hcb'.operand
        refine (output_refines ht₂ hw ho).bind ?_
        rintro output _ e₃ d₃ v₃ ⟨rfl, -, ht₃, -⟩
        refine (Neutral.checkCountable shape).refines_bind fun _ _ => ?_
        exact direct_refines ht₃
  | [] | [_] | _ :: _ :: _ :: _ =>
    exact (Neutral.wrongCount o _).refines fun _ h => absurd h (by simp)

theorem lowerMatmul_refines :
    Refines s e d v (lowerMatmul s o) (Lowering.lowerMatmul s.toSetting o)
      (fun _ _ e' d' v' => Tracks s e' d' v') false := by
  unfold lowerMatmul Lowering.lowerMatmul
  match hi : o.inputs with
  | [ia, ib] =>
    refine inputs_refines ht hw ho hi fun a b e d v hca hcb ht => ?_
    refine (Neutral.tensor s.toSetting o.output).refines_bind fun declared _ => ?_
    match hp : product? a.shape b.shape with
    | none => exact (Neutral.mismatch o _ _ _).refines fun _ h => absurd h (by simp)
    | some (k, n, shape) =>
      refine (Neutral.checkOutput s.toSetting o _ _).refines_bind fun _ _ => ?_
      refine (Neutral.checkCountable shape).refines_bind fun _ _ => ?_
      obtain ⟨rows, hrows, hmap, hstands⟩ := matmulTerms_eq hca hcb hp
      rw [hrows]
      exact reduced_refines ht hw ho (n := k) hmap (by simp [Lowering.matmulTerms])
        length_matmulTerms hstands
  | [] | [_] | _ :: _ :: _ :: _ =>
    exact (Neutral.wrongCount o _).refines fun _ h => absurd h (by simp)

theorem lowerDot_refines :
    Refines s e d v (lowerDot s o) (Lowering.lowerDot s.toSetting o)
      (fun _ _ e' d' v' => Tracks s e' d' v') false := by
  unfold lowerDot Lowering.lowerDot
  match hi : o.inputs with
  | [ia, ib] =>
    refine inputs_refines ht hw ho hi fun a b e d v hca hcb ht => ?_
    dsimp only
    split
    · refine (Neutral.tensor s.toSetting o.output).refines_bind fun _ _ => ?_
      exact (Neutral.mismatch o _ _ _).refines_bind fun _ h => absurd h (by simp)
    next hs =>
    refine (Neutral.scalarShape s.toSetting o _).refines_bind fun shape hshape => ?_
    refine (Neutral.size a.tensor).refines_bind fun n hn => ?_
    obtain rfl := Except.ok.inj ((yields_size.1 hn).1.symm.trans hca.measured)
    obtain ⟨hone, hsame⟩ := not_or.1 hs
    obtain ⟨terms, hterms, hmap, hstands⟩ :=
      dotTerms_eq hca hcb (not_not.1 hsame) (not_not.1 hone)
    rw [Int.toNat_natCast, hterms]
    refine reduced_refines ht hw ho (n := Shape.volume a.shape) hmap (by simp [dotTerms]) ?_
      hstands
    rcases (scalarShape_yields hshape).2.1 with rfl | rfl <;> rfl
  | [] | [_] | _ :: _ :: _ :: _ =>
    exact (Neutral.wrongCount o _).refines fun _ h => absurd h (by simp)

theorem lowerSum_refines :
    Refines s e d v (lowerSum s o) (Lowering.lowerSum s.toSetting o)
      (fun _ _ e' d' v' => Tracks s e' d' v') false := by
  unfold lowerSum Lowering.lowerSum
  match hi : o.inputs with
  | [ia] =>
    refine (input_refines ht hw ho (by simp [hi])).bind ?_
    rintro a _ e₁ d₁ v₁ ⟨-, hc, ht₁, -⟩
    obtain rfl := hc.operand
    refine (Neutral.scalarShape s.toSetting o _).refines_bind fun shape hshape => ?_
    refine (Neutral.size a.tensor).refines_bind fun n hn => ?_
    obtain rfl := Except.ok.inj ((yields_size.1 hn).1.symm.trans hc.measured)
    rw [Int.toNat_natCast]
    dsimp only
    have hrest (hax : 0 < Shape.volume a.shape → a.shape.length ≤ Platform.axisLimit) :
        Refines s e₁ d₁ v₁
          (MonadExcept.ofExcept ((List.range (Shape.volume a.shape)).mapM a.term) >>= fun terms =>
            lowerReduction s o shape [terms] a.scale)
          (Lowering.lowerReduction s.toSetting o shape
            (sumTerms a.toOperand (Shape.volume a.shape)) a.scale)
          (fun _ _ e' d' v' => Tracks s e' d' v') false := by
      obtain ⟨terms, hterms, hmap, hstands⟩ := sumTerms_eq hc hax
      rw [hterms]
      refine reduced_refines ht₁ hw ho (n := Shape.volume a.shape) hmap (by simp [sumTerms]) ?_
        hstands
      rcases (scalarShape_yields hshape).2.1 with rfl | rfl <;> rfl
    by_cases hpos : 0 < Shape.volume a.shape
    · rw [if_pos hpos]
      by_cases hax : a.shape.length ≤ Platform.axisLimit
      · rw [show (checkAxes a.shape : Emit Unit) = pure () from if_neg (Nat.not_lt.2 hax),
          pure_bind]
        exact hrest fun _ => hax
      · -- The first element that is read, and the check of the outline, give one fault.
        obtain ⟨n, hn⟩ := Nat.exists_eq_add_of_lt hpos
        have herr : a.term 0 = .error (.tooManyAxes Platform.axisLimit a.shape.length) := by
          rw [Operand.term, hc.value_error (Nat.not_le.1 hax) hpos]
          rfl
        rw [hn, Nat.zero_add, List.range_succ_eq_map, List.mapM_cons, herr,
          show (checkAxes a.shape : Emit Unit) =
            throw (.tooManyAxes Platform.axisLimit a.shape.length) from if_pos (Nat.not_le.1 hax)]
        exact .fails (j := []) rfl (by simp) rfl rfl (by simp)
    · rw [if_neg hpos]
      exact hrest fun h => absurd h hpos
  | [] | _ :: _ :: _ => exact (Neutral.wrongCount o _).refines fun _ h => absurd h (by simp)

theorem convolved_refines {x w : Operand} {c : Window}
    (hcv : Convolves o x.toOperand w.toOperand c) (hcx : Carries d v x x.toOperand)
    (hcw : Carries d v w w.toOperand) {bias : Option Operand} {bias' : Option Lowering.Operand}
    (hbias : Option.Rel (Carries d v) bias bias') (hshape : ∀ z ∈ bias', z.shape = [c.filters])
    {shapes : List (List Nat)} {natural : Int} :
    Refines s e d v
      (do
        s.checkOutput o shapes c.outShape
        checkWindow c
        let terms ← MonadExcept.ofExcept
          ((Shape.indices c.outShape).mapM (windowTerms c s.zero x w bias))
        lowerReduction s o c.outShape terms natural)
      (do
        s.toSetting.checkOutput o shapes c.outShape
        checkWindow c
        Lowering.lowerReduction s.toSetting o c.outShape
          (c.terms s.zero x.toOperand w.toOperand bias') natural)
      (fun _ _ e' d' v' => Tracks s e' d' v') false := by
  obtain ⟨hx, hy⟩ := hcv.shapes
  refine (Neutral.checkOutput s.toSetting o _ _).refines_bind fun _ _ => ?_
  refine (Neutral.checkWindow c).refines_bind fun _ _ => ?_
  obtain ⟨rows, hrows, hmap, hstands⟩ := windowTerms_eq ht hcx hcw hx hy hbias hshape
  rw [hrows]
  have hu : Uniform (fun _ => True) c.outShape (c.terms s.zero x.toOperand w.toOperand bias') _ _ :=
    conv_uniform hcv (by simp) (by simp) trivial bias' (by simp)
  exact reduced_refines ht hw ho hmap hu.length_eq (by simp [Window.terms_eq]) hstands

theorem lowerConv_refines :
    Refines s e d v (lowerConv s o) (Lowering.lowerConv s.toSetting o)
      (fun _ _ e' d' v' => Tracks s e' d' v') false := by
  unfold lowerConv Lowering.lowerConv
  match hi : o.inputs with
  | ix :: iw :: others =>
    refine (Neutral.wrongCount o _).guard_refines (by simp) fun hcount => ?_
    refine (input_refines ht hw ho (by simp [hi])).bind ?_
    rintro x _ e₁ d₁ v₁ ⟨-, hcx, ht₁, -⟩
    obtain rfl := hcx.operand
    refine (input_refines ht₁ hw ho (by simp [hi])).bind ?_
    rintro w _ e₂ d₂ v₂ ⟨-, hcw, ht₂, hl₂⟩
    obtain rfl := hcw.operand
    replace hcx := hcx.later hl₂
    refine (Neutral.tensor s.toSetting o.output).refines_bind fun declared _ => ?_
    refine (Neutral.mismatch o _ _ _).guard_refines (by simp) fun hch => ?_
    refine (Neutral.convPair o _ _).refines_bind fun stride hst => ?_
    refine (Neutral.convPair o _ _).refines_bind fun pad hpd => ?_
    refine (Neutral.refuse _).guard_refines (by simp) fun _ => ?_
    match hc : window? x.shape w.shape stride pad with
    | none => exact (Neutral.mismatch o _ _ _).refines fun _ h => absurd h (by simp)
    | some c =>
      refine (Neutral.mismatch o _ _ _).guard_refines (by simp) fun _ => ?_
      have hcv : Convolves o x.toOperand w.toOperand c := ⟨by simpa using hch, stride, pad,
        (yields_convPair.1 hst).1, (yields_convPair.1 hpd).1, hc⟩
      cases others with
      | nil => exact convolved_refines ht₂ hw ho hcv hcx hcw .none (by simp)
      | cons ib rest =>
        refine (input_refines ht₂ hw ho (by simp [hi])).bind ?_
        rintro b _ e₃ d₃ v₃ ⟨-, hcb, ht₃, hl₃⟩
        obtain rfl := hcb.operand
        refine (Neutral.mismatch o _ _ _).guard_refines (by simp) fun hb => ?_
        refine (rescaled_refines ht₃ hw hcb).bind_continues (fun _ j =>
          ((Neutral.checkOutput _ o _ _).continues j).bind fun _ _ =>
            ((Neutral.checkWindow c).continues j).bind fun _ _ => continues_lowerReduction) ?_
        rintro b' _ e₄ d₄ v₄ ⟨hcb', hsame, ht₄, hl₄⟩
        obtain rfl := hcb'.operand
        have hshape : b'.shape = [c.filters] :=
          (congrArg Circuit.Tensor.shape hsame).trans (not_not.1 hb)
        exact convolved_refines ht₄ hw ho hcv (hcx.later (hl₃.trans hl₄))
          (hcw.later (hl₃.trans hl₄)) (.some hcb') (by simpa using hshape)
  | [] | [_] => exact (Neutral.wrongCount o _).refines fun _ h => absurd h (by simp)

theorem lowerLookup_refines :
    Refines s e d v (lowerLookup s o) (Lowering.lowerLookup s.toSetting o)
      (fun _ _ e' d' v' => Tracks s e' d' v') false := by
  unfold lowerLookup Lowering.lowerLookup
  match hi : o.inputs with
  | [ia] =>
    refine (input_refines ht hw ho (by simp [hi])).bind ?_
    rintro a _ e₁ d₁ v₁ ⟨-, hc, ht₁, -⟩
    obtain rfl := hc.operand
    refine (Neutral.checkOutput s.toSetting o _ _).refines_bind fun _ _ => ?_
    refine (Neutral.ofExcept _).refines_bind fun spec _ => ?_
    refine (table_refines ht₁ hw spec).bind ?_
    rintro t _ e₂ d₂ v₂ ⟨rfl, -, ht₂, -⟩
    refine (output_refines ht₂ hw ho).bind ?_
    rintro output _ e₃ d₃ v₃ ⟨rfl, -, ht₃, -⟩
    refine (Neutral.size a.tensor).refines_bind fun n _ => ?_
    exact forM_refines ht₃ (by simp [lookupSteps])
  | [] | _ :: _ :: _ => exact (Neutral.wrongCount o _).refines fun _ h => absurd h (by simp)

theorem lowerRescale_refines :
    Refines s e d v (lowerRescale s o) (Lowering.lowerRescale s.toSetting o)
      (fun _ _ e' d' v' => Tracks s e' d' v') false := by
  unfold lowerRescale Lowering.lowerRescale
  match hi : o.inputs with
  | [ia] =>
    refine (input_refines ht hw ho (by simp [hi])).bind ?_
    rintro a _ e₁ d₁ v₁ ⟨-, hc, ht₁, -⟩
    obtain rfl := hc.operand
    refine (Neutral.checkOutput s.toSetting o _ _).refines_bind fun _ _ => ?_
    refine (Neutral.clampBounds o).refines_bind fun bounds _ => ?_
    refine (output_refines ht₁ hw ho).bind ?_
    rintro output _ e₂ d₂ v₂ ⟨rfl, -, ht₂, hl⟩
    refine (Neutral.size a.tensor).refines_bind fun n _ => ?_
    cases bounds with
    | none => exact forM_refines ht₂ (by simp [rescaleSteps])
    | some b =>
      refine (rescaled_refines ht₂ hw (hc.later hl)).bind_continues
        (fun _ j => continues_commented) ?_
      rintro a' _ e₃ d₃ v₃ ⟨hc', -, ht₃, -⟩
      obtain rfl := hc'.operand
      exact forM_refines ht₃ (by simp [clampSteps])
  | [] | _ :: _ :: _ => exact (Neutral.wrongCount o _).refines fun _ h => absurd h (by simp)

theorem lowerKind_refines (kind : Circuit.Kind) :
    Refines s e d v (lowerKind s o kind) (Lowering.lowerKind s.toSetting o kind)
      (fun _ _ e' d' v' => Tracks s e' d' v') false := by
  cases kind <;> rw [lowerKind, Lowering.lowerKind]
  case add | sub | mul => exact lowerBinary_refines ht hw ho
  case neg | identity => exact lowerUnary_refines ht hw ho
  case matmul => exact lowerMatmul_refines ht hw ho
  case dot => exact lowerDot_refines ht hw ho
  case conv => exact lowerConv_refines ht hw ho
  case sum => exact lowerSum_refines ht hw ho
  case rescale => exact lowerRescale_refines ht hw ho
  all_goals exact lowerLookup_refines ht hw ho

end

theorem start_refines [Platform] (ht : Tracks s e d v) :
    Refines s e d v start Emit.start (fun _ _ e' d' v' => Tracks s e' d' v') true :=
  .goes (j := []) rfl (by simp) rfl rfl (by simp)
    { ht with allocator := ht.allocator, current := rfl }

theorem block_refines [Platform] (ht : Tracks s e d v) :
    Refines s e d v (finish o) (Emit.finish o) (fun _ _ e' d' v' => Tracks s e' d' v') true := by
  have hblocks : e.blocks ++ [⟨o, e.current.toList⟩] = d.blocks ++ [⟨o, d.current⟩] := by
    rw [ht.blocks, ht.current]
  refine .goes (j := [.lowered ⟨o, d.current⟩]) rfl rfl rfl rfl ?_ { ht with blocks := hblocks }
  rw [← ht.current]
  rfl

theorem lowerNode_refines [Platform] (ht : Tracks s e d v)
    (hw : s.witness.Complete s.modulus s.graph) (ho : o ∈ s.graph.operations) :
    Refines s e d v (lowerNode s o) (Lowering.lowerNode s.toSetting o)
      (fun _ _ e' d' v' => Tracks s e' d' v') false := by
  unfold lowerNode Lowering.lowerNode
  cases o.kind? with
  | none => exact (Neutral.throw _).refines fun _ h => absurd h (by simp)
  | some kind =>
    refine (start_refines ht).bind fun _ _ e₁ d₁ v₁ ht₁ => ?_
    refine (lowerKind_refines ht₁ hw ho kind).bind_continues (fun _ j => continues_finish)
      fun _ _ e₂ d₂ v₂ ht₂ => ?_
    exact (block_refines ht₂).agitate

end TensorAsm.Emitter
