import TensorAsm.Proofs.Lockstep
import TensorAsm.Proofs.Plans
/-!
Plans of circuits that differ in visibilities only. Under any two layouts they have the same blocks
in the same order, but for their places, and the same steps over cells that go together.
-/

namespace TensorAsm

open Stateful

namespace Circuit.Graph

variable {g g' : Graph}

theorem tensor?_veiled (g : Graph) (id : String) :
    g.veiled.tensor? id = (g.tensor? id).map Tensor.veiled := by
  rw [tensor?, veiled, List.find?_map]
  rfl

theorem tensor_same (h : g'.veiled = g.veiled) {id : String} {t t' : Tensor}
    (ht : g.tensor? id = some t) (ht' : g'.tensor? id = some t') : t'.veiled = t.veiled := by
  have hid := congrArg (·.tensor? id) h
  simp only [tensor?_veiled, ht, ht', Option.map_some] at hid
  exact Option.some.inj hid

theorem outputs_same (h : g'.veiled = g.veiled) : g'.outputs = g.outputs := congrArg (·.outputs) h

theorem order_same (h : g'.veiled = g.veiled) : g'.order = g.order := congrArg (·.order) h

end Circuit.Graph

namespace Lowering

/-- Settings of two lowerings side by side. -/
structure SameSetting (K : Pairs) (s s' : Setting) : Prop where
  graph : s'.graph.veiled = s.graph.veiled
  lookupBits : s'.lookupBits = s.lookupBits
  zero : SameCell K s.zero s'.zero

theorem SameSetting.mono {K K' : Pairs} {s s' : Setting} (h : SameSetting K s s') (hK : K ⊆ K') :
    SameSetting K' s s' :=
  ⟨h.graph, h.lookupBits, h.zero.mono hK⟩

/-- Nothing is asked of the results. -/
abbrev AnyResult : Pairs → Unit → Unit → Prop := fun _ _ _ => True

section

variable {s s' : Setting} {o : Circuit.Operation} {K : Pairs}

theorem operand_tied [Platform] (hs : SameSetting K s s') (hg : s.graph.Measured) {id : String}
    (hid : id ∈ s.graph.required) :
    Tied s.graph K (s.operand id) (s'.operand id) (SameOperand ·) := by
  apply Tied.reads_bind (fun _ _ _ => yields_tensor.1) (fun _ _ _ => yields_tensor.1)
  intro t t' ht ht'
  have hv := Circuit.Graph.tensor_same hs.graph ht ht'
  apply (tensor_tied hg hid ht hv).bind
  intro K' x y _ hrow
  exact .pure fun K'' hK =>
    ⟨hv, congrArg (·.scale) hv, hg.size_eq hid ht, hrow.mono hK⟩

theorem output_tied [Platform] (hs : SameSetting K s s') (hg : s.graph.Measured)
    (ho : o ∈ s.graph.operations) {t : Circuit.Tensor} (ht : s.graph.tensor? o.output = some t) :
    Tied s.graph K (s.output o) (s'.output o)
      fun K x y => SameRow K (Shape.volume t.shape) x y := by
  apply Tied.reads_bind (fun _ _ _ => yields_tensor.1) (fun _ _ _ => yields_tensor.1)
  intro u u' hu hu'
  obtain rfl : u = t := Option.some.inj (hu.symm.trans ht)
  have hv := Circuit.Graph.tensor_same hs.graph hu hu'
  apply (tensor_tied hg (Circuit.Graph.output_required ho) hu hv).bind
  intro K' x y _ hrow
  exact .pure fun K'' hK => hrow.mono hK

theorem operands_tied [Platform] (hs : SameSetting K s s') (hg : s.graph.Measured) {i j : String}
    (hi : i ∈ s.graph.required) (hj : j ∈ s.graph.required) {f f' : Operand → Operand → Emit Unit}
    (h : ∀ K' a b a' b', SameSetting K' s s' → SameOperand K' a a' → SameOperand K' b b' →
      Tied s.graph K' (f a b) (f' a' b') AnyResult) :
    Tied s.graph K (s.operand i >>= fun a => s.operand j >>= f a)
      (s'.operand i >>= fun a => s'.operand j >>= f' a) AnyResult := by
  apply (operand_tied hs hg hi).bind
  intro K₁ a a' h₁ ha
  apply (operand_tied (hs.mono h₁) hg hj).bind
  intro K₂ b b' h₂ hb
  exact h K₂ a b a' b' ((hs.mono h₁).mono h₂) (ha.mono h₂) hb

theorem check_tied [Platform] {α : Type} {Q : Pairs → α → α → Prop} {x y : Emit Unit}
    {rest rest' : Emit α} {P : Prop} (hx : ∀ d a e, x.Yields d a e → P ∧ d = e)
    (hy : ∀ d a e, y.Yields d a e → d = e) (h : P → Tied s.graph K rest rest' Q) :
    Tied s.graph K (x >>= fun _ => rest) (y >>= fun _ => rest') Q := by
  apply Tied.reads_bind (P := fun _ => P) (R := fun _ => True) hx
  · exact fun d a e h => ⟨trivial, hy d a e h⟩
  · exact fun _ _ hp _ => h hp

theorem checkOutput_tied [Platform] {operands operands' : List (List Nat)} {shape : List Nat}
    {rest rest' : Emit Unit}
    (h : ∀ t, s.graph.tensor? o.output = some t → t.shape = shape →
      Tied s.graph K rest rest' AnyResult) :
    Tied s.graph K (s.checkOutput o operands shape >>= fun _ => rest)
      (s'.checkOutput o operands' shape >>= fun _ => rest') AnyResult := by
  apply check_tied (P := ∃ t, s.graph.tensor? o.output = some t ∧ t.shape = shape)
  · intro d _ e hy
    obtain ⟨t, ht, hsh, rfl⟩ := yields_checkOutput.1 hy
    exact ⟨⟨t, ht, hsh⟩, rfl⟩
  · intro d _ e hy
    obtain ⟨_, _, _, rfl⟩ := yields_checkOutput.1 hy
    rfl
  · rintro ⟨t, ht, hsh⟩
    exact h t ht hsh

theorem size_tied [Platform] {a a' : Operand} (ha : SameOperand K a a') {f f' : Int → Emit Unit}
    (h : Tied s.graph K (f (Shape.volume a.shape)) (f' (Shape.volume a.shape)) AnyResult) :
    Tied s.graph K (size a.tensor >>= f) (size a'.tensor >>= f') AnyResult := by
  have hsize : a'.tensor.size? = .ok (Shape.volume a.shape : Int) :=
    (congrArg (·.size?) ha.tensor).trans ha.size
  apply Tied.reads_bind (fun _ _ _ => yields_size.1) (fun _ _ _ => yields_size.1)
  intro n n' hn hn'
  obtain rfl := Except.ok.inj (hn.symm.trans ha.size)
  obtain rfl := Except.ok.inj (hn'.symm.trans hsize)
  exact h

theorem ofExcept_tied [Platform] {α : Type} {r : Except Fault α} {f f' : α → Emit Unit}
    (h : ∀ a, r = .ok a → Tied s.graph K (f a) (f' a) AnyResult) :
    Tied s.graph K (MonadExcept.ofExcept r >>= f) (MonadExcept.ofExcept r >>= f') AnyResult := by
  apply Tied.reads_bind (fun _ _ _ => yields_ofExcept.1) (fun _ _ _ => yields_ofExcept.1)
  intro a b ha hb
  obtain rfl := Except.ok.inj (ha.symm.trans hb)
  exact h a ha

theorem lowerUnary_tied [Platform] (hs : SameSetting K s s') (hg : s.graph.Measured)
    (ho : o ∈ s.graph.operations) (negate : Bool) :
    Tied s.graph K (lowerUnary s o negate) (lowerUnary s' o negate) AnyResult := by
  rw [lowerUnary, lowerUnary]
  split
  · next ia hi =>
      apply (operand_tied hs hg (Circuit.Graph.input_required ho (by simp [hi]))).bind
      intro K₁ a a' h₁ ha
      rw [ha.shape]
      apply checkOutput_tied
      intro t ht hsh
      apply (rescaled_tied ha).bind
      rintro K₂ b b' h₂ ⟨hb, hba⟩
      have hs₂ := (hs.mono h₁).mono h₂
      apply (output_tied hs₂ hg ho ht).bind
      intro K₃ x y h₃ hrow
      apply size_tied (hb.mono h₃)
      apply commented_tied
      have hshape : t.shape = b.shape := hsh.trans (congrArg (·.shape) hba).symm
      rw [hshape] at hrow
      exact unarySteps_same negate (hb.mono h₃) (hs₂.mono h₃).zero hrow
  · exact .of_fails (by simp)

theorem lowerLookup_tied [Platform] (hs : SameSetting K s s') (hg : s.graph.Measured)
    (ho : o ∈ s.graph.operations) :
    Tied s.graph K (lowerLookup s o) (lowerLookup s' o) AnyResult := by
  rw [lowerLookup, lowerLookup]
  split
  · next ia hi =>
      apply (operand_tied hs hg (Circuit.Graph.input_required ho (by simp [hi]))).bind
      intro K₁ a a' h₁ ha
      rw [ha.shape, ha.scale, hs.lookupBits]
      apply checkOutput_tied
      intro t ht hsh
      apply ofExcept_tied
      intro spec _
      apply table_tied.bind
      rintro K₂ u u' h₂ ⟨hfold, hu⟩
      have hs₂ := (hs.mono h₁).mono h₂
      apply (output_tied hs₂ hg ho ht).bind
      intro K₃ x y h₃ hrow
      apply size_tied ((ha.mono h₂).mono h₃)
      apply commented_tied
      have hrows := Table.length_fold hfold
      have hpos := Table.fold_pos hfold
      rw [Array.length_toList] at hrows hpos
      apply lookupSteps_same ((ha.mono h₂).mono h₃)
      · omega
      · rw [← hrows]
        exact hu.row.mono h₃
      · rwa [hsh] at hrow
  · exact .of_fails (by simp)

theorem clampBounds_read (o : Circuit.Operation) :
    ∃ r, (clampBounds o : Emit _) = MonadExcept.ofExcept r := by
  rw [clampBounds]
  split
  · exact ⟨.ok none, rfl⟩
  · exact ⟨.ok none, rfl⟩
  · split
    · split
      · exact ⟨.error _, rfl⟩
      · exact ⟨.ok (some _), rfl⟩
    · exact ⟨.error _, rfl⟩
  · exact ⟨.error _, rfl⟩

theorem lowerRescale_tied [Platform] (hs : SameSetting K s s') (hg : s.graph.Measured)
    (ho : o ∈ s.graph.operations) :
    Tied s.graph K (lowerRescale s o) (lowerRescale s' o) AnyResult := by
  rw [lowerRescale, lowerRescale]
  split
  · next ia hi =>
      apply (operand_tied hs hg (Circuit.Graph.input_required ho (by simp [hi]))).bind
      intro K₁ a a' h₁ ha
      rw [ha.shape, ha.scale]
      apply checkOutput_tied
      intro t ht hsh
      obtain ⟨r, hr⟩ := clampBounds_read o
      rw [hr]
      apply ofExcept_tied
      intro bounds _
      apply (output_tied (hs.mono h₁) hg ho ht).bind
      intro K₂ x y h₂ hrow
      rw [hsh] at hrow
      apply size_tied (ha.mono h₂)
      cases bounds with
      | none =>
        apply commented_tied
        exact rescaleSteps_same (ha.mono h₂) hrow
      | some b =>
        apply (rescaled_tied (ha.mono h₂)).bind
        rintro K₃ c c' h₃ ⟨hc, hca⟩
        apply commented_tied
        have hshape : a.shape = c.shape := (congrArg (·.shape) hca).symm
        have hrow := hrow.mono h₃
        rw [hshape] at hrow ⊢
        exact clampSteps_same b.1 b.2 hc hrow
  · exact .of_fails (by simp)

theorem landing_tied [Platform] {natural x y : Int} {n : Nat} {purpose : String}
    (h : SameRow K n x y) :
    Tied s.graph K (if natural = o.scale then pure x else Emit.scratch o purpose n)
      (if natural = o.scale then pure y else Emit.scratch o purpose n) fun K a b =>
      SameRow K n a b := by
  apply Tied.ite
  · exact fun _ => .pure fun _ hK => h.mono hK
  · exact fun _ => scratch_tied

theorem partials_tied [Platform] {n steps : Nat} (hpos : steps ≠ 0) :
    Tied s.graph K
      (if 1 < steps then Emit.scratch o "partial" (n * ((steps : Int) - 1)) else pure 0)
      (if 1 < steps then Emit.scratch o "partial" (n * ((steps : Int) - 1)) else pure 0)
      fun K a b => SameRow K (n * (steps - 1)) a b := by
  apply Tied.ite
  · intro _
    have hcount : (n : Int) * ((steps : Int) - 1) = (n * (steps - 1) : Nat) := by
      rw [Int.natCast_mul, Int.natCast_sub (by omega)]
      rfl
    rw [hcount]
    exact scratch_tied
  · intro hone
    have hsteps : steps = 1 := by omega
    subst hsteps
    exact .pure fun _ _ i hi => by simp at hi

theorem lowerReduction_tied [Platform] (hs : SameSetting K s s') (hg : s.graph.Measured)
    (ho : o ∈ s.graph.operations) {t : Circuit.Tensor} (ht : s.graph.tensor? o.output = some t)
    {shape : List Nat} {terms terms' : List (List Term)} (hterms : SameTerms K terms terms')
    (hlen : terms.length = Shape.volume t.shape) {k : Nat} (hk : ∀ ts ∈ terms, ts.length = k)
    (natural : Int) :
    Tied s.graph K (lowerReduction s o shape terms natural)
      (lowerReduction s' o shape terms' natural) AnyResult := by
  cases hterms with
  | nil =>
    apply (output_tied hs hg ho ht).bind
    exact fun _ _ _ _ _ => .pure fun _ _ => trivial
  | @cons first first' more more' hfirst hmore =>
    rw [lowerReduction, lowerReduction, ← hfirst.length_eq]
    apply Tied.ite
    · intro _
      apply Tied.of_fails
      simp
    intro hpos
    apply (output_tied hs hg ho ht).bind
    intro K₁ x y h₁ hrow
    rw [← hlen] at hrow
    have hlen' : more'.length = more.length := hmore.length_eq.symm
    rw [List.length_cons, List.length_cons, hlen', ← List.length_cons]
    refine (partials_tied hpos).ite_bind ?_
    intro K₂ p p' h₂ hpart
    refine (landing_tied (hrow.mono h₂)).ite_bind ?_
    intro K₃ l l' h₃ hland
    have hK := List.Subset.trans h₂ h₃
    have hterms : SameTerms K₃ (first :: more) (first' :: more') :=
      SameTerms.mono (.cons hfirst hmore) (List.Subset.trans h₁ hK)
    have htarget : SameTarget K₃ (first :: more).length ⟨x, l, natural, o.scale⟩
        ⟨y, l', natural, o.scale⟩ :=
      ⟨hrow.mono hK, hland, rfl, rfl⟩
    apply settle_tied htarget.isWritten
    have hr : SameReduction K₃ (first :: more).length
        ⟨s.zero, p, first.length, ⟨x, l, natural, o.scale⟩⟩
        ⟨s'.zero, p', first.length, ⟨y, l', natural, o.scale⟩⟩ :=
      ⟨hs.zero.mono (List.Subset.trans h₁ hK), hpart.mono h₃, rfl, htarget⟩
    apply elements_same hr _ hterms _ (by omega)
    intro ts hts
    rw [hk ts hts, hk first (by simp)]

theorem lowerMatmul_tied [Platform] (hs : SameSetting K s s') (hg : s.graph.Measured)
    (ho : o ∈ s.graph.operations) :
    Tied s.graph K (lowerMatmul s o) (lowerMatmul s' o) AnyResult := by
  rw [lowerMatmul, lowerMatmul]
  split
  · next ia ib hi =>
      apply operands_tied hs hg (Circuit.Graph.input_required ho (by simp [hi]))
        (Circuit.Graph.input_required ho (by simp [hi]))
      intro K₁ a b a' b' hs ha hb
      apply Tied.reads_bind (fun _ _ _ => yields_tensor.1) (fun _ _ _ => yields_tensor.1)
      intro t t' ht _
      rw [ha.shape, hb.shape, ha.scale, hb.scale]
      cases hp : product? a.shape b.shape with
      | none => exact .of_fails (by simp)
      | some q =>
        obtain ⟨k, n, shape⟩ := q
        apply checkOutput_tied
        intro u hu hsh
        apply check_tied (P := True) (by simp) (by simp)
        intro _
        apply lowerReduction_tied hs hg ho hu (matmulTerms_same hp ha hb)
        · rw [length_matmulTerms, Shape.length_indices, hsh]
        · intro ts hts
          obtain ⟨index, -, rfl⟩ := List.mem_map.1 hts
          exact List.length_map _
  · exact .of_fails (by simp)

theorem scalarShape_tied [Platform] (hs : SameSetting K s s') {operands operands' : List (List Nat)}
    {f f' : List Nat → Emit Unit}
    (h : ∀ t, s.graph.tensor? o.output = some t → Shape.volume t.shape = 1 →
      Tied s.graph K (f t.shape) (f' t.shape) AnyResult) :
    Tied s.graph K (scalarShape s o operands >>= f) (scalarShape s' o operands' >>= f')
      AnyResult := by
  apply Tied.reads_bind
    (P := fun shape => (∃ t, s.graph.tensor? o.output = some t ∧ t.shape = shape) ∧
      (shape = [] ∨ shape = [1]))
    (R := fun shape => ∃ t, s'.graph.tensor? o.output = some t ∧ t.shape = shape)
  · intro d shape e hy
    obtain ⟨ht, hone, he⟩ := scalarShape_yields hy
    exact ⟨⟨ht, hone⟩, he⟩
  · intro d shape e hy
    obtain ⟨ht, -, he⟩ := scalarShape_yields hy
    exact ⟨ht, he⟩
  · rintro _ _ ⟨⟨t, ht, rfl⟩, hone⟩ ⟨t', ht', rfl⟩
    have hsame : t'.shape = t.shape :=
      congrArg (·.shape) (Circuit.Graph.tensor_same hs.graph ht ht')
    rw [hsame]
    apply h t ht
    rcases hone with hone | hone <;> rw [hone] <;> rfl

theorem lowerDot_tied [Platform] (hs : SameSetting K s s') (hg : s.graph.Measured)
    (ho : o ∈ s.graph.operations) :
    Tied s.graph K (lowerDot s o) (lowerDot s' o) AnyResult := by
  rw [lowerDot, lowerDot]
  split
  · next ia ib hi =>
      apply operands_tied hs hg (Circuit.Graph.input_required ho (by simp [hi]))
        (Circuit.Graph.input_required ho (by simp [hi]))
      intro K₁ a b a' b' hs ha hb
      rw [ha.shape, hb.shape, ha.scale, hb.scale]
      apply Tied.ite
      · exact fun _ => .of_fails (by simp)
      intro hone
      apply scalarShape_tied hs
      intro t ht hvol
      apply size_tied ha
      rw [Int.toNat_natCast]
      have hsame : a.shape = b.shape := by simpa using (not_or.1 hone).2
      apply lowerReduction_tied hs hg ho ht (dotTerms_same hsame ha hb) hvol.symm
      intro ts hts
      obtain rfl := List.mem_singleton.1 hts
      rfl
  · exact .of_fails (by simp)

theorem lowerSum_tied [Platform] (hs : SameSetting K s s') (hg : s.graph.Measured)
    (ho : o ∈ s.graph.operations) :
    Tied s.graph K (lowerSum s o) (lowerSum s' o) AnyResult := by
  rw [lowerSum, lowerSum]
  split
  · next ia hi =>
      apply (operand_tied hs hg (Circuit.Graph.input_required ho (by simp [hi]))).bind
      intro K₁ a a' h₁ ha
      rw [ha.shape, ha.scale]
      apply scalarShape_tied (hs.mono h₁)
      intro t ht hvol
      apply size_tied ha
      rw [Int.toNat_natCast]
      have hr : Tied s.graph K₁
          (lowerReduction s o t.shape (sumTerms a (Shape.volume a.shape)) a.scale)
          (lowerReduction s' o t.shape (sumTerms a' (Shape.volume a.shape)) a.scale) AnyResult := by
        apply lowerReduction_tied (hs.mono h₁) hg ho ht (sumTerms_same ha) hvol.symm
        intro ts hts
        obtain rfl := List.mem_singleton.1 hts
        rfl
      apply Tied.ite
      · exact fun _ => check_tied (P := True) (by simp) (by simp) fun _ => hr
      · exact fun _ => hr
  · exact .of_fails (by simp)

theorem length_windowTerms {c : Window} {zero : Int} {x w : Operand} {bias : Option Operand}
    {ts : List Term} (h : ts ∈ c.terms zero x w bias) :
    ts.length = bias.toList.length +
      (Shape.indices [c.channels, c.kernelHeight, c.kernelWidth]).length := by
  rw [Window.terms_eq] at h
  obtain ⟨index, -, rfl⟩ := List.mem_map.1 h
  rw [List.length_append, List.length_map, Window.taps_eq, List.length_map]

theorem checkWindow_tied [Platform] {c : Window} {rest rest' : Emit Unit}
    (h : Tied s.graph K rest rest' AnyResult) :
    Tied s.graph K (checkWindow c >>= fun _ => rest) (checkWindow c >>= fun _ => rest')
      AnyResult :=
  check_tied (P := True) (fun _ _ _ hy => ⟨trivial, checkWindow_yields hy⟩)
    (fun _ _ _ hy => checkWindow_yields hy) fun _ => h

theorem convolution_tied [Platform] (hs : SameSetting K s s') (hg : s.graph.Measured)
    (ho : o ∈ s.graph.operations) {c : Window} {x x' w w' : Operand} {bias bias' : Option Operand}
    {operands operands' : List (List Nat)} {natural : Int} (hc : Convolves o x w c)
    (hx : SameOperand K x x') (hw : SameOperand K w w')
    (hb : Option.Rel (fun b b' => SameOperand K b b' ∧ b.shape = [c.filters]) bias bias') :
    Tied s.graph K
      (do
        s.checkOutput o operands c.outShape
        checkWindow c
        lowerReduction s o c.outShape (c.terms s.zero x w bias) natural)
      (do
        s'.checkOutput o operands' c.outShape
        checkWindow c
        lowerReduction s' o c.outShape (c.terms s'.zero x' w' bias') natural) AnyResult := by
  apply checkOutput_tied
  intro t ht hsh
  apply checkWindow_tied
  apply lowerReduction_tied hs hg ho ht (windowTerms_same hc hs.zero hx hw hb)
  · rw [Window.terms_eq, List.length_map, Shape.length_indices, hsh]
  · exact fun ts hts => length_windowTerms hts

theorem lowerConv_tied [Platform] (hs : SameSetting K s s') (hg : s.graph.Measured)
    (ho : o ∈ s.graph.operations) :
    Tied s.graph K (lowerConv s o) (lowerConv s' o) AnyResult := by
  rw [lowerConv, lowerConv]
  split
  · next ix iw others hi =>
      apply Tied.ite
      · exact fun _ => .of_fails (by simp)
      intro _
      apply operands_tied hs hg (Circuit.Graph.input_required ho (by simp [hi]))
        (Circuit.Graph.input_required ho (by simp [hi]))
      intro K₁ x w x' w' hs hx hw
      apply Tied.reads_bind (fun _ _ _ => yields_tensor.1) (fun _ _ _ => yields_tensor.1)
      intro t t' ht _
      rw [hx.shape, hw.shape, hx.scale, hw.scale]
      apply Tied.ite
      · exact fun _ => .of_fails (by simp)
      intro hch
      apply Tied.reads_bind (fun _ _ _ => yields_convPair.1) (fun _ _ _ => yields_convPair.1)
      intro stride stride' hst hst'
      obtain rfl := Option.some.inj (hst.symm.trans hst')
      apply Tied.reads_bind (fun _ _ _ => yields_convPair.1) (fun _ _ _ => yields_convPair.1)
      intro pad pad' hpd hpd'
      obtain rfl := Option.some.inj (hpd.symm.trans hpd')
      apply Tied.ite
      · exact fun _ => .of_fails (by simp)
      intro _
      cases hc : window? x.shape w.shape stride pad with
      | none => exact .of_fails (by simp)
      | some c =>
        have hcv : Convolves o x w c := ⟨by simpa using hch, stride, pad, hst, hpd, hc⟩
        apply Tied.ite
        · exact fun _ => .of_fails (by simp)
        intro _
        cases others with
        | nil => exact convolution_tied hs hg ho hcv hx hw .none
        | cons ib rest =>
          apply (operand_tied hs hg (Circuit.Graph.input_required ho (by simp [hi]))).bind
          intro K₂ b b' h₂ hb
          rw [hb.shape]
          apply Tied.ite
          · exact fun _ => .of_fails (by simp)
          intro hf
          apply (rescaled_tied hb).bind
          rintro K₃ e e' h₃ ⟨he, heb⟩
          have hK := List.Subset.trans h₂ h₃
          have hef : e.shape = [c.filters] := by
            rw [Operand.shape, heb]
            exact not_not.1 hf
          exact convolution_tied (hs.mono hK) hg ho hcv (hx.mono hK) (hw.mono hK)
            (.some ⟨he, hef⟩)
  · exact .of_fails (by simp)

theorem linear_tied [Platform] (hs : SameSetting K s s') (hg : s.graph.Measured)
    (ho : o ∈ s.graph.operations) (op : Arithmetic) {t : Circuit.Tensor}
    (ht : s.graph.tensor? o.output = some t) {shape : List Nat} (hsh : t.shape = shape)
    {a b a' b' : Operand} (hb : Shape.broadcast? a.shape b.shape = some shape)
    (ha : SameOperand K a a') (hb' : SameOperand K b b') :
    Tied s.graph K
      (do
        let a ← rescaled o a o.scale "lhs"
        let b ← rescaled o b o.scale "rhs"
        let output ← s.output o
        checkCountable shape
        Emit.commented o [] (binarySteps o op a b shape ⟨output, output, o.scale, o.scale⟩))
      (do
        let a ← rescaled o a' o.scale "lhs"
        let b ← rescaled o b' o.scale "rhs"
        let output ← s'.output o
        checkCountable shape
        Emit.commented o [] (binarySteps o op a b shape ⟨output, output, o.scale, o.scale⟩))
      AnyResult := by
  apply (rescaled_tied ha).bind
  rintro K₁ c c' h₁ ⟨hc, hca⟩
  apply (rescaled_tied (hb'.mono h₁)).bind
  rintro K₂ e e' h₂ ⟨he, heb⟩
  have hK := List.Subset.trans h₁ h₂
  apply (output_tied (hs.mono hK) hg ho ht).bind
  intro K₃ x y h₃ hrow
  apply check_tied (P := True) (by simp) (by simp)
  intro _
  apply commented_tied
  rw [hsh] at hrow
  rw [Operand.shape, Operand.shape, ← hca, ← heb] at hb
  exact binarySteps_same op hb ((hc.mono h₂).mono h₃) (he.mono h₃) ⟨hrow, hrow, rfl, rfl⟩

theorem product_tied [Platform] {shape : List Nat} {a b a' b' : Operand} {x y l l' natural : Int}
    (hshape : Shape.broadcast? a.shape b.shape = some shape) (ha : SameOperand K a a')
    (hb : SameOperand K b b') (hx : SameRow K (Shape.volume shape) x y)
    (hl : SameRow K (Shape.volume shape) l l') :
    let t : Target := ⟨x, l, natural, o.scale⟩
    let t' : Target := ⟨y, l', natural, o.scale⟩
    Tied s.graph K
      (do
        checkCountable shape
        if t.isWritten then Emit.commented o [] (binarySteps o .mul a b shape t)
        else breakOff o t (binaryStart o .mul a b shape t))
      (do
        checkCountable shape
        if t'.isWritten then Emit.commented o [] (binarySteps o .mul a' b' shape t')
        else breakOff o t' (binaryStart o .mul a' b' shape t')) AnyResult := by
  intro t t'
  have ht : SameTarget K (Shape.volume shape) t t' := ⟨hx, hl, rfl, rfl⟩
  apply check_tied (P := True) (by simp) (by simp)
  intro _
  exact settle_tied ht.isWritten (binarySteps_same .mul hshape ha hb ht)

theorem lowerBinary_tied [Platform] (hs : SameSetting K s s') (hg : s.graph.Measured)
    (ho : o ∈ s.graph.operations) (op : Arithmetic) :
    Tied s.graph K (lowerBinary s o op) (lowerBinary s' o op) AnyResult := by
  rw [lowerBinary, lowerBinary]
  split
  · next ia ib hi =>
      apply operands_tied hs hg (Circuit.Graph.input_required ho (by simp [hi]))
        (Circuit.Graph.input_required ho (by simp [hi]))
      intro K₁ a b a' b' hs ha hb
      apply Tied.reads_bind (fun _ _ _ => yields_tensor.1) (fun _ _ _ => yields_tensor.1)
      intro t t' ht ht'
      rw [ha.shape, hb.shape]
      apply check_tied (P := True) (by simp) (by simp)
      intro _
      apply check_tied (P := True) (by simp) (by simp)
      intro _
      cases hshape : Shape.broadcast? a.shape b.shape with
      | none => exact .of_fails (by simp)
      | some shape =>
        apply checkOutput_tied
        intro u hu hsh
        obtain rfl : u = t := Option.some.inj (hu.symm.trans ht)
        cases op with
        | mul =>
          rw [ha.scale, hb.scale]
          apply (output_tied hs hg ho ht).bind
          intro K₂ x y h₂ hrow
          have hv := Circuit.Graph.tensor_same hs.graph hu ht'
          have hsize := hg.size_eq (Circuit.Graph.output_required ho) hu
          have hsize' : t'.size? = .ok (Shape.volume u.shape : Int) :=
            (congrArg (·.size?) hv).trans hsize
          subst hsh
          apply Tied.ite
          · intro _
            apply (Tied.pure (Q := fun K x y => SameRow K (Shape.volume u.shape) x y)
              fun _ hK => hrow.mono hK).bind
            intro K₃ l l' h₃ hl
            have hK := List.Subset.trans h₂ h₃
            exact product_tied hshape (ha.mono hK) (hb.mono hK) (hrow.mono h₃) hl
          · intro _
            apply Tied.reads_bind (fun _ _ _ => yields_size.1) (fun _ _ _ => yields_size.1)
            intro n n' hn hn'
            obtain rfl := Except.ok.inj (hn.symm.trans hsize)
            obtain rfl := Except.ok.inj (hn'.symm.trans hsize')
            apply scratch_tied.bind
            intro K₃ l l' h₃ hl
            have hK := List.Subset.trans h₂ h₃
            exact product_tied hshape (ha.mono hK) (hb.mono hK) (hrow.mono h₃) hl
        | add => exact linear_tied hs hg ho .add ht hsh hshape ha hb
        | sub => exact linear_tied hs hg ho .sub ht hsh hshape ha hb
  · exact .of_fails (by simp)

theorem lowerKind_tied [Platform] (hs : SameSetting K s s') (hg : s.graph.Measured)
    (ho : o ∈ s.graph.operations) (kind : Circuit.Kind) :
    Tied s.graph K (lowerKind s o kind) (lowerKind s' o kind) AnyResult := by
  cases kind with
  | add => exact lowerBinary_tied hs hg ho .add
  | sub => exact lowerBinary_tied hs hg ho .sub
  | mul => exact lowerBinary_tied hs hg ho .mul
  | neg => exact lowerUnary_tied hs hg ho true
  | identity => exact lowerUnary_tied hs hg ho false
  | matmul => exact lowerMatmul_tied hs hg ho
  | dot => exact lowerDot_tied hs hg ho
  | conv => exact lowerConv_tied hs hg ho
  | sum => exact lowerSum_tied hs hg ho
  | relu | leakyRelu | sigmoid | tanh | piecewiseLinear => exact lowerLookup_tied hs hg ho
  | rescale => exact lowerRescale_tied hs hg ho

theorem start_tied [Platform] : Tied s.graph K Emit.start Emit.start AnyResult := by
  intro d d' _ _ e e' hd _ h h'
  obtain rfl := yields_modify.1 h
  obtain rfl := yields_modify.1 h'
  exact ⟨⟨hd.allocations, hd.count, hd.coherent, hd.bound, hd.sized, hd.tables, hd.folded,
    hd.blocks, .nil⟩, List.Subset.refl _, trivial⟩

theorem finish_tied [Platform] : Tied s.graph K (Emit.finish o) (Emit.finish o) AnyResult := by
  intro d d' _ _ e e' hd _ h h'
  simp only [Emit.finish, Emit.note, yields_bind, yields_get, yields_modify] at h h'
  obtain ⟨_, _, ⟨rfl, rfl⟩, _, _, rfl, rfl⟩ := h
  obtain ⟨_, _, ⟨rfl, rfl⟩, _, _, rfl, rfl⟩ := h'
  refine ⟨⟨hd.allocations, hd.count, hd.coherent, hd.bound, hd.sized, hd.tables, hd.folded, ?_,
    hd.current⟩, List.Subset.refl _, trivial⟩
  exact List.rel_append hd.blocks (.cons ⟨rfl, hd.current⟩ .nil)

theorem lowerNode_tied [Platform] (hs : SameSetting K s s') (hg : s.graph.Measured)
    (ho : o ∈ s.graph.operations) :
    Tied s.graph K (lowerNode s o) (lowerNode s' o) AnyResult := by
  rw [lowerNode, lowerNode]
  split
  · exact .of_fails (by simp)
  · next kind _ =>
      apply start_tied.bind
      intro K₁ _ _ h₁ _
      apply (lowerKind_tied (hs.mono h₁) hg ho kind).bind
      intro K₂ _ _ _ _
      exact finish_tied

theorem forM_tied [Platform] {α : Type} {xs : List α} {f f' : α → Emit Unit}
    (h : ∀ x ∈ xs, ∀ K', K ⊆ K' → Tied s.graph K' (f x) (f' x) AnyResult) :
    Tied s.graph K (xs.forM f) (xs.forM f') AnyResult := by
  induction xs generalizing K with
  | nil => exact .pure fun _ _ => trivial
  | cons x xs ih =>
    apply (h x (by simp) K (List.Subset.refl _)).bind
    intro K₁ _ _ h₁ _
    apply ih
    exact fun z hz K' hK => h z (by simp [hz]) K' (List.Subset.trans h₁ hK)

end

theorem lowerOrder_tied [Platform] {g g' : Circuit.Graph} (hv : g'.veiled = g.veiled)
    (hg : g.Measured) (hwf : g.WellFormed) {lookupBits : Json} {zero zero' : Int} {K : Pairs}
    (hz : SameCell K zero zero') {order : List Circuit.Operation} (ho : g.order = .ok order) :
    Tied g K
      (do
        order.forM (lowerNode ⟨g, lookupBits, zero⟩)
        g.outputs.forM fun id => do
          let _ ← Emit.tensor (← Setting.tensor ⟨g, lookupBits, zero⟩ id)
        return zero)
      (do
        order.forM (lowerNode ⟨g', lookupBits, zero'⟩)
        g.outputs.forM fun id => do
          let _ ← Emit.tensor (← Setting.tensor ⟨g', lookupBits, zero'⟩ id)
        return zero') fun K z z' => SameCell K z z' := by
  have hs : SameSetting K ⟨g, lookupBits, zero⟩ ⟨g', lookupBits, zero'⟩ := ⟨hv, rfl, hz⟩
  have hops : ∀ o ∈ order, o ∈ g.operations := fun o hm =>
    (Circuit.Graph.order_topological hwf ho).perm.mem_iff.1 hm
  refine Tied.bind (Q := AnyResult) ?_ fun K₁ _ _ h₁ _ => ?_
  · exact forM_tied (s := ⟨g, lookupBits, zero⟩) fun o hm K' hK =>
      lowerNode_tied (hs.mono hK) hg (hops o hm)
  refine Tied.bind (Q := AnyResult) ?_ fun K₂ _ _ h₂ _ => ?_
  · apply forM_tied (s := ⟨g, lookupBits, zero⟩)
    intro id hid K' hK
    apply Tied.reads_bind (fun _ _ _ => yields_tensor.1) (fun _ _ _ => yields_tensor.1)
    intro t t' ht ht'
    have hreq : id ∈ g.required := Circuit.Graph.mem_required.2 (.inl hid)
    apply (tensor_tied hg hreq ht (Circuit.Graph.tensor_same hv ht ht')).bind
    exact fun _ _ _ _ _ => .pure fun _ _ => trivial
  · exact .pure fun K' hK =>
      hz.mono (List.Subset.trans h₁ (List.Subset.trans h₂ hK))

theorem sameDraft_empty [Platform] (g g' : Circuit.Graph) (layout layout' : Layout) :
    SameDraft g (emptyDraft g layout) (emptyDraft g' layout') :=
  ⟨.nil, rfl, Allocator.coherent_start g layout,
    fun kind _ => .inl (by cases kind <;> exact ⟨rfl, rfl⟩), by simp [emptyDraft, Allocator.start],
    .nil, by simp [emptyDraft], .nil, .nil⟩

theorem lowerGraph_same [Platform] {g g' : Circuit.Graph} (hv : g'.veiled = g.veiled)
    (hg : g.Measured) (hwf : g.WellFormed) {layout layout' : Layout} {lookupBits : Json}
    {z z' : Int} {d d' : Draft} (h : (lowerGraph g lookupBits).Yields (emptyDraft g layout) z d)
    (h' : (lowerGraph g' lookupBits).Yields (emptyDraft g' layout') z' d') :
    SameDraft g d d' ∧ SameCell (pairsOf d d') z z' := by
  rw [lowerGraph] at h h'
  obtain ⟨x, d₁, hzero, h⟩ := yields_bind.1 h
  obtain ⟨x', d₁', hzero', h'⟩ := yields_bind.1 h'
  obtain ⟨a, ha, rfl⟩ := Emit.yields_request hzero
  obtain ⟨a', ha', rfl⟩ := Emit.yields_request hzero'
  obtain ⟨hd, -, hrow⟩ := place_tied (sameDraft_empty g g' layout layout') rfl .control _ _
    (by simp)
    ha ha'
  rw [Circuit.Graph.order_same hv, Circuit.Graph.outputs_same hv] at h'
  cases ho : g.order with
  | error f =>
    rw [ho] at h
    exact absurd h (by simp)
  | ok order =>
    rw [ho] at h h'
    obtain ⟨he, -, hz⟩ := lowerOrder_tied hv hg hwf (hrow.head (by simp)) ho hd
      (List.Subset.refl _) h h'
    exact ⟨he, hz⟩

/-- Plans with the same blocks but for their places, and the same steps over them. -/
structure SamePlan (p p' : Plan) : Prop where
  allocations : List.Forall₂ Twin p.allocator.allocations p'.allocator.allocations
  tables : List.Forall₂
    (SameTable (p.allocator.allocations.zip p'.allocator.allocations)) p.tables p'.tables
  blocks : List.Forall₂
    (SameBlock (p.allocator.allocations.zip p'.allocator.allocations)) p.blocks p'.blocks
  zero : SameCell (p.allocator.allocations.zip p'.allocator.allocations) p.zero p'.zero

theorem plan_same [Platform] {g g' : Circuit.Graph} (hv : g'.veiled = g.veiled) (hg : g.Measured)
    (hwf : g.WellFormed) {layout layout' : Layout} {lookupBits : Json} {p p' : Plan}
    {journal journal' : List Event} (h : plan g layout lookupBits = (.ok p, journal))
    (h' : plan g' layout' lookupBits = (.ok p', journal')) : SamePlan p p' := by
  obtain ⟨z, d, hrun, rfl, -⟩ := plan_yields h
  obtain ⟨z', d', hrun', rfl, -⟩ := plan_yields h'
  obtain ⟨hd, hz⟩ := lowerGraph_same hv hg hwf hrun hrun'
  exact ⟨hd.allocations, hd.tables, hd.blocks, hz⟩

end Lowering

end TensorAsm
