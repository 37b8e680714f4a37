import TensorAsm.Proofs.Acyclicity
import TensorAsm.Proofs.Outcomes
/-!
The lowering of an operation, function by function: how each of them ends when it fails.
-/

namespace TensorAsm.Lowering

open Circuit Emit Stateful

variable {α : Type} {s : Setting} {o : Operation} {m : Int} {Q : α → Prop}

theorem obeys_refuse [Platform] {d : CircuitDefect} :
    Obeys s.graph s.lookupBits m (refuse d : Emit α) Q :=
  meets_throw (.inl (declined_circuit d))

theorem obeys_mismatch [Platform] {operands : List (List Nat)} {output : List Nat}
    {c : ShapeComplaint} :
    Obeys s.graph s.lookupBits m (mismatch o operands output c : Emit α) Q :=
  meets_throw (.inl ⟨_, rfl, by simp [CompileError.kind, refusals]⟩)

theorem obeys_wrongCount [Platform] {allowed : List Nat} :
    Obeys s.graph s.lookupBits m (wrongCount o allowed : Emit α) Q :=
  obeys_refuse

theorem obeys_setting_tensor [Platform] (hg : s.graph.Measured) {id : String}
    (hid : id ∈ s.graph.required) :
    Obeys s.graph s.lookupBits m (s.tensor id) fun t => s.graph.tensor? id = some t ∧
      t.size? = .ok (Shape.volume t.shape : Int) := by
  obtain ⟨t, ht, hs⟩ := hg id hid
  unfold Setting.tensor
  rw [ht]
  exact meets_pure ⟨rfl, hs⟩

/-- An operand as it comes from the graph. -/
structure Fresh (g : Graph) (o : Operation) (x : Operand) : Prop where
  reads : g.Reads o x.tensor
  scale : x.scale = x.tensor.scale
  sized : x.tensor.size? = .ok (Shape.volume x.shape : Int)

theorem obeys_operand [Platform] (hg : s.graph.Measured) (ho : o ∈ s.graph.operations) {id : String}
    (hid : id ∈ o.inputs) : Obeys s.graph s.lookupBits m (s.operand id) (Fresh s.graph o) := by
  apply Meets.bind (obeys_setting_tensor hg (Graph.input_required ho hid))
  rintro t ⟨ht, hs⟩
  apply Meets.bind (obeys_tensor hs)
  exact fun _ _ => meets_pure ⟨⟨id, hid, ht⟩, rfl, hs⟩

theorem obeys_output [Platform] (hg : s.graph.Measured) (ho : o ∈ s.graph.operations) :
    Obeys s.graph s.lookupBits m (s.output o) fun _ => True := by
  apply Meets.bind (obeys_setting_tensor hg (Graph.output_required ho))
  rintro t ⟨-, hs⟩
  apply Meets.bind (obeys_tensor hs)
  exact fun _ _ => meets_pure trivial

/-- The output is declared with a shape. -/
def Declares (g : Graph) (o : Operation) (shape : List Nat) : Prop :=
  ∃ t, g.tensor? o.output = some t ∧ t.shape = shape

theorem obeys_checkOutput [Platform] (hg : s.graph.Measured) (ho : o ∈ s.graph.operations)
    {operands : List (List Nat)} {expected : List Nat} :
    Obeys s.graph s.lookupBits m (s.checkOutput o operands expected) fun _ =>
      Declares s.graph o expected := by
  apply Meets.bind (obeys_setting_tensor hg (Graph.output_required ho))
  rintro t ⟨ht, -⟩
  dsimp only
  split
  · exact obeys_mismatch
  · next he => exact meets_pure ⟨t, ht, not_not.1 he⟩

theorem obeys_size [Platform] {t : Tensor} {n : Int} (h : t.size? = .ok n) :
    Obeys s.graph s.lookupBits m (size t) fun _ => True := by
  unfold size
  rw [h]
  exact meets_pure trivial

theorem obeys_checkAxes [Platform] (ho : o ∈ s.graph.operations) {t : Tensor}
    (ht : s.graph.Reads o t) :
    Obeys s.graph s.lookupBits m (checkAxes t.shape) fun _ => True := by
  unfold checkAxes
  split
  · next h => exact meets_throw (.inr (.inl (.axes ho ht h)))
  · exact meets_pure trivial

/-- The dimensions of a shape come from tensors of an operation. -/
def Dimensions (g : Graph) (o : Operation) (shape : List Nat) : Prop :=
  ∀ d ∈ shape, ∃ t, (g.Reads o t ∨ g.tensor? o.output = some t) ∧ d ∈ t.shape

theorem Declares.dimensions {g : Graph} {shape : List Nat} (h : Declares g o shape) :
    Dimensions g o shape := by
  obtain ⟨t, ht, rfl⟩ := h
  exact fun d hd => ⟨t, .inr ht, hd⟩

theorem obeys_checkCountable [Platform] (ho : o ∈ s.graph.operations) {shape : List Nat}
    (h : Dimensions s.graph o shape) :
    Obeys s.graph s.lookupBits m (checkCountable shape) fun _ => True := by
  unfold checkCountable
  split
  · next hc =>
      obtain ⟨d, hd, hle⟩ : ∃ d ∈ shape, Platform.countLimit ≤ d := by
        simpa [Shape.isCountable] using hc
      obtain ⟨t, ht, hdt⟩ := h d hd
      exact meets_throw (.inr (.inl (.uncountable ho ht hdt hle)))
  · exact meets_pure trivial

/-- A scale to which operands are brought, or that results have at first. -/
def Natural (g : Graph) (o : Operation) (n : Int) : Prop :=
  n = o.scale ∨ (∃ t, g.Reads o t ∧ n = t.scale) ∨
    ∃ x y, g.Reads o x ∧ g.Reads o y ∧ n = x.scale + y.scale

theorem Natural.comments [Platform] (ho : o ∈ s.graph.operations) {n : Int}
    (h : Natural s.graph o n) :
    Comments s.graph s.lookupBits m n := by
  rcases h with rfl | ⟨t, ht, rfl⟩ | ⟨x, y, hx, hy, rfl⟩
  · exact comments_scale ho
  · exact comments_read ho ht
  · exact comments_product ho hx hy

theorem obeys_breakOff [Platform] (ho : o ∈ s.graph.operations) {t : Target} {start : List Step}
    (hn : Natural s.graph o t.natural) (hs : t.scale = o.scale)
    (h : ∀ x ∈ start, x.derived = true → Moves s.graph x.instruction) :
    Obeys s.graph s.lookupBits m (breakOff o t start) fun _ => True := by
  apply Meets.bind (obeys_commented ho (by simp) h)
  intro _ _
  split
  · apply meets_checkWritten
    rw [hs]
    exact List.forall_mem_cons.2 ⟨hn.comments ho, List.forall_mem_singleton.2 (comments_scale ho)⟩
  · exact meets_pure trivial

theorem obeys_rescaled [Platform] (ho : o ∈ s.graph.operations) {x : Operand}
    (hx : Fresh s.graph o x) {target : Int} {purpose : String}
    (ht : Comments s.graph s.lookupBits m target) (hb : Brings s.graph o (x.scale - target)) :
    Obeys s.graph s.lookupBits m (rescaled o x target purpose) fun y => y.tensor = x.tensor := by
  unfold rescaled
  split
  · exact meets_pure rfl
  apply Meets.bind (obeys_size hx.sized)
  intro n _
  apply Meets.bind (obeys_scratch ho)
  intro base _
  have hmoves : ∀ step ∈ requantSteps o x target base n.toNat, Moves s.graph step.instruction :=
    requantSteps_moves ho hb
  dsimp only
  split
  · exact meets_pure rfl
  next first more hcons =>
  have hcomments : ∀ k ∈ [x.scale, target], Comments s.graph s.lookupBits m k :=
    List.forall_mem_cons.2
      ⟨hx.scale ▸ comments_read ho hx.reads, List.forall_mem_singleton.2 ht⟩
  have hsteps : Obeys s.graph s.lookupBits m
      (commented o [x.scale, target] (requantSteps o x target base n.toNat)) fun _ => True :=
    obeys_commented ho hcomments fun step hm _ => hmoves step hm
  apply Meets.bind (obeys_checkAxes ho hx.reads)
  intro _ _
  split
  · apply Meets.bind (obeys_note (show Event.Lawful s.graph (.dropped first) from
      hmoves first (by rw [hcons]; simp)))
    intro _ _
    exact hsteps.bind fun _ _ => meets_pure rfl
  · exact hsteps.bind fun _ _ => meets_pure rfl

theorem natural_product {g : Graph} {x y : Operand} (hx : Fresh g o x) (hy : Fresh g o y) :
    Natural g o (x.scale + y.scale) :=
  .inr (.inr ⟨_, _, hx.reads, hy.reads, by rw [hx.scale, hy.scale]⟩)

theorem obeys_product [Platform] (ho : o ∈ s.graph.operations) {x y : Operand} {shape : List Nat}
    {t : Target} (hn : Natural s.graph o t.natural) (hs : t.scale = o.scale) :
    Obeys s.graph s.lookupBits m (if t.isWritten then
      commented o [] (binarySteps o .mul x y shape t)
      else breakOff o t (binaryStart o .mul x y shape t)) fun _ => True := by
  split
  · exact obeys_commented ho (by simp) binarySteps_moves
  · exact obeys_breakOff ho hn hs binaryStart_moves

theorem obeys_lowerBinary [Platform] (hg : s.graph.Measured) (ho : o ∈ s.graph.operations)
    {op : Arithmetic} : Obeys s.graph s.lookupBits m (lowerBinary s o op) fun _ => True := by
  unfold lowerBinary
  split
  case h_2 => exact obeys_wrongCount
  next ia ib hi =>
  apply Meets.bind (obeys_operand hg ho (by simp [hi]))
  intro a ha
  apply Meets.bind (obeys_operand hg ho (by simp [hi]))
  intro b hb
  apply Meets.bind (obeys_setting_tensor hg (Graph.output_required ho))
  rintro declared ⟨-, hsize⟩
  apply Meets.bind (obeys_checkAxes ho ha.reads)
  intro _ _
  apply Meets.bind (obeys_checkAxes ho hb.reads)
  intro _ _
  split
  case h_2 => exact obeys_mismatch
  next shape hshape =>
  apply Meets.bind (obeys_checkOutput hg ho)
  intro _ hdecl
  have hcount : Obeys s.graph s.lookupBits m (checkCountable shape) fun _ => True :=
    obeys_checkCountable ho hdecl.dimensions
  split
  · apply Meets.bind (obeys_output hg ho)
    intro output _
    have hn := natural_product ha hb
    dsimp only
    split
    · apply Meets.bind (meets_pure (Q := fun _ => True) trivial)
      exact fun _ _ => hcount.bind fun _ _ => obeys_product ho hn rfl
    · apply Meets.bind (obeys_size hsize)
      intro _ _
      apply Meets.bind (obeys_scratch ho)
      exact fun _ _ => hcount.bind fun _ _ => obeys_product ho hn rfl
  · apply Meets.bind (obeys_rescaled ho ha (comments_scale ho) (ha.scale ▸ .own ha.reads))
    intro _ _
    apply Meets.bind (obeys_rescaled ho hb (comments_scale ho) (hb.scale ▸ .own hb.reads))
    intro _ _
    apply Meets.bind (obeys_output hg ho)
    intro _ _
    exact hcount.bind fun _ _ => obeys_commented ho (by simp) binarySteps_moves

theorem obeys_lowerUnary [Platform] (hg : s.graph.Measured) (ho : o ∈ s.graph.operations)
    {negate : Bool} :
    Obeys s.graph s.lookupBits m (lowerUnary s o negate) fun _ => True := by
  unfold lowerUnary
  split
  case h_2 => exact obeys_wrongCount
  next ia hi =>
  apply Meets.bind (obeys_operand hg ho (by simp [hi]))
  intro a ha
  apply Meets.bind (obeys_checkOutput hg ho)
  intro _ _
  apply Meets.bind (obeys_rescaled ho ha (comments_scale ho) (ha.scale ▸ .own ha.reads))
  intro x hx
  apply Meets.bind (obeys_output hg ho)
  intro output _
  apply Meets.bind (obeys_size (hx ▸ ha.sized))
  intro count _
  exact obeys_commented ho (by simp) (moves_of_final unarySteps_final)

theorem obeys_reduction [Platform] (ho : o ∈ s.graph.operations) {r : Reduction} {shape : List Nat}
    {terms : List (List Term)} (hn : Natural s.graph o r.target.natural)
    (hs : r.target.scale = o.scale) :
    Obeys s.graph s.lookupBits m (if r.target.isWritten then
      commented o [] (reductionSteps o r shape terms)
      else breakOff o r.target (reductionStart o r shape terms)) fun _ => True := by
  split
  · exact obeys_commented ho (by simp) elements_moves
  · exact obeys_breakOff ho hn hs reductionStart_moves

theorem obeys_lowerReduction [Platform] (hg : s.graph.Measured) (ho : o ∈ s.graph.operations)
    {shape : List Nat} {terms : List (List Term)} {natural : Int}
    (hn : Natural s.graph o natural) :
    Obeys s.graph s.lookupBits m (lowerReduction s o shape terms natural) fun _ => True := by
  have hshapes : Obeys s.graph s.lookupBits m
      (o.inputs.mapM fun t => do return (← s.tensor t).shape) fun _ => True := by
    apply meets_mapM
    intro id hid
    exact (obeys_setting_tensor hg (Graph.input_required ho hid)).bind fun _ _ => meets_pure trivial
  unfold lowerReduction
  split
  · exact (obeys_output hg ho).bind fun _ _ => meets_pure trivial
  dsimp only
  split
  · apply hshapes.bind
    intro _ _
    exact (obeys_mismatch (Q := fun _ => False)).bind fun _ h => h.elim
  apply Meets.bind (obeys_output hg ho)
  intro output _
  apply Meets.ite_bind (obeys_scratch ho) (meets_pure trivial)
  intro partials _
  apply Meets.ite_bind (meets_pure trivial) (obeys_scratch ho)
  intro landing _
  exact obeys_reduction (r := ⟨s.zero, partials, _, ⟨output, landing, natural, o.scale⟩⟩) ho hn rfl

theorem obeys_lowerMatmul [Platform] (hg : s.graph.Measured) (ho : o ∈ s.graph.operations) :
    Obeys s.graph s.lookupBits m (lowerMatmul s o) fun _ => True := by
  unfold lowerMatmul
  split
  case h_2 => exact obeys_wrongCount
  next ia ib hi =>
  apply Meets.bind (obeys_operand hg ho (by simp [hi]))
  intro a ha
  apply Meets.bind (obeys_operand hg ho (by simp [hi]))
  intro b hb
  apply Meets.bind (obeys_setting_tensor hg (Graph.output_required ho))
  intro declared _
  split
  case h_2 => exact obeys_mismatch
  apply Meets.bind (obeys_checkOutput hg ho)
  intro _ hdecl
  apply Meets.bind (obeys_checkCountable ho hdecl.dimensions)
  intro _ _
  exact obeys_lowerReduction hg ho (natural_product ha hb)

theorem obeys_scalarShape [Platform] (hg : s.graph.Measured) (ho : o ∈ s.graph.operations)
    {operands : List (List Nat)} :
    Obeys s.graph s.lookupBits m (scalarShape s o operands) fun _ => True := by
  apply Meets.bind (obeys_setting_tensor hg (Graph.output_required ho))
  intro t _
  dsimp only
  split
  · exact meets_pure trivial
  · exact obeys_mismatch

theorem obeys_lowerDot [Platform] (hg : s.graph.Measured) (ho : o ∈ s.graph.operations) :
    Obeys s.graph s.lookupBits m (lowerDot s o) fun _ => True := by
  unfold lowerDot
  split
  case h_2 => exact obeys_wrongCount
  next ia ib hi =>
  apply Meets.bind (obeys_operand hg ho (by simp [hi]))
  intro a ha
  apply Meets.bind (obeys_operand hg ho (by simp [hi]))
  intro b hb
  dsimp only
  split
  · apply Meets.bind (obeys_setting_tensor hg (Graph.output_required ho))
    intro _ _
    exact (obeys_mismatch (Q := fun _ => False)).bind fun _ h => h.elim
  apply Meets.bind (obeys_scalarShape hg ho)
  intro _ _
  apply Meets.bind (obeys_size ha.sized)
  intro _ _
  exact obeys_lowerReduction hg ho (natural_product ha hb)

theorem obeys_lowerSum [Platform] (hg : s.graph.Measured) (ho : o ∈ s.graph.operations) :
    Obeys s.graph s.lookupBits m (lowerSum s o) fun _ => True := by
  unfold lowerSum
  split
  case h_2 => exact obeys_wrongCount
  next ia hi =>
  apply Meets.bind (obeys_operand hg ho (by simp [hi]))
  intro a ha
  apply Meets.bind (obeys_scalarShape hg ho)
  intro shape _
  apply Meets.bind (obeys_size ha.sized)
  intro n _
  have hsum : Obeys s.graph s.lookupBits m
      (lowerReduction s o shape (sumTerms a n.toNat) a.scale) fun _ => True :=
    obeys_lowerReduction hg ho (.inr (.inl ⟨_, ha.reads, ha.scale⟩))
  dsimp only
  split
  · exact (obeys_checkAxes ho ha.reads).bind fun _ _ => hsum
  · exact hsum

theorem obeys_convPair [Platform] {name : String} {default : Int} :
    Obeys s.graph s.lookupBits m (convPair o name default) fun _ => True := by
  unfold convPair
  split
  · exact meets_pure trivial
  · exact obeys_refuse

theorem obeys_checkWindow [Platform] (ho : o ∈ s.graph.operations) {c : Window} {x w : Operand}
    (hx : Fresh s.graph o x) (hw : Fresh s.graph o w) {stride pad : Int × Int}
    (hc : window? x.shape w.shape stride pad = some c) (hd : Declares s.graph o c.outShape) :
    Obeys s.graph s.lookupBits m (checkWindow c) fun _ => True := by
  have hkernel : Dimensions s.graph o [c.channels, c.kernelHeight, c.kernelWidth] := by
    unfold window? at hc
    split at hc
    case h_2 => exact absurd hc (by simp)
    next hxs hws =>
    obtain rfl := Option.some.inj hc
    have hxs : x.tensor.shape = _ := hxs
    have hws : w.tensor.shape = _ := hws
    intro d hd
    rcases List.mem_cons.1 hd with rfl | hd
    · exact ⟨x.tensor, .inl hx.reads, by simp [hxs]⟩
    · exact ⟨w.tensor, .inl hw.reads, by rw [hws]; simp_all⟩
  apply Meets.bind (obeys_checkCountable ho hd.dimensions)
  intro _ _
  split
  · exact obeys_checkCountable ho hkernel
  · exact meets_pure trivial

theorem obeys_lowerConv [Platform] (hg : s.graph.Measured) (ho : o ∈ s.graph.operations) :
    Obeys s.graph s.lookupBits m (lowerConv s o) fun _ => True := by
  unfold lowerConv
  split
  case h_2 => exact obeys_wrongCount
  next ix iw others hi =>
  apply Meets.guard obeys_wrongCount
  apply Meets.bind (obeys_operand hg ho (by simp [hi]))
  intro x hx
  apply Meets.bind (obeys_operand hg ho (by simp [hi]))
  intro w hw
  apply Meets.bind (obeys_setting_tensor hg (Graph.output_required ho))
  intro declared _
  apply Meets.guard obeys_mismatch
  apply Meets.bind obeys_convPair
  intro stride _
  apply Meets.bind obeys_convPair
  intro pad _
  apply Meets.guard obeys_refuse
  split
  case h_2 => exact obeys_mismatch
  next c hc =>
  apply Meets.guard obeys_mismatch
  split
  · apply Meets.bind (obeys_checkOutput hg ho)
    intro _ hd
    apply Meets.bind (obeys_checkWindow ho hx hw hc hd)
    intro _ _
    exact obeys_lowerReduction hg ho (natural_product hx hw)
  · apply Meets.bind (obeys_operand hg ho (by simp [hi]))
    intro b hb
    apply Meets.guard obeys_mismatch
    apply Meets.bind (obeys_rescaled ho hb ((natural_product hx hw).comments ho) _)
    · intro _ _
      apply Meets.bind (obeys_checkOutput hg ho)
      intro _ hd
      apply Meets.bind (obeys_checkWindow ho hx hw hc hd)
      intro _ _
      exact obeys_lowerReduction hg ho (natural_product hx hw)
    · rw [hx.scale, hw.scale, hb.scale]
      exact .product hb.reads hx.reads hw.reads

theorem readBreakpoints_ends [Platform] (ho : o ∈ s.graph.operations)
    (hk : o.kind? = some .piecewiseLinear) {f : Fault} (h : Table.readBreakpoints o = .error f) :
    Ends s.graph s.lookupBits m f := by
  unfold Table.readBreakpoints at h
  split at h
  · next p q rest hp =>
      split at h
      · next hr =>
          obtain rfl := Except.error.inj h
          exact .inr (.inl (.breakpoints ho hk hp hr))
      · exact .inl (Except.error.inj h ▸ declined_circuit _)
      · exact absurd h (by simp)
  · exact .inl (Except.error.inj h ▸ declined_circuit _)

theorem specFor_ends [Platform] (ho : o ∈ s.graph.operations) {inScale : Int} {f : Fault}
    (h : Table.specFor o inScale s.lookupBits = .error f) : Ends s.graph s.lookupBits m f := by
  have hbits {f : Fault} (hf : Table.readBits o s.lookupBits = .error f) : Declined f := by
    unfold Table.readBits at hf
    dsimp only at hf
    split at hf
    · split at hf
      · exact absurd hf (by simp)
      · exact Except.error.inj hf ▸ declined_circuit _
    · exact Except.error.inj hf ▸ declined_circuit _
  unfold Table.specFor at h
  split at h
  · next hf =>
      obtain rfl := Except.error.inj h
      exact .inl (hbits hf)
  dsimp only at h
  split at h
  · next hk => exact .inr (.inl (.alpha ho hk (Sequences.map_error h)))
  · next hk => exact readBreakpoints_ends ho hk (Sequences.map_error h)
  · exact absurd h (by simp)

theorem specFor_comments [Platform] (ho : o ∈ s.graph.operations) {t : Tensor}
    (ht : s.graph.Reads o t) {spec : Table.Spec}
    (h : Table.specFor o t.scale s.lookupBits = .ok spec) :
    ∀ n ∈ spec.numbers, Comments s.graph s.lookupBits m n := by
  obtain ⟨bits, alpha, points, hb, rfl⟩ := Table.specFor_eq h
  have hbits : Numeral.isWritable bits = true := by
    have hbounds := Table.readBits_bounds hb
    have hmax : Table.maxBits = 24 := rfl
    exact Numeral.isWritable_of_lt (k := 2) (by omega) (by decide)
  intro n hn
  rcases List.mem_cons.1 hn with rfl | hn
  · exact comments_read ho ht
  rcases List.mem_cons.1 hn with rfl | hn
  · exact comments_scale ho
  · rw [List.mem_singleton.1 hn]
    intro hw
    exact absurd hbits (by simp [hw])

theorem obeys_lowerLookup [Platform] (hg : s.graph.Measured) (ho : o ∈ s.graph.operations)
    {k : Kind} (hk : o.kind? = some k) (hc : k.category = .nonlinearity) :
    Obeys s.graph s.lookupBits m (lowerLookup s o) fun _ => True := by
  unfold lowerLookup
  split
  case h_2 => exact obeys_wrongCount
  next ia hi =>
  apply Meets.bind (obeys_operand hg ho (by simp [hi]))
  intro a ha
  apply Meets.bind (obeys_checkOutput hg ho)
  intro _ _
  apply Meets.bind (meets_ofExcept fun f hf => specFor_ends ho hf)
  intro spec hs
  rw [ha.scale] at hs
  apply Meets.bind (obeys_table ⟨o, ho, _, ha.reads, hs⟩
    (fun f hf => .inr (.inl (.table ho ha.reads hk hc hs hf))) (specFor_comments ho ha.reads hs))
  intro table _
  apply Meets.bind (obeys_output hg ho)
  intro output _
  apply Meets.bind (obeys_size ha.sized)
  intro n _
  exact obeys_commented ho (by simp) (moves_of_final (by simp [lookupSteps]))

theorem obeys_clampBounds [Platform] :
    Obeys s.graph s.lookupBits m (clampBounds o) fun _ => True := by
  unfold clampBounds
  split
  · exact meets_pure trivial
  · exact meets_pure trivial
  · split
    · split
      · exact obeys_refuse
      · exact meets_pure trivial
    · exact obeys_refuse
  · exact obeys_refuse

theorem obeys_lowerRescale [Platform] (hg : s.graph.Measured) (ho : o ∈ s.graph.operations) :
    Obeys s.graph s.lookupBits m (lowerRescale s o) fun _ => True := by
  unfold lowerRescale
  split
  case h_2 => exact obeys_wrongCount
  next ia hi =>
  apply Meets.bind (obeys_operand hg ho (by simp [hi]))
  intro a ha
  apply Meets.bind (obeys_checkOutput hg ho)
  intro _ _
  apply Meets.bind obeys_clampBounds
  intro bounds _
  apply Meets.bind (obeys_output hg ho)
  intro output _
  apply Meets.bind (obeys_size ha.sized)
  intro n _
  dsimp only
  split
  · apply obeys_commented ho _ (moves_of_final (by simp [rescaleSteps]))
    exact List.forall_mem_cons.2 ⟨ha.scale ▸ comments_read ho ha.reads,
      List.forall_mem_singleton.2 (comments_scale ho)⟩
  · apply Meets.bind (obeys_rescaled ho ha (comments_scale ho) (ha.scale ▸ .own ha.reads))
    intro _ _
    exact obeys_commented ho (by simp) (moves_of_final (by simp [clampSteps]))

theorem obeys_lowerKind [Platform] (hg : s.graph.Measured) (ho : o ∈ s.graph.operations) {k : Kind}
    (hk : o.kind? = some k) : Obeys s.graph s.lookupBits m (lowerKind s o k) fun _ => True := by
  cases k <;> rw [lowerKind]
  case add | sub | mul => exact obeys_lowerBinary hg ho
  case neg | identity => exact obeys_lowerUnary hg ho
  case matmul => exact obeys_lowerMatmul hg ho
  case dot => exact obeys_lowerDot hg ho
  case conv => exact obeys_lowerConv hg ho
  case sum => exact obeys_lowerSum hg ho
  case rescale => exact obeys_lowerRescale hg ho
  all_goals exact obeys_lowerLookup hg ho hk rfl

theorem obeys_lowerNode [Platform] (hg : s.graph.Measured) (ho : o ∈ s.graph.operations) :
    Obeys s.graph s.lookupBits m (lowerNode s o) fun _ => True := by
  unfold lowerNode
  split
  · exact meets_throw (.inl ⟨_, rfl, by simp [CompileError.kind, refusals]⟩)
  · next k hk =>
      apply Meets.bind (meets_modify fun _ hd => ⟨hd.tables, hd.journal⟩)
      intro _ _
      apply Meets.bind (obeys_lowerKind hg ho hk)
      intro _ _
      apply Meets.bind meets_get
      intro d _
      apply Meets.bind (meets_modify fun _ hd => ⟨hd.tables, hd.journal⟩)
      intro _ _
      exact obeys_note (show Event.Lawful s.graph (.lowered _) from trivial)

theorem obeys_control [Platform] {g : Graph} {lookupBits : Json} {name : String} :
    Obeys g lookupBits m (request (·.control name)) fun _ => True := by
  apply obeys_request
  intro a f h
  unfold Allocator.control at h
  split at h
  · exact absurd h (by simp)
  · exact place_ends h

theorem obeys_lowerGraph [Platform] {g : Graph} {lookupBits : Json} (hg : g.Measured)
    (hids : (g.operations.map (·.id)).Nodup) :
    Obeys g lookupBits m (lowerGraph g lookupBits) fun _ => True := by
  apply Meets.bind obeys_control
  intro zero _
  let s : Setting := ⟨g, lookupBits, zero.absolute⟩
  dsimp only
  split
  · exact obeys_refuse (s := s)
  next order horder =>
  have hnodes : Obeys g lookupBits m (order.forM (lowerNode s)) fun _ => True := by
    apply meets_forM
    intro o ho
    exact obeys_lowerNode (s := s) hg ((Graph.order_perm hids horder).mem_iff.1 ho)
  have houtputs : Obeys g lookupBits m
      (g.outputs.forM fun id => do let _ ← Emit.tensor (← s.tensor id)) fun _ => True := by
    apply meets_forM
    intro id hid
    apply Meets.bind (obeys_setting_tensor (s := s) hg (Graph.mem_required.2 (.inl hid)))
    rintro t ⟨-, ht⟩
    exact (obeys_tensor ht).bind fun _ _ => meets_pure trivial
  exact hnodes.bind fun _ _ => houtputs.bind fun _ _ => meets_pure trivial

theorem plan_ends [Platform] {g : Graph} (hg : g.Measured) (hids : (g.operations.map (·.id)).Nodup)
    (layout : Layout) (lookupBits : Json) (m : Int) :
    (∀ e ∈ (plan g layout lookupBits).2, e.Lawful g) ∧
      match (plan g layout lookupBits).1 with
      | .ok p => ∀ t ∈ p.tables, Asked g lookupBits t.spec
      | .error f => Ends g lookupBits m f := by
  have hempty : Draft.Lawful g lookupBits (emptyDraft g layout) :=
    ⟨by simp [emptyDraft], by simp [emptyDraft]⟩
  have h := obeys_lowerGraph (m := m) hg hids (emptyDraft g layout) hempty
  unfold plan
  rcases hr : ExceptT.run (lowerGraph g lookupBits) (emptyDraft g layout) with ⟨_ | zero, d⟩
  · rw [hr] at h
    exact ⟨h.1.journal, h.2⟩
  · rw [hr] at h
    exact ⟨h.1.journal, h.1.tables⟩

end TensorAsm.Lowering
