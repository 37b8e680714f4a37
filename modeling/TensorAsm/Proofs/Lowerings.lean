import TensorAsm.Proofs.Templates
/-!
Runs of the lowering of an operation, function by function: each goes through its template.
-/

namespace TensorAsm.Lowering

open Stateful

section

variable {α : Type} {d d' : Draft} {a : α} {o : Circuit.Operation}

@[simp] theorem yields_refuse {f : CircuitDefect} :
    (refuse f : Emit α).Yields d a d' ↔ False := by
  simp [refuse]

@[simp] theorem yields_wrongCount {allowed : List Nat} :
    (wrongCount o allowed : Emit α).Yields d a d' ↔ False := by
  simp [wrongCount]

@[simp] theorem yields_mismatch {operands : List (List Nat)} {output : List Nat}
    {c : ShapeComplaint} : (mismatch o operands output c : Emit α).Yields d a d' ↔ False := by
  simp [mismatch]

@[simp] theorem yields_size {t : Circuit.Tensor} {n : Int} :
    (size t : Emit Int).Yields d n d' ↔ t.size? = .ok n ∧ d = d' :=
  yields_ofExcept

@[simp] theorem yields_checkAxes [Platform] {shape : List Nat} {u : Unit} :
    (checkAxes shape : Emit Unit).Yields d u d' ↔ shape.length ≤ Platform.axisLimit ∧ d = d' := by
  simp [checkAxes]

@[simp] theorem yields_checkCountable [Platform] {shape : List Nat} {u : Unit} :
    (checkCountable shape : Emit Unit).Yields d u d' ↔ Shape.isCountable shape = true ∧ d = d' := by
  simp [checkCountable]

@[simp] theorem yields_tensor {s : Setting} {id : String} {t : Circuit.Tensor} :
    (s.tensor id : Emit Circuit.Tensor).Yields d t d' ↔ s.graph.tensor? id = some t ∧ d = d' := by
  unfold Setting.tensor
  split <;> simp_all

@[simp] theorem yields_checkOutput {s : Setting} {operands : List (List Nat)}
    {expected : List Nat} {u : Unit} :
    (s.checkOutput o operands expected : Emit Unit).Yields d u d' ↔
      ∃ t, s.graph.tensor? o.output = some t ∧ t.shape = expected ∧ d = d' := by
  simp [Setting.checkOutput]
  grind

end

variable {s : Setting} {o : Circuit.Operation} {d d' e : Draft} {xs ys : List Event}

theorem Placed.mono [Platform] {g : Circuit.Graph} {id : String} {x : Operand}
    (h : Extends g d xs d') (hp : Placed g d.allocator id x) : Placed g d'.allocator id x := by
  obtain ⟨b, hb, hx⟩ := hp.base
  exact ⟨hp.tensor, ⟨b, h.retains hb, hx⟩, hp.scale⟩

theorem operand_writes [Platform] (hg : s.graph.Measured) {id : String}
    (hid : id ∈ s.graph.required) {x : Operand} (h : (s.operand id).Yields d x d') :
    ∃ evs, Writes s.graph d evs d' ∧ Placements evs ∧ Placed s.graph d'.allocator id x := by
  simp only [Setting.operand, yields_bind, yields_tensor, yields_pure] at h
  obtain ⟨t, _, ⟨ht, rfl⟩, address, _, h, rfl, rfl⟩ := h
  obtain ⟨evs, b, hw, hp, hb, rfl⟩ := tensor_writes hg hid ht h
  exact ⟨evs, hw, hp, ht, ⟨b, hb, rfl⟩, rfl⟩

theorem output_writes [Platform] (hg : s.graph.Measured) (ho : o ∈ s.graph.operations)
    {t : Circuit.Tensor} (ht : s.graph.tensor? o.output = some t) {base : Int}
    (h : (s.output o).Yields d base d') :
    ∃ evs, Writes s.graph d evs d' ∧ Placements evs ∧
      Placed s.graph d'.allocator o.output ⟨t, base, t.scale⟩ := by
  simp only [Setting.output, yields_bind, yields_tensor, yields_pure] at h
  obtain ⟨u, _, ⟨hu, rfl⟩, address, _, h, rfl, rfl⟩ := h
  obtain rfl : u = t := Option.some.inj (hu.symm.trans ht)
  obtain ⟨evs, b, hw, hp, hb, rfl⟩ :=
    tensor_writes hg (Circuit.Graph.output_required ho) hu h
  exact ⟨evs, hw, hp, ht, ⟨b, hb, rfl⟩, rfl⟩

theorem rescaled_writes [Platform] {x x' : Operand} {target : Int} {purpose : String}
    (hx : x.tensor.size? = .ok (Shape.volume x.shape : Int))
    (h : (rescaled o x target purpose).Yields d x' d') :
    ∃ evs, Writes s.graph d evs d' ∧
      Brought o x target x' (ofKind .scratch (blocksOf evs)) (stepsOf evs) := by
  unfold rescaled at h
  simp only [yields_ite, yields_pure, yields_bind, yields_size] at h
  rcases h with ⟨hs, rfl, rfl⟩ | ⟨hs, n, _, ⟨hn, rfl⟩, base, e, hb, h⟩
  · exact ⟨[], .refl, .same hs⟩
  obtain rfl : n = (Shape.volume x.shape : Int) := Except.ok.inj (hn.symm.trans hx)
  obtain ⟨b, hown, rfl, hw⟩ := scratch_writes (g := s.graph) (Int.natCast_nonneg _) hb
  rw [Int.toNat_natCast] at h
  have hc : Brought o x target ⟨x.tensor, b.address.absolute, target⟩ [b] _ := .copied hs hown
  split at h
  · next hnil =>
      obtain ⟨rfl, rfl⟩ := yields_pure.1 h
      refine ⟨_, hw, ?_⟩
      rw [hnil] at hc
      simpa [hown.scratch] using hc
  · next first more hcons =>
      simp only [yields_bind, yields_checkAxes, yields_ite, yields_pure] at h
      obtain ⟨_, _, ⟨-, rfl⟩, h⟩ := h
      rcases h with ⟨hbad, _, _, -, _, _, h, -, -⟩ | ⟨-, _, _, h, rfl, rfl⟩
      · have hall := (commented_writes (g := s.graph) h).1 (by rw [hcons]; simp)
        simp only [List.all_cons, Bool.and_eq_true] at hall hbad
        simp [hall] at hbad
      · obtain ⟨-, hw'⟩ := commented_writes (g := s.graph) h
        refine ⟨_, hw.trans hw', ?_⟩
        simpa [hown.scratch] using hc

theorem breakOff_yields {t : Target} {start : List Step} (ht : t.isWritten = false)
    (h : (breakOff o t start).Yields d () d') :
    start = [] ∧ (Emit.commented o [] []).Yields d () d' := by
  unfold breakOff at h
  simp only [yields_bind, yields_ite, yields_checkWritten, yields_pure] at h
  obtain ⟨_, _, hc, h⟩ := h
  rcases h with ⟨-, hn, -⟩ | ⟨he, -, rfl⟩
  · simp [Target.isWritten, hn] at ht
  · obtain rfl : start = [] := by simpa using he
    exact ⟨rfl, hc⟩

theorem breakOff_writes [Platform] {t : Target} {start : List Step} (ht : t.isWritten = false)
    (h : (breakOff o t start).Yields d () d') :
    start = [] ∧ Writes s.graph d [.emitted o.id []] d' := by
  obtain ⟨hs, hc⟩ := breakOff_yields ht h
  exact ⟨hs, (commented_writes hc).2⟩

theorem product_writes [Platform] {x y : Operand} {shape : List Nat} {t : Target}
    (h : (if t.isWritten then Emit.commented o [] (binarySteps o .mul x y shape t)
      else breakOff o t (binaryStart o .mul x y shape t)).Yields d () d') :
    Writes s.graph d [.emitted o.id (binarySteps o .mul x y shape t)] d' := by
  split at h
  · exact (commented_writes h).2
  · next ht =>
      obtain ⟨hs, hw⟩ := breakOff_writes (s := s) (by simpa using ht) h
      have hi : Shape.indices shape = [] := by simpa [binaryStart] using hs
      rwa [binarySteps, hi]

theorem reduction_writes [Platform] {r : Reduction} {shape : List Nat} {first : List Term}
    {more : List (List Term)} (hf : first ≠ [])
    (hl : (first :: more).length = (Shape.indices shape).length)
    (h : (if r.target.isWritten then Emit.commented o [] (reductionSteps o r shape (first :: more))
      else breakOff o r.target (reductionStart o r shape (first :: more))).Yields d () d') :
    Writes s.graph d [.emitted o.id (reductionSteps o r shape (first :: more))] d' := by
  split at h
  · exact (commented_writes h).2
  · next ht =>
      obtain ⟨hs, -⟩ := breakOff_writes (s := s) (by simpa using ht) h
      unfold reductionStart at hs
      cases hi : Shape.indices shape with
      | nil => simp [hi] at hl
      | cons index rest =>
        obtain ⟨u, us, rfl⟩ := List.exists_cons_of_ne_nil hf
        simp [hi, Reduction.chain] at hs

/-- Tensors have been placed, and nothing else has been done. -/
structure Gathers [Platform] (s : Setting) (ids : List String) (d : Draft) (ins : List Event)
    (d' : Draft) : Prop where
  writes : Writes s.graph d ins d'
  placements : Placements ins
  inputs : ∀ id ∈ ids, ∃ b ∈ d'.allocator.allocations, b.kind = .tensor ∧ b.name = id

theorem Gathers.lowers [Platform] {ins rest : List Event} (h : Gathers s o.inputs d ins e)
    (hw : Writes s.graph e rest d')
    (ht : Template s.graph s.lookupBits s.zero d'.allocator d'.tables o
      (ofKind .scratch (blocksOf rest)) (stepsOf rest)) : Lowers s o d ins rest d' :=
  ⟨h.writes.trans hw, h.placements, h.writes.allocations ▸ h.inputs, ht⟩

theorem Gathers.snoc [Platform] (hg : s.graph.Measured) (hd : Sound s.graph d.allocator d.tables)
    {ids : List String} {id : String}
    (hid : id ∈ s.graph.required) {x : Operand} (h : Gathers s ids d xs e)
    (hx : (s.operand id).Yields e x d') :
    ∃ ys, Gathers s (ids ++ [id]) d (xs ++ ys) d' ∧ Extends s.graph e ys d' ∧
      Placed s.graph d'.allocator id x ∧ x.tensor.size? = .ok (Shape.volume x.shape : Int) := by
  obtain ⟨ys, hw, hp, px⟩ := operand_writes hg hid hx
  refine ⟨ys, ⟨h.writes.trans hw, h.placements.append hp, ?_⟩, hw.toExtends, px,
    hg.size_eq hid px.tensor⟩
  intro i hi
  rcases List.mem_append.1 hi with hi | hi
  · obtain ⟨b, hb, hrest⟩ := h.inputs i hi
    exact ⟨b, by simp [hw.allocations, hb], hrest⟩
  · obtain rfl := List.mem_singleton.1 hi
    obtain ⟨b, hb, -⟩ := px.base
    obtain ⟨hm, hk, hn⟩ := ((h.writes.trans hw).sound hd).coherent.bound_mem hb
    exact ⟨b, hm, hk, hn⟩

theorem gather_one [Platform] (hg : s.graph.Measured) (ho : o ∈ s.graph.operations)
    (hd : Sound s.graph d.allocator d.tables) {i : String}
    {more : List String} (hi : o.inputs = i :: more) {x : Operand}
    (hx : (s.operand i).Yields d x d') :
    ∃ ins, Gathers s [i] d ins d' ∧ Placed s.graph d'.allocator i x ∧
      x.tensor.size? = .ok (Shape.volume x.shape : Int) := by
  have h : Gathers s [] d [] d := ⟨.refl, .nil, by simp⟩
  obtain ⟨ys, h, -, hrest⟩ := h.snoc hg hd (Circuit.Graph.input_required ho (by simp [hi])) hx
  exact ⟨_, h, hrest⟩

theorem gather_two [Platform] (hg : s.graph.Measured) (ho : o ∈ s.graph.operations)
    (hd : Sound s.graph d.allocator d.tables) {i j : String}
    {more : List String} (hi : o.inputs = i :: j :: more) {x y : Operand}
    (hx : (s.operand i).Yields d x e) (hy : (s.operand j).Yields e y d') :
    ∃ ins, Gathers s [i, j] d ins d' ∧ Placed s.graph d'.allocator i x ∧
      Placed s.graph d'.allocator j y ∧ x.tensor.size? = .ok (Shape.volume x.shape : Int) ∧
      y.tensor.size? = .ok (Shape.volume y.shape : Int) := by
  obtain ⟨xs, h, px, hsx⟩ := gather_one hg ho hd hi hx
  obtain ⟨ys, h, he, py, hsy⟩ := h.snoc hg hd (Circuit.Graph.input_required ho (by simp [hi])) hy
  exact ⟨_, h, px.mono he, py, hsx, hsy⟩

theorem lowerUnary_lowers [Platform] (hg : s.graph.Measured) (ho : o ∈ s.graph.operations)
    (hd : Sound s.graph d.allocator d.tables) {negate : Bool}
    (hk : (o.kind? = some .neg ∧ negate = true) ∨ (o.kind? = some .identity ∧ negate = false))
    (h : (lowerUnary s o negate).Yields d () d') : ∃ ins rest, Lowers s o d ins rest d' := by
  unfold lowerUnary at h
  split at h
  · next ia hi =>
      simp only [yields_bind, yields_checkOutput, yields_size] at h
      obtain ⟨x, _, hx, _, _, ⟨t, ht, hs, rfl⟩, x', _, hx', out, _, hout, n, _, ⟨hn, rfl⟩, h⟩ := h
      obtain ⟨ins, hins, px, hsize⟩ := gather_one hg ho hd hi hx
      rw [← hi] at hins
      obtain ⟨cs, w₁, hb⟩ := rescaled_writes (s := s) hsize hx'
      obtain ⟨ps, w₂, hps, pout⟩ := output_writes hg ho ht hout
      obtain ⟨-, w₃⟩ := commented_writes (g := s.graph) h
      obtain rfl : n = (Shape.volume x.shape : Int) := by
        rw [hb.tensor_eq] at hn
        exact Except.ok.inj (hn.symm.trans hsize)
      have hw := w₁.trans (w₂.trans w₃)
      have ht : Template s.graph s.lookupBits s.zero d'.allocator d'.tables o _ _ :=
        .unary hk hi (px.mono hw.toExtends) (pout.mono w₃.toExtends) hs hb
      exact ⟨ins, _, hins.lowers hw (by simpa [hps] using ht)⟩
  · exact absurd h (by simp)

theorem lowerBinary_linear [Platform] (hg : s.graph.Measured) (ho : o ∈ s.graph.operations)
    (hd : Sound s.graph d.allocator d.tables) {op : Arithmetic}
    (hk : (o.kind? = some .add ∧ op = .add) ∨ (o.kind? = some .sub ∧ op = .sub))
    (h : (lowerBinary s o op).Yields d () d') : ∃ ins rest, Lowers s o d ins rest d' := by
  have hne : op ≠ .mul := by rcases hk with ⟨-, rfl⟩ | ⟨-, rfl⟩ <;> simp
  unfold lowerBinary at h
  split at h
  · next ia ib hi =>
      simp only [yields_bind, yields_tensor, yields_checkAxes] at h
      obtain ⟨x, _, hx, y, _, hy, t, _, ⟨ht, rfl⟩, _, _, ⟨-, rfl⟩, _, _, ⟨-, rfl⟩, h⟩ := h
      obtain ⟨ins, hins, px, py, hsx, hsy⟩ := gather_two hg ho hd hi hx hy
      rw [← hi] at hins
      split at h
      · next shape hb =>
          rw [yields_bind] at h
          obtain ⟨_, _, hc, h⟩ := h
          obtain ⟨u, hu, rfl, rfl⟩ := yields_checkOutput.1 hc
          obtain rfl : u = t := Option.some.inj (hu.symm.trans ht)
          simp only [yields_bind, yields_checkCountable] at h
          obtain ⟨x', _, hx', y', _, hy', out, _, hout, _, _, ⟨-, rfl⟩, h⟩ := h
          obtain ⟨as, w₁, hba⟩ := rescaled_writes (s := s) hsx hx'
          obtain ⟨bs, w₂, hbb⟩ := rescaled_writes (s := s) hsy hy'
          obtain ⟨ps, w₃, hps, pout⟩ := output_writes hg ho ht hout
          obtain ⟨-, w₄⟩ := commented_writes (g := s.graph) h
          have hw := w₁.trans (w₂.trans (w₃.trans w₄))
          have ht : Template s.graph s.lookupBits s.zero d'.allocator d'.tables o _ _ :=
            .linear hk hi (px.mono hw.toExtends) (py.mono hw.toExtends) (pout.mono w₄.toExtends)
              hb hba hbb
          exact ⟨ins, _, hins.lowers hw (by simpa [hps, Operand.shape] using ht)⟩
      · exact absurd h (by simp)
  · exact absurd h (by simp)

theorem landing_writes [Platform] {natural size out landing : Int} {purpose : String}
    (hs : 0 ≤ size) (h : (natural = o.scale ∧ out = landing ∧ d = e) ∨
      (¬ natural = o.scale ∧ (Emit.scratch o purpose size).Yields d landing e)) :
    ∃ evs, Writes s.graph d evs e ∧ stepsOf evs = [] ∧
      Landing o natural size out ⟨out, landing, natural, o.scale⟩
        (ofKind .scratch (blocksOf evs)) := by
  rcases h with ⟨hn, rfl, rfl⟩ | ⟨hn, h⟩
  · exact ⟨[], .refl, rfl, .direct hn⟩
  · obtain ⟨b, hown, rfl, hw⟩ := scratch_writes (g := s.graph) hs h
    refine ⟨_, hw, by simp, ?_⟩
    simpa [hown.scratch] using Landing.apart hn hown

theorem lowerBinary_product [Platform] (hg : s.graph.Measured) (ho : o ∈ s.graph.operations)
    (hd : Sound s.graph d.allocator d.tables)
    (hk : o.kind? = some .mul) (h : (lowerBinary s o .mul).Yields d () d') :
    ∃ ins rest, Lowers s o d ins rest d' := by
  unfold lowerBinary at h
  split at h
  · next ia ib hi =>
      simp only [yields_bind, yields_tensor, yields_checkAxes] at h
      obtain ⟨x, _, hx, y, _, hy, t, _, ⟨ht, rfl⟩, _, _, ⟨-, rfl⟩, _, _, ⟨-, rfl⟩, h⟩ := h
      obtain ⟨ins, hins, px, py, -, -⟩ := gather_two hg ho hd hi hx hy
      rw [← hi] at hins
      split at h
      · next shape hb =>
          simp only [yields_bind, yields_checkOutput] at h
          obtain ⟨_, _, ⟨u, hu, rfl, rfl⟩, out, d₁, hout, h⟩ := h
          obtain rfl : u = t := Option.some.inj (hu.symm.trans ht)
          obtain ⟨ps, w₁, hps, pout⟩ := output_writes hg ho ht hout
          have hsize := hg.size_eq (Circuit.Graph.output_required ho) ht
          obtain ⟨landing, d₂, hl, w₃⟩ : ∃ landing d₂,
              ((x.scale + y.scale = o.scale ∧ out = landing ∧ d₁ = d₂) ∨
                (¬ x.scale + y.scale = o.scale ∧
                  (Emit.scratch o "product" (Shape.volume u.shape)).Yields d₁ landing d₂)) ∧
              Writes s.graph d₂ [.emitted o.id (binarySteps o .mul x y u.shape
                ⟨out, landing, x.scale + y.scale, o.scale⟩)] d' := by
            rw [yields_ite] at h
            simp only [yields_bind, yields_pure, yields_size, yields_checkCountable] at h
            rcases h with ⟨hn, _, _, ⟨rfl, rfl⟩, _, _, ⟨-, rfl⟩, h⟩ |
              ⟨hn, n, _, ⟨hsz, rfl⟩, landing, _, hl, _, _, ⟨-, rfl⟩, h⟩
            · exact ⟨out, _, .inl ⟨hn, rfl, rfl⟩, product_writes h⟩
            · obtain rfl := Except.ok.inj (hsz.symm.trans hsize)
              exact ⟨landing, _, .inr ⟨hn, hl⟩, product_writes h⟩
          obtain ⟨ls, w₂, hls, hland⟩ := landing_writes (s := s) (Int.natCast_nonneg _) hl
          have hw := w₁.trans (w₂.trans w₃)
          have ht : Template s.graph s.lookupBits s.zero d'.allocator d'.tables o _ _ :=
            .product hk hi (px.mono hw.toExtends) (py.mono hw.toExtends)
              (pout.mono (w₂.trans w₃).toExtends) hb hland
          exact ⟨ins, _, hins.lowers hw (by simpa [hps, hls, Operand.shape] using ht)⟩
      · exact absurd h (by simp)
  · exact absurd h (by simp)

theorem partials_writes [Platform] {count n : Nat} {partials : Int} (hc : 0 < n)
    (h : (1 < n ∧ (Emit.scratch o "partial" (count * ((n : Int) - 1))).Yields d partials e) ∨
      (¬ 1 < n ∧ 0 = partials ∧ d = e)) :
    ∃ evs, Writes s.graph d evs e ∧ stepsOf evs = [] ∧
      Partials o count n partials (ofKind .scratch (blocksOf evs)) := by
  rcases h with ⟨hn, h⟩ | ⟨hn, rfl, rfl⟩
  · have hs : 0 ≤ (count : Int) * ((n : Int) - 1) := Int.mul_nonneg (by omega) (by omega)
    obtain ⟨b, hown, rfl, hw⟩ := scratch_writes (g := s.graph) hs h
    refine ⟨_, hw, by simp, ?_⟩
    simpa [hown.scratch] using Partials.chained hn hown
  · exact ⟨[], .refl, rfl, .single (by omega)⟩

theorem lowerReduction_writes [Platform] (hg : s.graph.Measured) (ho : o ∈ s.graph.operations)
    {t : Circuit.Tensor} (ht : s.graph.tensor? o.output = some t) {shape : List Nat}
    {terms : List (List Term)} {natural : Int} (hl : terms.length = (Shape.indices shape).length)
    (h : (lowerReduction s o shape terms natural).Yields d () d') :
    ∃ evs out, Writes s.graph d evs d' ∧
      Placed s.graph d'.allocator o.output ⟨t, out, t.scale⟩ ∧
      Reduced s.zero o natural shape out terms (ofKind .scratch (blocksOf evs)) (stepsOf evs) := by
  unfold lowerReduction at h
  cases terms with
  | nil =>
    simp only [yields_bind, yields_pure] at h
    obtain ⟨out, _, hout, -, rfl⟩ := h
    obtain ⟨ps, w, hps, pout⟩ := output_writes hg ho ht hout
    refine ⟨ps, out, w, pout, ?_⟩
    rw [hps.scratch, hps.steps]
    exact .empty rfl
  | cons first more =>
    rw [yields_ite] at h
    rcases h with ⟨-, h⟩ | ⟨hn, h⟩
    · simp at h
    obtain ⟨out, d₁, hout, h⟩ := yields_bind.1 h
    obtain ⟨partials, d₂, hp, h⟩ := yields_ite_bind.1 h
    obtain ⟨landing, d₃, hland, h⟩ := yields_ite_bind.1 h
    rw [yields_pure] at hp hland
    obtain ⟨os, w₁, hos, pout⟩ := output_writes hg ho ht hout
    obtain ⟨ps, w₂, hps, hp⟩ := partials_writes (s := s) (by omega) hp
    obtain ⟨ls, w₃, hls, hland⟩ := landing_writes (s := s) (Int.natCast_nonneg _) hland
    have hf : first ≠ [] := by
      rintro rfl
      simp at hn
    have w₄ := reduction_writes (s := s) hf hl h
    have hw := w₂.trans (w₃.trans w₄)
    have hr : Reduced s.zero o natural shape out (first :: more) _ _ :=
      .chains hn (by simp) hp hland
    exact ⟨_, out, w₁.trans hw, pout.mono hw.toExtends, by simpa [hos, hps, hls] using hr⟩

theorem length_matmulTerms {x y : Operand} {k n : Nat} {shape : List Nat} :
    (matmulTerms x y k n shape).length = (Shape.indices shape).length := by
  simp [matmulTerms]

theorem lowerMatmul_lowers [Platform] (hg : s.graph.Measured) (ho : o ∈ s.graph.operations)
    (hd : Sound s.graph d.allocator d.tables)
    (hk : o.kind? = some .matmul) (h : (lowerMatmul s o).Yields d () d') :
    ∃ ins rest, Lowers s o d ins rest d' := by
  unfold lowerMatmul at h
  split at h
  · next ia ib hi =>
      simp only [yields_bind, yields_tensor] at h
      obtain ⟨x, _, hx, y, _, hy, t, _, ⟨ht, rfl⟩, h⟩ := h
      obtain ⟨ins, hins, px, py, -, -⟩ := gather_two hg ho hd hi hx hy
      rw [← hi] at hins
      split at h
      · next k n shape hp =>
          simp only [yields_bind, yields_checkOutput, yields_checkCountable] at h
          obtain ⟨_, _, ⟨u, hu, rfl, rfl⟩, _, _, ⟨-, rfl⟩, h⟩ := h
          obtain rfl : u = t := Option.some.inj (hu.symm.trans ht)
          obtain ⟨evs, out, hw, pout, hr⟩ :=
            lowerReduction_writes hg ho ht length_matmulTerms h
          have ht : Template s.graph s.lookupBits s.zero d'.allocator d'.tables o _ _ :=
            .reduction (.matmul hk hi (px.mono hw.toExtends) (py.mono hw.toExtends) hp) pout hr
          exact ⟨ins, evs, hins.lowers hw (by simpa using ht)⟩
      · exact absurd h (by simp)
  · exact absurd h (by simp)

theorem scalarShape_yields {operands : List (List Nat)} {shape : List Nat}
    (h : (scalarShape s o operands : Emit (List Nat)).Yields d shape d') :
    (∃ t, s.graph.tensor? o.output = some t ∧ t.shape = shape) ∧ (shape = [] ∨ shape = [1]) ∧
      d = d' := by
  simp only [scalarShape, yields_bind, yields_tensor, yields_ite, yields_pure,
    yields_mismatch, and_false, or_false] at h
  obtain ⟨t, _, ⟨ht, rfl⟩, hs, rfl, rfl⟩ := h
  exact ⟨⟨t, ht, rfl⟩, hs, rfl⟩

theorem lowerDot_lowers [Platform] (hg : s.graph.Measured) (ho : o ∈ s.graph.operations)
    (hd : Sound s.graph d.allocator d.tables)
    (hk : o.kind? = some .dot) (h : (lowerDot s o).Yields d () d') :
    ∃ ins rest, Lowers s o d ins rest d' := by
  unfold lowerDot at h
  split at h
  · next ia ib hi =>
      simp only [yields_bind, yields_ite, yields_mismatch, false_and, and_false,
        exists_false, false_or, yields_size] at h
      obtain ⟨x, _, hx, y, _, hy, hs, shape, _, hsh, n, _, ⟨hn, rfl⟩, h⟩ := h
      obtain ⟨ins, hins, px, py, hsx, -⟩ := gather_two hg ho hd hi hx hy
      rw [← hi] at hins
      obtain ⟨⟨t, ht, rfl⟩, hone, rfl⟩ := scalarShape_yields hsh
      obtain rfl := Except.ok.inj (hn.symm.trans hsx)
      have hl : (dotTerms x y (Shape.volume x.shape)).length = (Shape.indices t.shape).length := by
        rcases hone with hone | hone <;> rw [hone] <;> rfl
      rw [Int.toNat_natCast] at h
      obtain ⟨evs, out, hw, pout, hr⟩ := lowerReduction_writes hg ho ht hl h
      have hsum : Summands s.graph s.zero d'.allocator o _ t.shape _ [] [] :=
        .dot hk hi (px.mono hw.toExtends) (py.mono hw.toExtends) (by simpa using (not_or.1 hs).2)
          hone
      have ht : Template s.graph s.lookupBits s.zero d'.allocator d'.tables o _ _ :=
        .reduction hsum pout hr
      exact ⟨ins, evs, hins.lowers hw (by simpa using ht)⟩
  · exact absurd h (by simp)

theorem lowerSum_lowers [Platform] (hg : s.graph.Measured) (ho : o ∈ s.graph.operations)
    (hd : Sound s.graph d.allocator d.tables)
    (hk : o.kind? = some .sum) (h : (lowerSum s o).Yields d () d') :
    ∃ ins rest, Lowers s o d ins rest d' := by
  unfold lowerSum at h
  split at h
  · next ia hi =>
      simp only [yields_bind, yields_ite, yields_size, yields_checkAxes] at h
      obtain ⟨x, e, hx, shape, _, hsh, n, _, ⟨hn, rfl⟩, h⟩ := h
      obtain ⟨ins, hins, px, hsx⟩ := gather_one hg ho hd hi hx
      rw [← hi] at hins
      obtain ⟨⟨t, ht, rfl⟩, hone, rfl⟩ := scalarShape_yields hsh
      obtain rfl := Except.ok.inj (hn.symm.trans hsx)
      have hl : (sumTerms x (Shape.volume x.shape)).length = (Shape.indices t.shape).length := by
        rcases hone with hone | hone <;> rw [hone] <;> rfl
      rw [Int.toNat_natCast] at h
      have h : (lowerReduction s o t.shape (sumTerms x (Shape.volume x.shape))
          x.scale).Yields e () d' := by
        rcases h with ⟨-, _, _, ⟨-, rfl⟩, h⟩ | ⟨-, h⟩ <;> exact h
      obtain ⟨evs, out, hw, pout, hr⟩ := lowerReduction_writes hg ho ht hl h
      have hsum : Summands s.graph s.zero d'.allocator o _ t.shape _ [] [] :=
        .sum hk hi (px.mono hw.toExtends) hone
      have ht : Template s.graph s.lookupBits s.zero d'.allocator d'.tables o _ _ :=
        .reduction hsum pout hr
      exact ⟨ins, evs, hins.lowers hw (by simpa using ht)⟩
  · exact absurd h (by simp)

@[simp] theorem yields_convPair {name : String} {default : Int} {p : Int × Int} :
    (convPair o name default : Emit (Int × Int)).Yields d p d' ↔
      pair? ((o.param? name).getD (.int default)) = some p ∧ d = d' := by
  unfold convPair
  split <;> simp_all

theorem checkWindow_yields [Platform] {c : Window} {u : Unit}
    (h : (checkWindow c : Emit Unit).Yields d u d') :
    d = d' := by
  unfold checkWindow at h
  simp only [yields_bind, yields_checkCountable, yields_ite, yields_pure] at h
  obtain ⟨_, _, ⟨-, rfl⟩, ⟨-, -, rfl⟩ | ⟨-, -, rfl⟩⟩ := h <;> rfl

theorem lowerConv_lowers [Platform] (hg : s.graph.Measured) (ho : o ∈ s.graph.operations)
    (hd : Sound s.graph d.allocator d.tables)
    (hk : o.kind? = some .conv) (h : (lowerConv s o).Yields d () d') :
    ∃ ins rest, Lowers s o d ins rest d' := by
  unfold lowerConv at h
  split at h
  · next ix iw others hi =>
      simp only [yields_ite, yields_wrongCount, yields_bind, false_and, exists_false,
        and_false, false_or, yields_tensor, yields_mismatch, yields_convPair, yields_refuse] at h
      obtain ⟨hone, x, _, hx, w, _, hw, t, _, ⟨ht, rfl⟩, hch, stride, _, ⟨hst, rfl⟩, pad, _,
        ⟨hpd, rfl⟩, -, h⟩ := h
      obtain ⟨ins, hins, px, pw, -, -⟩ := gather_two hg ho hd hi hx hw
      split at h
      · next c hc =>
          have hcv : Convolves o x w c := ⟨by simpa using hch, stride, pad, hst, hpd, hc⟩
          have hl (b : Option Operand) :
              (c.terms s.zero x w b).length = (Shape.indices c.outShape).length := by
            simp [Window.terms_eq]
          simp only [yields_ite, yields_bind, yields_mismatch, false_and, exists_false,
            and_false, false_or] at h
          obtain ⟨-, h⟩ := h
          cases others with
          | nil =>
            simp only [yields_bind, yields_checkOutput] at h
            obtain ⟨_, _, ⟨u, hu, hsh, rfl⟩, _, _, hwin, h⟩ := h
            obtain rfl := checkWindow_yields hwin
            obtain ⟨evs, out, hw, pout, hr⟩ := lowerReduction_writes hg ho hu (hl none) h
            have hsum : Summands s.graph s.zero d'.allocator o _ c.outShape _ [] [] :=
              .conv hk hi (px.mono hw.toExtends) (pw.mono hw.toExtends) hcv
            rw [← hsh] at hsum hr
            have ht : Template s.graph s.lookupBits s.zero d'.allocator d'.tables o _ _ :=
              .reduction hsum pout hr
            exact ⟨ins, evs, (hi ▸ hins).lowers hw (by simpa using ht)⟩
          | cons ib rest =>
            obtain rfl : rest = [] := by simpa using hone
            simp only [yields_bind, yields_ite, yields_mismatch, false_and,
              exists_false, and_false, false_or, yields_checkOutput] at h
            obtain ⟨b, _, hb, hbs, b', _, hb', _, _, ⟨u, hu, hsh, rfl⟩, _, _, hwin, h⟩ := h
            obtain rfl := checkWindow_yields hwin
            have hrb : ib ∈ s.graph.required :=
              Circuit.Graph.input_required ho (by simp [hi])
            obtain ⟨ys, hins, he, pb, hsb⟩ := hins.snoc hg hd hrb hb
            rw [List.cons_append, List.cons_append, List.nil_append, ← hi] at hins
            obtain ⟨cs, w₁, hbr⟩ := rescaled_writes (s := s) hsb hb'
            obtain ⟨evs, out, w₂, pout, hr⟩ := lowerReduction_writes hg ho hu (hl (some b')) h
            have hw := w₁.trans w₂
            have hsum : Summands s.graph s.zero d'.allocator o _ c.outShape _ _ _ :=
              .biased hk hi ((px.mono he).mono hw.toExtends) ((pw.mono he).mono hw.toExtends)
                (pb.mono hw.toExtends) hcv (by simpa using hbs) hbr
            rw [← hsh] at hsum hr
            have ht : Template s.graph s.lookupBits s.zero d'.allocator d'.tables o _ _ :=
              .reduction hsum pout hr
            exact ⟨_, _, hins.lowers hw (by simpa using ht)⟩
      · exact absurd h (by simp)
  · exact absurd h (by simp)

theorem lowerLookup_lowers [Platform] (hg : s.graph.Measured) (ho : o ∈ s.graph.operations)
    (hd : Sound s.graph d.allocator d.tables) {kind : Circuit.Kind} (hk : o.kind? = some kind)
    (hc : kind.category = .nonlinearity) (h : (lowerLookup s o).Yields d () d') :
    ∃ ins rest, Lowers s o d ins rest d' := by
  unfold lowerLookup at h
  split at h
  · next ia hi =>
      simp only [yields_bind, yields_checkOutput, yields_ofExcept, yields_size] at h
      obtain ⟨x, _, hx, _, _, ⟨t, ht, hsh, rfl⟩, spec, _, ⟨hspec, rfl⟩, table, _, htab, out, _,
        hout, n, _, ⟨hn, rfl⟩, h⟩ := h
      obtain ⟨ins, hins, px, hsx⟩ := gather_one hg ho hd hi hx
      rw [← hi] at hins
      obtain ⟨hm, hf, evs, w₁, hss, hsc⟩ := table_writes (hins.writes.sound hd) htab
      obtain ⟨ps, w₂, hps, pout⟩ := output_writes hg ho ht hout
      obtain ⟨-, w₃⟩ := commented_writes (g := s.graph) h
      obtain rfl := Except.ok.inj (hn.symm.trans hsx)
      have hw := w₁.trans (w₂.trans w₃)
      have ht : Template s.graph s.lookupBits s.zero d'.allocator d'.tables o _ _ :=
        .lookup hk hc hi (px.mono hw.toExtends) (pout.mono w₃.toExtends) hsh hspec
          ((w₂.trans w₃).mem_tables hm) hf
      exact ⟨ins, _, hins.lowers hw (by simpa [hps, hss, hsc] using ht)⟩
  · exact absurd h (by simp)

theorem bound_value {j : Json} {i : Immediate} (h : clampBounds.bound? j = some i) :
    count? j = some i.value := by
  unfold clampBounds.bound? at h
  split at h <;> simp_all [count?]
  all_goals subst h; rfl

theorem clampBounds_yields {bounds : Option (Immediate × Immediate)}
    (h : (clampBounds o : Emit _).Yields d bounds d') :
    d = d' ∧ bounds? o = some (bounds.map fun b => (b.1.value, b.2.value)) ∧
      ∀ b ∈ bounds, b.1.value ≤ b.2.value := by
  unfold clampBounds at h
  split at h
  · next hp =>
      obtain ⟨rfl, rfl⟩ := yields_pure.1 h
      exact ⟨rfl, by rw [bounds?, hp]; rfl, by simp⟩
  · next hp =>
      obtain ⟨rfl, rfl⟩ := yields_pure.1 h
      exact ⟨rfl, by rw [bounds?, hp]; rfl, by simp⟩
  · next x y hp =>
      split at h
      · next lo hi hlo hhi =>
          simp only [yields_ite, yields_refuse, and_false, false_or, yields_pure] at h
          obtain ⟨hle, rfl, rfl⟩ := h
          refine ⟨rfl, ?_, by simpa using hle⟩
          rw [bounds?, hp]
          simp [bound_value hlo, bound_value hhi]
      · exact absurd h (by simp)
  · exact absurd h (by simp)

theorem lowerRescale_lowers [Platform] (hg : s.graph.Measured) (ho : o ∈ s.graph.operations)
    (hd : Sound s.graph d.allocator d.tables)
    (hk : o.kind? = some .rescale) (h : (lowerRescale s o).Yields d () d') :
    ∃ ins rest, Lowers s o d ins rest d' := by
  unfold lowerRescale at h
  split at h
  · next ia hi =>
      simp only [yields_bind, yields_checkOutput, yields_size] at h
      obtain ⟨x, _, hx, _, _, ⟨t, ht, hsh, rfl⟩, bounds, _, hb, out, _, hout, n, _, ⟨hn, rfl⟩,
        h⟩ := h
      obtain ⟨ins, hins, px, hsx⟩ := gather_one hg ho hd hi hx
      rw [← hi] at hins
      obtain ⟨rfl, hbounds, hle⟩ := clampBounds_yields hb
      obtain ⟨ps, w₁, hps, pout⟩ := output_writes hg ho ht hout
      obtain rfl := Except.ok.inj (hn.symm.trans hsx)
      rw [Int.toNat_natCast] at h
      cases bounds with
      | none =>
        obtain ⟨-, w₂⟩ := commented_writes (g := s.graph) h
        have hw := w₁.trans w₂
        have ht : Template s.graph s.lookupBits s.zero d'.allocator d'.tables o _ _ :=
          .rescale hk hi (px.mono hw.toExtends) (pout.mono w₂.toExtends) hsh hbounds
        exact ⟨ins, _, hins.lowers hw (by simpa [hps] using ht)⟩
      | some b =>
        obtain ⟨x', _, hx', h⟩ := yields_bind.1 h
        obtain ⟨cs, w₂, hbr⟩ := rescaled_writes (s := s) hsx hx'
        obtain ⟨-, w₃⟩ := commented_writes (g := s.graph) h
        have hw := w₁.trans (w₂.trans w₃)
        have ht : Template s.graph s.lookupBits s.zero d'.allocator d'.tables o _ _ :=
          .clamp hk hi (px.mono hw.toExtends) (pout.mono (w₂.trans w₃).toExtends) hsh hbounds
            (hle b rfl) hbr
        exact ⟨ins, _, hins.lowers hw (by simpa [hps] using ht)⟩
  · exact absurd h (by simp)

theorem lowerKind_lowers [Platform] (hg : s.graph.Measured) (ho : o ∈ s.graph.operations)
    (hd : Sound s.graph d.allocator d.tables) {kind : Circuit.Kind} (hk : o.kind? = some kind)
    (h : (lowerKind s o kind).Yields d () d') : ∃ ins rest, Lowers s o d ins rest d' := by
  cases kind with
  | add => exact lowerBinary_linear hg ho hd (.inl ⟨hk, rfl⟩) h
  | sub => exact lowerBinary_linear hg ho hd (.inr ⟨hk, rfl⟩) h
  | mul => exact lowerBinary_product hg ho hd hk h
  | neg => exact lowerUnary_lowers hg ho hd (.inl ⟨hk, rfl⟩) h
  | identity => exact lowerUnary_lowers hg ho hd (.inr ⟨hk, rfl⟩) h
  | matmul => exact lowerMatmul_lowers hg ho hd hk h
  | dot => exact lowerDot_lowers hg ho hd hk h
  | conv => exact lowerConv_lowers hg ho hd hk h
  | sum => exact lowerSum_lowers hg ho hd hk h
  | relu | leakyRelu | sigmoid | tanh | piecewiseLinear =>
    exact lowerLookup_lowers hg ho hd hk rfl h
  | rescale => exact lowerRescale_lowers hg ho hd hk h

end TensorAsm.Lowering
