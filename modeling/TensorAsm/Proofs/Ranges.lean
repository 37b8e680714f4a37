import TensorAsm.Proofs.Soundness
/-!
Which results of an accepted program are exact. All that is derived on the way fits the field; the
last step of an operation is compared modulo the field, so that its result is exact if it fits.
-/

namespace TensorAsm

namespace Quantity

theorem natAbs_roundHalfAway_le {n d : Int} (hd : 0 < d) :
    (roundHalfAway n d).natAbs ≤ n.natAbs := by
  have hq : 0 ≤ (n.natAbs : Int) / d := Int.ediv_nonneg (by omega) hd.le
  have hmul : (n.natAbs : Int) / d ≤ d * ((n.natAbs : Int) / d) :=
    le_mul_of_one_le_left hq hd
  have hsplit := Int.mul_ediv_add_emod (n.natAbs : Int) d
  have hr := Int.emod_nonneg (n.natAbs : Int) hd.ne'
  unfold roundHalfAway
  dsimp only
  split <;> split <;> omega

theorem natAbs_rescale_le {v shift : Int} (h : 0 ≤ shift) :
    (rescale v shift).natAbs ≤ v.natAbs := by
  unfold rescale
  split
  · exact le_rfl
  · rw [if_neg (by omega)]
    exact natAbs_roundHalfAway_le (Int.natCast_pos.2 (Nat.pow_pos Nat.two_pos))

end Quantity

namespace Field

variable {m x y : Int}

theorem Fits.of_natAbs_le (h : Fits m x) (hle : y.natAbs ≤ x.natAbs) : Fits m y := by
  unfold Fits at h ⊢
  omega

theorem Fits.eq_of_modEq (hm : m % 2 = 1) (hx : Fits m x) (hy : Fits m y) (h : x ≡ y [ZMOD m]) :
    x = y := by
  have hpos : 0 < m := by
    have hh := half_eq m
    unfold Fits at hx
    omega
  rw [← hx.centre_encode hm, ← hy.centre_encode hm, (encode_eq_iff hpos).2 h]

end Field

/-- Instructions that lead to no value further from zero than those they read, or than bounds that
fit. -/
def Instruction.Tight (m zero : Int) : Instruction → Prop
  | .rescale _ _ shift => 0 ≤ shift
  | .add _ _ b => b = zero
  | .sub _ a _ => a = zero
  | .clamp _ _ lo hi =>
    lo.value ≤ hi.value ∧ lo.value ≤ Field.half m ∧ -Field.half m ≤ hi.value
  | _ => False

theorem Instruction.Tight.fits [Platform] {m zero : Int} {i : Instruction} (h : i.Tight m zero)
    {look : Int → List Table.Row} {k : Int → Int} (hz : k zero = 0)
    (hf : ∀ c ∈ i.sources, Field.Fits m (k c)) {r : Int} (hr : i.eval .exact look k = some r) :
    Field.Fits m r := by
  cases i with
  | add d a b =>
    obtain rfl : b = zero := h
    obtain rfl : k a + k b = r := Option.some.inj hr
    exact (hf a (by simp [Instruction.sources])).of_natAbs_le (by omega)
  | sub d a b =>
    obtain rfl : a = zero := h
    obtain rfl : k a - k b = r := Option.some.inj hr
    exact (hf b (by simp [Instruction.sources])).of_natAbs_le (by omega)
  | rescale d a shift =>
    have hr : Semantics.exact.moved shift (k a) = some r := hr
    unfold Semantics.moved at hr
    split at hr
    · exact absurd hr (by simp)
    · obtain rfl : Quantity.rescale (k a) shift = r := Option.some.inj hr
      exact (hf a (by simp [Instruction.sources])).of_natAbs_le (Quantity.natAbs_rescale_le h)
  | clamp d a lo hi =>
    obtain ⟨hle, hlo, hhi⟩ := h
    obtain rfl : min (max (k a) lo.value) hi.value = r := Option.some.inj hr
    have ha := hf a (by simp [Instruction.sources])
    unfold Field.Fits at ha ⊢
    omega
  | mul => exact h.elim
  | mac => exact h.elim
  | lookup => exact h.elim
  | halt => exact h.elim

namespace Lowering

/-- Whether the last step of an operation on these tensors cannot leave the range of the field. -/
def narrow (m : Int) (o : Circuit.Operation) : Circuit.Kind → List Circuit.Tensor → Bool
  | .neg, _ | .identity, _ => true
  | .mul, [x, y] | .matmul, [x, y] | .dot, [x, y] => o.scale < x.scale + y.scale
  | .conv, x :: w :: _ => o.scale < x.scale + w.scale
  | .sum, [x] => o.scale < x.scale
  | .rescale, [x] =>
    match bounds? o with
    | none => false
    | some none => o.scale ≤ x.scale
    | some (some (lo, hi)) => lo ≤ Field.half m ∧ -Field.half m ≤ hi
  | _, _ => false

def Narrow (m : Int) (g : Circuit.Graph) (o : Circuit.Operation) : Prop :=
  ∃ kind ∈ o.kind?, ∃ ts ∈ o.inputs.mapM g.tensor?, narrow m o kind ts = true

variable {m : Int} {g : Circuit.Graph} {a : Allocator} {zero : Int} {o : Circuit.Operation}
  {s : Step}

theorem narrow_of {kind : Circuit.Kind} (h : Narrow m g o) (hk : o.kind? = some kind)
    {ids : List String} {xs : List Operand} (hi : o.inputs = ids)
    (hx : List.Forall₂ (Placed g a) ids xs) : narrow m o kind (xs.map (·.tensor)) = true := by
  obtain ⟨kind', hk', ts, hts, hn⟩ := h
  obtain rfl : kind = kind' := Option.some.inj (hk.symm.trans hk')
  rw [hi, mapM_tensor hx] at hts
  rwa [Option.some.inj hts]

theorem finish_tight {t : Target} {label : String} {i : Nat} (ht : t.scale < t.natural)
    (h : s ∈ t.finish label i) : s.instruction.Tight m zero := by
  unfold Target.finish at h
  split at h
  · rw [List.mem_singleton.1 h]
    change 0 ≤ t.natural - t.scale
    omega
  · simp at h

theorem Target.rescales_of_lt {t : Target} (ht : t.scale < t.natural) : t.rescales = true := by
  simp only [Target.rescales, bne_iff_ne]
  omega

theorem binary_tight {op : Arithmetic} {x y : Operand} {shape : List Nat} {t : Target}
    (ht : t.scale < t.natural) (h : s ∈ binarySteps o op x y shape t) (hd : s.derived = false) :
    s.instruction.Tight m zero := by
  obtain ⟨index, -, h⟩ := List.mem_flatMap.1 h
  rcases List.mem_cons.1 h with rfl | h
  · exact absurd (Target.rescales_of_lt ht) (by simpa [binaryStep] using hd)
  · exact finish_tight ht h

theorem chain_derived {r : Reduction} {label : String} {i k : Nat} {acc : Int} {ts : List Term}
    (ht : r.target.rescales = true) (h : s ∈ r.chain label i k acc ts) : s.derived = true := by
  induction ts generalizing k acc with
  | nil => simp [Reduction.chain] at h
  | cons t ts ih =>
    rw [Reduction.chain] at h
    rcases List.mem_cons.1 h with rfl | h
    · simp [ht]
    · exact ih h

theorem elements_tight {r : Reduction} {i : Nat} {is : List (List Nat)} {tss : List (List Term)}
    (ht : r.target.scale < r.target.natural) (h : s ∈ r.elements o i is tss)
    (hd : s.derived = false) : s.instruction.Tight m zero := by
  induction is generalizing i tss with
  | nil => simp [Reduction.elements] at h
  | cons index is ih =>
    cases tss with
    | nil => simp [Reduction.elements] at h
    | cons ts tss =>
      rw [Reduction.elements] at h
      simp only [List.mem_append] at h
      rcases h with (h | h) | h
      · exact absurd (chain_derived (Target.rescales_of_lt ht) h) (by simp [hd])
      · exact finish_tight ht h
      · exact ih h

theorem Brought.derived {x x' : Operand} {target : Int} {bs : List Allocation} {ss : List Step}
    (hb : Brought o x target x' bs ss) (h : s ∈ ss) : s.derived = true := by
  cases hb with
  | same => simp at h
  | copied =>
    obtain ⟨i, -, rfl⟩ := List.mem_map.1 h
    rfl

theorem Landing.scales {natural size out : Int} {t : Target} {ls : List Allocation}
    (hl : Landing o natural size out t ls) : t.natural = natural ∧ t.scale = o.scale := by
  cases hl with
  | direct => exact ⟨rfl, rfl⟩
  | apart => exact ⟨rfl, rfl⟩

theorem Summands.derived {natural : Int} {shape : List Nat} {terms : List (List Term)}
    {bs : List Allocation} {ss : List Step} (hs : Summands g zero a o natural shape terms bs ss)
    (h : s ∈ ss) : s.derived = true := by
  cases hs with
  | biased _ _ _ _ _ _ _ hbr => exact hbr.derived h
  | _ => simp at h

theorem Summands.scale_lt {natural : Int} {shape : List Nat} {terms : List (List Term)}
    {bs : List Allocation} {ss : List Step} (hs : Summands g zero a o natural shape terms bs ss)
    (h : Narrow m g o) : o.scale < natural := by
  cases hs with
  | matmul hk hi hx hy =>
    have hn := narrow_of h hk hi (.cons hx (.cons hy .nil))
    simpa [narrow, hx.scale, hy.scale] using hn
  | dot hk hi hx hy =>
    have hn := narrow_of h hk hi (.cons hx (.cons hy .nil))
    simpa [narrow, hx.scale, hy.scale] using hn
  | sum hk hi hx =>
    have hn := narrow_of h hk hi (.cons hx .nil)
    simpa [narrow, hx.scale] using hn
  | conv hk hi hx hw =>
    have hn := narrow_of h hk hi (.cons hx (.cons hw .nil))
    simpa [narrow, hx.scale, hw.scale] using hn
  | biased hk hi hx hw hb =>
    have hn := narrow_of h hk hi (.cons hx (.cons hw (.cons hb .nil)))
    simpa [narrow, hx.scale, hw.scale] using hn

theorem Template.tight [Platform] {lookupBits : Json} {ts : List FoldedTable} {bs : List Allocation}
    {ss : List Step} (ht : Template g lookupBits zero a ts o bs ss) (h : Narrow m g o)
    (hs : s ∈ ss) (hd : s.derived = false) : s.instruction.Tight m zero := by
  cases ht with
  | linear hk hi hx hy =>
    rcases hk with ⟨hk, -⟩ | ⟨hk, -⟩
    · exact absurd (narrow_of h hk hi (.cons hx (.cons hy .nil))) (by simp [narrow])
    · exact absurd (narrow_of h hk hi (.cons hx (.cons hy .nil))) (by simp [narrow])
  | product hk hi hx hy hout hb hl =>
    have hn := narrow_of h hk hi (.cons hx (.cons hy .nil))
    obtain ⟨hnat, hscale⟩ := hl.scales
    refine binary_tight ?_ hs hd
    rw [hnat, hscale, hx.scale, hy.scale]
    simpa [narrow] using hn
  | @unary negate _ _ _ _ _ _ hk hi hx hout hsh hb =>
    rcases List.mem_append.1 hs with hs | hs
    · exact absurd (hb.derived hs) (by simp [hd])
    · obtain ⟨i, -, rfl⟩ := List.mem_map.1 hs
      cases negate <;> rfl
  | reduction hsum hout hr =>
    rcases List.mem_append.1 hs with hs | hs
    · exact absurd (hsum.derived hs) (by simp [hd])
    · cases hr with
      | empty => simp at hs
      | chains _ _ _ hl =>
        obtain ⟨hnat, hscale⟩ := hl.scales
        refine elements_tight ?_ hs hd
        rw [hnat, hscale]
        exact hsum.scale_lt h
  | @lookup kind _ _ _ _ _ hk hc hi hx =>
    have hn := narrow_of h hk hi (.cons hx .nil)
    cases kind <;> simp [narrow, Circuit.Kind.category] at hn hc
  | rescale hk hi hx hout hsh hb =>
    have hn := narrow_of h hk hi (.cons hx .nil)
    obtain ⟨i, -, rfl⟩ := List.mem_map.1 hs
    simp only [narrow, List.map_cons, List.map_nil, hb, decide_eq_true_eq] at hn
    change 0 ≤ _
    rw [hx.scale]
    omega
  | clamp hk hi hx hout hsh hb hle hbr =>
    have hn := narrow_of h hk hi (.cons hx .nil)
    rcases List.mem_append.1 hs with hs | hs
    · exact absurd (hbr.derived hs) (by simp [hd])
    · obtain ⟨i, -, rfl⟩ := List.mem_map.1 hs
      simp only [narrow, List.map_cons, List.map_nil, hb, Bool.decide_and, Bool.and_eq_true,
        decide_eq_true_eq] at hn
      exact ⟨hle, hn⟩

end Lowering

/-- In an accepted program no derived value leaves the range of the field, and the witness is the
exact reference wherever that fits, which it always does for narrow operations. -/
theorem Program.strict_run_exact [Platform] {doc given : Json} {g : Circuit.Graph} {w : Witness}
    {name : String} {layout : Layout} {lookupBits : Json} {m : Int} {p : Program}
    {cells : List Cell} (tolerant : List Int)
    (hg : Circuit.read doc = .ok g) (hw : Witness.read m g given = .ok w) (hodd : m % 2 = 1)
    (hm : 2 ^ 24 < m) (h : (lower name g w layout lookupBits m).1 = .ok p)
    (hc : (MemoryTable.write p).1 = .ok cells)
    (hrun : (Machine.run (.exacting m tolerant) p.instructions
      (.start (MemoryTable.cellMap (MemoryTable.entries cells)))).2 = none) :
    (∀ b ∈ p.plan.allocator.allocations, b.kind = .scratch →
      ∀ c ∈ b.cells, ∃ v ∈ p.derived[c]?, Field.Fits m v) ∧
    ∀ o ∈ g.operations, ∀ t ∈ g.tensor? o.output, ∀ index ∈ Shape.indices t.shape,
      ∃ r ∈ Semantics.exact.reference g lookupBits w.value o index,
        w.value o.output (Shape.flat t.shape index) ≡ r [ZMOD m] ∧
        (w.value o.output (Shape.flat t.shape index) = r ↔ Field.Fits m r) ∧
        (Lowering.Narrow m g o → w.value o.output (Shape.flat t.shape index) = r) := by
  obtain ⟨values, hl⟩ := lower_lowered hg hw h
  have hpos : 0 < m := by omega
  have hall := (hl.strict_iff_holds hm hc tolerant).1 hrun
  obtain ⟨layout, journal, zb, xs, outs, hp⟩ := hl.planned
  refine ⟨fun b hb hk c hcb => ?_, fun o ho t ht index hi => ?_⟩
  · obtain ⟨i, hi, rfl⟩ := Allocation.exists_cell hcb
    obtain ⟨hf, hd⟩ := hl.cell_scratch hb hk hi
    exact ⟨_, hd, hf⟩
  · obtain ⟨blk, hblk, rfl, s, hs, hder, d, hdest, hcell, heval⟩ := hl.final_step ho ht hi
    have hmem : s ∈ p.plan.steps := List.mem_flatMap.2 ⟨blk, hblk, hs⟩
    obtain ⟨r, hr, hcong⟩ := (hl.holds_encode_iff hodd hpos hmem hdest).1 (hall s hmem)
    have hfits {c : Int} (hc : c ∈ s.instruction.sources ∨ s.instruction.dest? = some c) :
        Field.Fits m (values.cell c) := by
      obtain ⟨b, hb, hk, hcb⟩ := hp.step_block hl.wellFormed hmem hc
      exact hl.cell_fits hpos hb hk hcb
    rw [← hcell]
    -- what the witness holds fits, so congruence to a result that fits is equality
    have hexact (hf : Field.Fits m r) : values.cell d = r :=
      (hfits (.inr hdest)).eq_of_modEq hodd hf hcong
    refine ⟨r, heval.symm.trans hr, hcong, ⟨fun he => he ▸ hfits (.inr hdest), hexact⟩, ?_⟩
    intro hn
    obtain ⟨bs, htemplate⟩ := hl.template hblk
    exact hexact ((htemplate.tight hn hs hder).fits hl.derivation.zero
      (fun c hc => hfits (.inl hc)) hr)

/-- The sample is accepted, and the product in it is exact since it comes down in scale. -/
theorem Program.sample_product_exact :
    ∃ p cells r,
      (lower "sample" Sample.graph Sample.witness default (.int 3) Field.defaultModulus).1
        = .ok p ∧
      (MemoryTable.write p).1 = .ok cells ∧
      (Machine.run (.exacting Field.defaultModulus []) p.instructions
        (.start (MemoryTable.cellMap (MemoryTable.entries cells)))).2 = none ∧
      Semantics.exact.reference Sample.graph (.int 3) Sample.witness.value
        ⟨1, "mul", ["x", "k"], "y", 0, []⟩ [0] = some r ∧
      Sample.witness.value "y" 0 = r := by
  obtain ⟨p, h⟩ := Sample.lowers
  obtain ⟨values, hl⟩ := lower_lowered Sample.read_circuit Sample.read_values h
  obtain ⟨cells, hc, hrun⟩ := hl.accepted (by decide) (by decide)
    (by rw [Sample.required]; decide) (by decide +kernel) []
  obtain ⟨-, hexact⟩ := strict_run_exact [] Sample.read_circuit Sample.read_values
    (by decide) (by decide) h hc hrun
  obtain ⟨r, hr, -, -, hn⟩ := hexact _ (.head _) _ rfl [0] (by decide)
  exact ⟨p, cells, r, h, hc, hrun, hr, hn ⟨.mul, rfl, _, rfl, by decide⟩⟩

namespace Doubled

def graph : Circuit.Graph :=
  ⟨[⟨"x", [1], 0, .priv⟩, ⟨"y", [1], 0, .priv⟩], [⟨1, "add", ["x", "x"], "y", 0, []⟩],
    ["x"], ["y"]⟩

def circuit : Json := graph.document

/-- The greatest value that fits, and what is left of its double. -/
def values : Json :=
  .obj [("x", .arr [.int (Field.half Field.defaultModulus)]), ("y", .arr [.int (-1)])]

def witness : Witness :=
  [("x", ⟨[1], #[Field.half Field.defaultModulus]⟩), ("y", ⟨[1], #[-1]⟩)]

theorem read_circuit : Circuit.read circuit = .ok graph := by
  cbv

theorem read_values : Witness.read Field.defaultModulus graph values = .ok witness := by
  cbv

theorem lowers :
    ∃ p, (Program.lower "doubled" graph witness default (.int 8) Field.defaultModulus).1 = .ok p :=
  Sample.exists_ok (by decide +kernel)

theorem required : graph.required = ["x", "y"] := by
  cbv

end Doubled

/-- The double of the greatest value that fits is accepted as `-1`. -/
theorem Program.doubled_accepted :
    ∃ p cells,
      Circuit.read Doubled.circuit = .ok Doubled.graph ∧
      Witness.read Field.defaultModulus Doubled.graph Doubled.values = .ok Doubled.witness ∧
      (lower "doubled" Doubled.graph Doubled.witness default (.int 8) Field.defaultModulus).1
        = .ok p ∧
      (MemoryTable.write p).1 = .ok cells ∧
      (Machine.run (.exacting Field.defaultModulus []) p.instructions
        (.start (MemoryTable.cellMap (MemoryTable.entries cells)))).2 = none ∧
      Semantics.exact.reference Doubled.graph (.int 8) Doubled.witness.value
        ⟨1, "add", ["x", "x"], "y", 0, []⟩ [0] = some (Field.defaultModulus - 1) ∧
      Doubled.witness.value "y" 0 = -1 := by
  obtain ⟨p, h⟩ := Doubled.lowers
  obtain ⟨values, hl⟩ := lower_lowered Doubled.read_circuit Doubled.read_values h
  obtain ⟨cells, hc, hrun⟩ := hl.accepted (by decide) (by decide)
    (by rw [Doubled.required]; decide) (by decide +kernel) []
  exact ⟨p, cells, Doubled.read_circuit, Doubled.read_values, h, hc, hrun, by decide +kernel, rfl⟩

end TensorAsm
