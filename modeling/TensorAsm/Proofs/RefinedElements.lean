import TensorAsm.Proofs.Journals
import TensorAsm.Proofs.Recording
/-!
The elements of an operation beside its outline: copies at another scale, results by pairs, and
sums. Where a comment cannot be written, both end at the same step.
-/

namespace TensorAsm.Emitter

open Lowering
open Program (Values)
open Stateful (run_bind)

variable {s : Setting} {o : Circuit.Operation} {e : State} {d : Draft} {v : Values}

theorem Carries.copied {a : Operand} {x : Lowering.Operand} (hc : Carries d v a x)
    {target base : Int} {b : Allocation} {d' : Draft} (hb : b ∈ d'.allocator.allocations)
    (hbase : b.address.absolute = base) (hsize : b.size = Shape.volume a.shape) (u : Values) :
    Carries d' u ⟨⟨a.tensor, base, target⟩, ⟨a.shape, ((List.range (Shape.volume a.shape)).map
      fun (i : Nat) => u.cell (base + i)).toArray⟩⟩ ⟨a.tensor, base, target⟩ := by
  obtain rfl := hc.operand
  refine ⟨rfl, ⟨b, hb, hbase, hsize⟩, hc.measured, rfl, fun i hi => ?_, by simp; rfl⟩
  have hi : i < Shape.volume a.shape := hi
  simp [hi, Lowering.Operand.cell]

/-- The first element is read before its step is put out: a step that cannot be written has its
value computed all the same. -/
theorem requant_unwritten [Platform] {α β : Type} {a : Operand} {target base : Int} {i : Nat}
    {is : List Nat} {more : List Step} (hn : [a.scale, target].all Numeral.isWritable = false)
    (hv : a.value? i = .ok (v.cell (a.cell i))) {k : List Int → Emitter α} {x : β}
    {Q : α → β → State → Draft → Values → Prop} :
    Refines s e d v ((i :: is).mapM (requant s o a target base) >>= k)
      (do
        Emit.note (.dropped (requantStep o a.toOperand target base i))
        Emit.commented o [a.scale, target] (requantStep o a.toOperand target base i :: more)
        return x) Q false := by
  have hall : [o.id, a.scale, target].all Numeral.isWritable = false := by
    rw [List.all_cons, hn, Bool.and_false]
  have hy : Id.run ((do
      Emit.note (.dropped (requantStep o a.toOperand target base i))
      Emit.commented o [a.scale, target] (requantStep o a.toOperand target base i :: more)
      return x : Emit _).run d) = (.error (.invalid .unwritable), { d with journal :=
        d.journal ++ [.dropped (requantStep o a.toOperand target base i)] }) := by
    rw [run_bind]
    change Id.run ((Emit.commented o [a.scale, target]
      (requantStep o a.toOperand target base i :: more) >>= fun _ => pure x).run _) = _
    rw [run_bind, Emit.run_commented_error (by simp) hall]
  have hadvance : v.advance s.modulus s.witness
      (.dropped (requantStep o a.toOperand target base i)) =
      (Quantity.rescale? (v.cell (a.cell i)) (a.scale - target)).map fun _ => v := rfl
  rw [List.mapM_cons, requant, hv]
  cases hr : Quantity.rescale? (v.cell (a.cell i)) (a.scale - target) with
  | error f =>
    refine .stops (i := []) (u := v) (f := f) (t := e) hy rfl ?_ ?_ (by simp)
    · rw [Values.follow, hadvance, hr]
      rfl
    · simp only [MonadExcept.ofExcept, pure_bind, hr]
      rfl
  | ok value =>
    refine .fails (u := v) (t := e) hy rfl ?_ ?_ (by simp [Event.entry?])
    · rw [Values.follow, hadvance, hr]
      rfl
    · simp only [MonadExcept.ofExcept, pure_bind, bind_assoc, hr]
      rw [run_bind, run_emit_error hall]

/-- Filling the block of a copy whose steps can be written. -/
theorem requant_written [Platform] (ht : Tracks s e d v) {a : Operand}
    (hc : Carries d v a a.toOperand) {target base : Int} {b : Allocation}
    (hn : [o.id, a.scale, target].all Numeral.isWritable = true)
    (hv : ∀ i < Shape.volume a.shape, a.value? i = .ok (v.cell (a.cell i)))
    (hb : b ∈ d.allocator.allocations) (hk : b.kind = .scratch) (hbase : b.address.absolute = base)
    (hsize : b.size = Shape.volume a.shape)
    (happart : ∀ i < Shape.volume a.shape, a.cell i ∉ b.cells) :
    Refines s e d v (do
        let values ← (List.range (Shape.volume a.shape)).mapM (requant s o a target base)
        return (⟨⟨a.tensor, base, target⟩, ⟨a.shape, values.toArray⟩⟩ : Operand))
      (do
        Emit.commented o [a.scale, target]
          (requantSteps o a.toOperand target base (Shape.volume a.shape))
        return (⟨a.tensor, base, target⟩ : Lowering.Operand))
      (fun a' x' e' d' v' => Carries d' v' a' x' ∧ x'.tensor = a.tensor ∧ Tracks s e' d' v' ∧
        d'.allocator = d.allocator ∧ Keeps (· ∈ b.cells) v v') false := by
  have hin {c : Int} (h : ∃ i ∈ List.range (Shape.volume a.shape), c = base + (i : Int)) :
      c ∈ b.cells := by
    obtain ⟨i, hi, rfl⟩ := h
    rw [← hbase]
    exact Allocation.cell_mem (by rw [hsize]; exact_mod_cast List.mem_range.1 hi)
  refine (Plays.refines ht
    (D := fun c => ∃ i ∈ List.range (Shape.volume a.shape), c = base + (i : Int))
    (fun c h => ⟨b, hb, hk, hin h⟩) (fun _ h => absurd h (by simp [hn])) fun _ =>
      requant_plays hn ht.derived List.nodup_range (fun i hi => hv i (List.mem_range.1 hi))
        ?_).bind_continues (fun _ _ => Stateful.meets_pure trivial) ?_
  · intro i hi j hj he
    refine happart j (List.mem_range.1 hj) ?_
    rw [← he]
    exact hin ⟨i, hi, rfl⟩
  · rintro _ _ e' d' v' ⟨rfl, ht', hd, hkeep⟩
    exact .pure ⟨hc.copied (hd ▸ hb) hbase hsize v', rfl, ht', hd,
      fun c hc => hkeep c fun h => hc (hin h)⟩

/-- Filling the block of a copy. -/
theorem copy_refines [Platform] (ht : Tracks s e d v) {a : Operand} (hc : Carries d v a a.toOperand)
    (hid : Numeral.isWritable o.id = true) {target base : Int} {b : Allocation}
    (hb : b ∈ d.allocator.allocations) (hk : b.kind = .scratch) (hbase : b.address.absolute = base)
    (hsize : b.size = Shape.volume a.shape)
    (happart : ∀ i < Shape.volume a.shape, a.cell i ∉ b.cells) :
    Refines s e d v (do
        let values ← (List.range (Shape.volume a.shape)).mapM (requant s o a target base)
        return (⟨⟨a.tensor, base, target⟩, ⟨a.shape, values.toArray⟩⟩ : Operand))
      (do
        match requantSteps o a.toOperand target base (Shape.volume a.shape) with
        | [] => return (⟨a.tensor, base, target⟩ : Lowering.Operand)
        | first :: _ =>
          checkAxes a.shape
          if !([a.scale, target].all Numeral.isWritable) then Emit.note (.dropped first)
          Emit.commented o [a.scale, target]
            (requantSteps o a.toOperand target base (Shape.volume a.shape))
          return ⟨a.tensor, base, target⟩)
      (fun a' x' e' d' v' => Carries d' v' a' x' ∧ x'.tensor = a.tensor ∧ Tracks s e' d' v' ∧
        d'.allocator = d.allocator ∧ Keeps (· ∈ b.cells) v v') false := by
  cases hvol : Shape.volume a.shape with
  | zero =>
    refine .pure ⟨?_, rfl, ht, rfl, fun _ _ => rfl⟩
    have hnew : Carries d v ⟨⟨a.tensor, base, target⟩, _⟩ _ := hc.copied hb hbase hsize v
    rwa [hvol] at hnew
  | succ n =>
    have hpos : 0 < Shape.volume a.shape := by omega
    obtain ⟨more, hmore⟩ : ∃ more, requantSteps o a.toOperand target base (n + 1) =
        requantStep o a.toOperand target base 0 :: more := by
      rw [requantSteps, List.range_succ_eq_map]
      exact ⟨_, rfl⟩
    rw [hmore]
    dsimp only
    by_cases hax : Platform.axisLimit < a.shape.length
    · refine .fails (j := []) (f := .tooManyAxes Platform.axisLimit a.shape.length) (c := d)
        (t := e) ?_ (by simp) rfl ?_ (by simp)
      · unfold checkAxes
        rw [if_pos hax]
        rfl
      · rw [List.range_succ_eq_map, List.mapM_cons, requant, hc.value_error hax hpos]
        rfl
    have hcheck : (checkAxes a.shape : Emit Unit) = pure () := by
      unfold checkAxes
      rw [if_neg hax]
    have hvalue : ∀ i < Shape.volume a.shape, a.value? i = .ok (v.cell (a.cell i)) :=
      fun i hi => hc.value_eq (not_lt.1 hax) hi
    rw [hcheck, pure_bind]
    cases hwr : [a.scale, target].all Numeral.isWritable with
    | true =>
      have hall : [o.id, a.scale, target].all Numeral.isWritable = true := by
        rw [List.all_cons, hid, hwr]
        rfl
      rw [← hmore, ← hvol]
      exact requant_written ht hc hall hvalue hb hk hbase hsize happart
    | false =>
      rw [List.range_succ_eq_map]
      exact requant_unwritten hwr (hvalue 0 hpos)

theorem rescaled_refines [Platform] (ht : Tracks s e d v)
    (hw : s.witness.Complete s.modulus s.graph) {a : Operand} {x : Lowering.Operand}
    (hc : Carries d v a x) {target : Int} {purpose : String} :
    Refines s e d v (rescaled s o a target purpose) (Lowering.rescaled o x target purpose)
      (fun a' x' e' d' v' => Carries d' v' a' x' ∧ x'.tensor = x.tensor ∧ Tracks s e' d' v' ∧
        Later d v d' v') false := by
  obtain rfl := hc.operand
  unfold rescaled Lowering.rescaled
  by_cases hs : a.scale = target
  · rw [if_pos hs, if_pos hs]
    exact .pure ⟨hc, rfl, ht, .refl⟩
  rw [if_neg hs, if_neg hs]
  refine (Neutral.size a.tensor).refines_bind fun n hn => ?_
  obtain rfl : n = (Shape.volume a.shape : Int) :=
    Except.ok.inj ((yields_size.1 hn).1.symm.trans hc.measured)
  refine (scratch_refines ht hw (Int.natCast_nonneg _)).bind ?_
  rintro base _ e₁ d₁ v₁ ⟨rfl, hid, ⟨b, hb, hk, hbase, hsize, hnew⟩, ht₁, hl⟩
  refine (copy_refines ht₁ (hc.later hl) hid hb hk hbase hsize fun i hi => ?_).imp ?_
  · obtain ⟨b', hb', hcell⟩ := hc.cell_mem hi
    exact hnew b' hb' _ hcell
  · rintro a' x' e₂ d₂ v₂ ⟨hc', htensor, ht₂, hd, hkeep⟩
    refine ⟨hc', htensor, ht₂, ?_, fun b' hb' c hc => ?_⟩
    · rw [hd]
      exact hl.allocations
    · rw [hkeep c (hnew b' hb' c hc), hl.cells b' hb' c hc]

theorem forM_refines [Platform] (ht : Tracks s e d v) {ns : List Int} {steps : List Step}
    (hd : ∀ st ∈ steps, st.derived = false) :
    Refines s e d v (steps.forM (emit o ns)) (Emit.commented o ns steps)
      (fun _ _ e' d' v' => Tracks s e' d' v') false := by
  refine (Plays.refines ht (D := fun _ => False) (fun _ h => h.elim) (fun hs hn => ?_)
    fun hn => forM_plays hn ht.derived hd).imp fun _ _ _ _ _ h => h.2.1
  obtain ⟨st, steps, rfl⟩ := List.exists_cons_of_ne_nil hs
  rw [List.forM_eq_forM, List.forM_cons, run_bind, run_emit_error hn]

/-- A change of scale that cannot be written: both end at the first element. -/
theorem finish_refines [Platform] {β : Type} {t : Target} (ht : t.isWritten = false)
    {label : String} {i : Nat} {source : Int} {k : Unit → Emitter β}
    {Q : β → Unit → State → Draft → Values → Prop} :
    Refines s e d v (emit o [t.natural, t.scale] (t.finishStep label i source) >>= k)
      (checkWritten [t.natural, t.scale]) Q false := by
  have hn : [t.natural, t.scale].all Numeral.isWritable = false := by
    simp only [Target.isWritten, Bool.or_eq_false_iff] at ht
    exact ht.2
  refine .fails (j := []) (f := .invalid .unwritable) (c := d) (t := e) ?_ (by simp) rfl ?_
    (by simp)
  · unfold checkWritten
    rw [hn]
    rfl
  · rw [run_bind, run_emit_error]
    rw [List.all_cons, hn, Bool.and_false]

theorem rescales_of_not_written {t : Target} (ht : t.isWritten = false) : t.rescales = true := by
  simp only [Target.isWritten, Bool.or_eq_false_iff, Bool.not_eq_false'] at ht
  exact ht.1

theorem breakOff_eq {t : Target} {start : List Step} (hs : start ≠ []) :
    breakOff o t start =
      Emit.commented o [] start >>= fun _ => checkWritten [t.natural, t.scale] := by
  simp [breakOff, hs]

section

variable [Platform] {D : Int → Prop}

theorem elementwise_refines (ht : Tracks s e d v) (hD : Scratch d D) (op : Arithmetic)
    (a b : Operand) (shape : List Nat) (t : Target)
    (hv : t.rescales = true → op = .mul ∧ ∀ index ∈ Shape.indices shape,
      D (t.landing + Shape.flat shape index) ∧ a.Offers D v (Shape.flatProject a.shape index) ∧
        b.Offers D v (Shape.flatProject b.shape index)) :
    Refines s e d v ((Shape.indices shape).forM (element s o op a b shape t))
      (if t.isWritten then
          Emit.commented o [] (binarySteps o op a.toOperand b.toOperand shape t)
        else breakOff o t (binaryStart o op a.toOperand b.toOperand shape t))
      (fun _ _ e' d' v' => Tracks s e' d' v') false := by
  have hfail {index : List Nat} {rest : List (List Nat)}
      (hn : [o.id].all Numeral.isWritable = false) :
      Id.run (((index :: rest).forM (element s o op a b shape t)).run e) =
        (.error (.invalid .unwritable), e) := by
    rw [List.forM_eq_forM, List.forM_cons, run_bind, element, run_bind, run_emit_error hn]
  cases hw : t.isWritten with
  | true =>
    rw [if_pos rfl]
    refine (Plays.refines ht hD (fun hs hn => ?_) fun hn =>
      elementwise_plays ?_ hw ht.derived hv).imp fun _ _ _ _ _ h => h.2.1
    · cases hi : Shape.indices shape with
      | nil => simp [hi] at hs
      | cons index rest => exact hfail hn
    · intro hi
      obtain ⟨index, rest, hi⟩ := List.exists_cons_of_ne_nil hi
      simpa using hn (by simp [hi])
  | false =>
    rw [if_neg (by simp), binaryStart]
    have hr := rescales_of_not_written hw
    obtain ⟨rfl, hall⟩ := hv hr
    cases hi : Shape.indices shape with
    | nil =>
      have hrun : Id.run ((breakOff o t []).run d) = Id.run ((Emit.commented o [] []).run d) :=
        rfl
      exact (Refines.imp (Plays.refines ht hD (by simp) fun _ =>
        .pure (P := fun _ _ => True) ht.derived trivial) fun _ _ _ _ _ h => h.2.1).of_run hrun
    | cons index rest =>
      obtain ⟨hdest, ⟨hx, -⟩, hy, -⟩ := hall index (by simp [hi])
      have hsplit : (index :: rest).forM (element s o .mul a b shape t) = (do
          emit o [] (binaryStep o .mul a.toOperand b.toOperand shape t index)
          record s o (t.landing + Shape.flat shape index)
            (v.cell (a.cell (Shape.flatProject a.shape index)) *
              v.cell (b.cell (Shape.flatProject b.shape index)))
          pure ()) >>= fun _ => emit o [t.natural, t.scale] (t.finishStep (elementLabel o index)
            (Shape.flat shape index) (t.landing + Shape.flat shape index)) >>= fun _ =>
          rest.forM (element s o .mul a b shape t) := by
        rw [List.forM_eq_forM, List.forM_cons, element, hr, hx, hy]
        simp only [MonadExcept.ofExcept, pure_bind, if_true, bind_assoc]
      rw [hsplit, List.take_one, List.head?_cons, Option.toList_some, List.map_singleton,
        breakOff_eq (by simp)]
      refine Refines.bind_continues (Plays.refines ht hD (fun _ hn => ?_) fun hn =>
        Plays.emit_record (hn (by simp)) ht.derived hr rfl hdest rfl fun e' he' =>
          .pure (P := fun _ _ => True) he' trivial)
        (fun _ j => (Neutral.checkWritten _).continues j) fun _ _ _ _ _ _ => finish_refines hw
      rw [run_bind, run_emit_error hn]

theorem direct_refines (ht : Tracks s e d v) {op : Arithmetic} {a b : Operand} {shape : List Nat}
    {output : Int} :
    Refines s e d v ((Shape.indices shape).forM
        (element s o op a b shape ⟨output, output, o.scale, o.scale⟩))
      (Emit.commented o [] (binarySteps o op a.toOperand b.toOperand shape
        ⟨output, output, o.scale, o.scale⟩))
      (fun _ _ e' d' v' => Tracks s e' d' v') false := by
  have hr : (⟨output, output, o.scale, o.scale⟩ : Target).rescales = false := by
    simp [Target.rescales]
  have h := elementwise_refines (o := o) ht (D := fun _ => False) (fun _ h => h.elim) op a b shape
    ⟨output, output, o.scale, o.scale⟩ (by simp [hr])
  rwa [if_pos (by simp [Target.isWritten, hr])] at h

theorem product_refines (ht : Tracks s e d v) {d₀ : Draft} {v₀ : Values} (hl : Later d₀ v₀ d v)
    {a b : Operand} (hca : Carries d₀ v₀ a a.toOperand) (hcb : Carries d₀ v₀ b b.toOperand)
    (hax : a.shape.length ≤ Platform.axisLimit) (hbx : b.shape.length ≤ Platform.axisLimit)
    {shape : List Nat} (hb : Shape.broadcast? a.shape b.shape = some shape) {t : Target}
    (hland : t.rescales = true → Opened d₀ d t.landing (Shape.volume shape)) :
    Refines s e d v ((Shape.indices shape).forM (element s o .mul a b shape t))
      (if t.isWritten then
          Emit.commented o [] (binarySteps o .mul a.toOperand b.toOperand shape t)
        else breakOff o t (binaryStart o .mul a.toOperand b.toOperand shape t))
      (fun _ _ e' d' v' => Tracks s e' d' v') false := by
  obtain ⟨hsa, hsb⟩ := Shape.broadcast_stretches hb
  refine elementwise_refines ht (D := fun c => t.rescales = true ∧ t.landing ≤ c ∧
    c < t.landing + Shape.volume shape) ?_ .mul a b shape t fun hr => ⟨rfl, fun index hi => ?_⟩
  · rintro c ⟨hr, hlow, hup⟩
    obtain ⟨b, hb, hk, hc, -⟩ := (hland hr).mem hlow hup
    exact ⟨b, hb, hk, hc⟩
  · have hflat := Shape.flat_lt hi
    have hoffers {x : Operand} (hc : Carries d₀ v₀ x x.toOperand)
        (hx : x.shape.length ≤ Platform.axisLimit) (hs : Shape.Stretches x.shape shape) :
        x.Offers (fun c => t.rescales = true ∧ t.landing ≤ c ∧
          c < t.landing + Shape.volume shape) v (Shape.flatProject x.shape index) := by
      have hplace := Shape.flatProject_lt hs hi
      refine ⟨(hc.later hl).value_eq hx hplace, ?_⟩
      rintro ⟨-, hlow, hup⟩
      obtain ⟨-, -, -, -, hnew⟩ := (hland hr).mem hlow hup
      obtain ⟨b, hb, hcell⟩ := hc.cell_mem hplace
      exact hnew b hb hcell
    exact ⟨⟨hr, by omega, by omega⟩, hoffers hca hax hsa, hoffers hcb hbx hsb⟩

theorem reduction_refines (ht : Tracks s e d v) (hD : Scratch d D) {r : Reduction}
    {shape : List Nat} {terms : List (List Term)}
    (hdest : ∀ i < terms.length, ∀ k < r.steps, r.keeps k = true → D (r.dest i k))
    (hsteps : r.steps ≠ 0) (hzD : ¬D r.zero) (hz : v.cell r.zero = 0)
    (hlen : ∀ ts ∈ terms, ts.length = r.steps)
    (hcount : terms.length = (Shape.indices shape).length) (hne : terms ≠ [])
    (hterms : ∀ ts ∈ terms, ∀ t ∈ ts, t.Holds D v) :
    Refines s e d v (elements s o r 0 (Shape.indices shape) terms)
      (if r.target.isWritten then
          Emit.commented o [] (reductionSteps o r shape (terms.map (·.map Term.toTerm)))
        else breakOff o r.target (reductionStart o r shape (terms.map (·.map Term.toTerm))))
      (fun _ _ e' d' v' => Tracks s e' d' v') false := by
  obtain ⟨first, more, rfl⟩ := List.exists_cons_of_ne_nil hne
  cases hi : Shape.indices shape with
  | nil => simp [hi] at hcount
  | cons index rest =>
    have hfirst := hlen first (by simp)
    obtain ⟨t, ts, rfl⟩ := List.exists_cons_of_ne_nil (l := first) (by
      rintro rfl
      exact hsteps hfirst.symm)
    cases hw : r.target.isWritten with
    | true =>
      rw [if_pos rfl, reductionSteps, hi]
      refine (Plays.refines ht hD (fun _ hn => ?_) fun hn =>
        elements_plays ?_ hw hdest hsteps hzD
        ht.derived (by simp) hlen hz hterms).imp fun _ _ _ _ _ h => h.2.1
      · rw [elements, run_bind, chain, run_bind, run_emit_error hn]
      · simpa using hn (by simp [Reduction.elements, Reduction.chain])
    | false =>
      have hr := rescales_of_not_written hw
      have hstart : reductionStart o r shape (((t :: ts) :: more).map (·.map Term.toTerm)) =
          r.chain (elementLabel o index) 0 0 r.zero ((t :: ts).map Term.toTerm) := by
        simp [reductionStart, hi]
      rw [if_neg (by simp), hstart, breakOff_eq, elements, hr]
      · refine Refines.bind_continues (Plays.refines ht hD (fun _ hn => ?_) fun hn =>
          chain_plays ?_ (elementLabel o index) (hdest 0 (by simp)) ht.derived
          (by rw [Nat.zero_add, hfirst]) (fun _ => hz) (hterms _ (by simp)))
          (fun _ j => (Neutral.checkWritten _).continues j)
          fun _ _ _ _ _ _ => finish_refines hw
        · rw [chain, run_bind, run_emit_error hn]
        · simpa using hn (by simp [Reduction.chain])
      · simp [Reduction.chain]

end

/-- A summand over cells of blocks, with their values. -/
structure Term.Stands (d : Draft) (v : Values) (t : Term) : Prop where
  cells : ∀ c ∈ t.cells, ∃ b ∈ d.allocator.allocations, c ∈ b.cells
  value : t.toTerm.value v.cell = t.x * t.y

theorem Term.Stands.holds {d' : Draft} {v' : Values} {D : Int → Prop} {t : Term}
    (h : t.Stands d v) (hl : Later d v d' v')
    (hD : ∀ b ∈ d.allocator.allocations, ∀ c ∈ b.cells, ¬D c) : t.Holds D v' := by
  refine ⟨fun c hc => ?_, (Lowering.Term.value_congr fun c hc => ?_).trans h.value⟩
  all_goals obtain ⟨b, hb, hcell⟩ := h.cells c hc
  · exact hD b hb c hcell
  · exact hl.cells b hb c hcell

theorem partial_lt {i k count n : Nat} (hi : i < count) (hk : k + 1 < n) :
    (i : Int) * ((n : Int) - 1) + k < count * ((n : Int) - 1) := by
  have hrow : ((i : Int) + 1) * ((n : Int) - 1) ≤ count * ((n : Int) - 1) :=
    Int.mul_le_mul_of_nonneg_right (by omega) (by omega)
  rw [Int.add_mul, Int.one_mul] at hrow
  omega

/-- The cells in which a reduction records sums. -/
def Sums (count n : Nat) (natural : Int) (o : Circuit.Operation) (partials landing c : Int) :
    Prop :=
  (1 < n ∧ partials ≤ c ∧ c < partials + count * ((n : Int) - 1)) ∨
    (natural ≠ o.scale ∧ landing ≤ c ∧ c < landing + count)

theorem sums_dest {count n i k : Nat} {zero natural output partials landing : Int}
    (hi : i < count) (hk : k < n)
    (hkeep : Reduction.keeps ⟨zero, partials, n, ⟨output, landing, natural, o.scale⟩⟩ k = true) :
    Sums count n natural o partials landing
      ((⟨zero, partials, n, ⟨output, landing, natural, o.scale⟩⟩ : Reduction).dest i k) := by
  unfold Reduction.dest
  dsimp only
  split
  · next hlast =>
      refine .inr ⟨?_, by omega, by omega⟩
      simpa [Reduction.keeps, Target.rescales, hlast] using hkeep
  · next hmore =>
      have hlt := partial_lt (n := n) hi (k := k) (by omega)
      have hpos : 0 ≤ (i : Int) * ((n : Int) - 1) := Int.mul_nonneg (by omega) (by omega)
      exact .inl ⟨by omega, by omega, by omega⟩

theorem lowerReduction_refines [Platform] (ht : Tracks s e d v)
    (hw : s.witness.Complete s.modulus s.graph) (ho : o ∈ s.graph.operations) {shape : List Nat}
    {terms : List (List Term)} {n : Nat} {natural : Int} (hlen : ∀ ts ∈ terms, ts.length = n)
    (hcount : terms.length = (Shape.indices shape).length)
    (hterms : ∀ ts ∈ terms, ∀ t ∈ ts, t.Stands d v) :
    Refines s e d v (lowerReduction s o shape terms natural)
      (Lowering.lowerReduction s.toSetting o shape (terms.map (·.map Term.toTerm)) natural)
      (fun _ _ e' d' v' => Tracks s e' d' v') false := by
  cases terms with
  | nil =>
    refine Refines.agitate ?_
    refine (output_refines ht hw ho).bind ?_
    rintro _ _ _ _ _ ⟨-, -, ht', -⟩
    exact .pure ht'
  | cons first more =>
    obtain rfl := hlen first (by simp)
    unfold lowerReduction Lowering.lowerReduction
    rw [List.map_cons]
    dsimp only
    rw [← List.map_cons (f := fun ts : List Term => ts.map Term.toTerm)]
    simp only [List.length_map]
    by_cases hn : first.length = 0
    · rw [if_pos hn, if_pos hn]
      refine (Neutral.mapM (fun id => (Neutral.tensor s.toSetting id).bind fun t =>
        Neutral.pure t.shape) o.inputs).refines_bind fun _ _ => ?_
      exact (Neutral.mismatch o _ _ _).refines_bind fun _ h => absurd h (by simp)
    rw [if_neg hn, if_neg hn]
    refine (output_refines ht hw ho).bind ?_
    rintro output _ e₁ d₁ v₁ ⟨rfl, -, ht₁, hl₁⟩
    refine Refines.ite_bind (Q := fun a b e' d' v' => a = b ∧ Tracks s e' d' v' ∧
        Later d₁ v₁ d' v' ∧ (1 < first.length →
          Opened d₁ d' b ((first :: more).length * ((first.length : Int) - 1)))) (fun _ => ?_)
      (fun h => .pure ⟨rfl, ht₁, .refl, fun h' => absurd h' h⟩) ?_
    · refine (scratch_refines ht₁ hw (Int.mul_nonneg (by omega) (by omega))).imp ?_
      rintro a b e' d' v' ⟨he, -, hopen, ht', hl⟩
      exact ⟨he, ht', hl, fun _ => hopen⟩
    rintro partials _ e₂ d₂ v₂ ⟨rfl, ht₂, hl₂, hp⟩
    refine Refines.ite_bind (Q := fun a b e' d' v' => a = b ∧ Tracks s e' d' v' ∧
        Later d₂ v₂ d' v' ∧ (natural ≠ o.scale → Opened d₂ d' b (first :: more).length))
      (fun h => .pure ⟨rfl, ht₂, .refl, fun h' => absurd h h'⟩) (fun _ => ?_) ?_
    · refine (scratch_refines ht₂ hw (Int.natCast_nonneg _)).imp ?_
      rintro a b e' d' v' ⟨he, -, hopen, ht', hl⟩
      exact ⟨he, ht', hl, fun _ => hopen⟩
    rintro landing _ e₃ d₃ v₃ ⟨rfl, ht₃, hl₃, hland⟩
    have hl := hl₁.trans (hl₂.trans hl₃)
    have hmem {c : Int}
        (h : Sums (first :: more).length first.length natural o partials landing c) :
        ∃ b ∈ d₃.allocator.allocations, b.kind = .scratch ∧ c ∈ b.cells ∧
          ∀ b' ∈ d.allocator.allocations, c ∉ b'.cells := by
      rcases h with ⟨hlt, hlow, hup⟩ | ⟨hne, hlow, hup⟩
      · exact ((hp hlt).mono hl₁.allocations hl₃.allocations).mem hlow hup
      · exact ((hland hne).mono (hl₁.trans hl₂).allocations fun _ h => h).mem hlow hup
    have hold : ∀ b ∈ d.allocator.allocations, ∀ c ∈ b.cells,
        ¬Sums (first :: more).length first.length natural o partials landing c := by
      intro b hb c hc h
      obtain ⟨-, -, -, -, hnew⟩ := hmem h
      exact hnew b hb hc
    obtain ⟨zb, hzb, -, hz⟩ := ht.control
    refine reduction_refines ht₃ (D := Sums (first :: more).length first.length natural o partials
      landing) (fun c h => ?_) (fun i hi k hk => sums_dest hi hk) hn (hold zb hzb _ hz) ht₃.zero
      hlen hcount (by simp) fun ts hts t htm => (hterms ts hts t htm).holds hl hold
    obtain ⟨b, hb, hk, hc, -⟩ := hmem h
    exact ⟨b, hb, hk, hc⟩

end TensorAsm.Emitter
