import TensorAsm.Proofs.Requests
import TensorAsm.Proofs.Scopes
/-!
Steps one by one beside all at once. Going through the steps of an operation, the outline finds for
each derived cell the value that the emitter records in it.
-/

namespace TensorAsm

open Lowering
open Program (Values)
open Stateful (run_bind)

namespace Emitter

variable {α β : Type} {s : Setting} {o : Circuit.Operation} {ns : List Int} {node : Int}
  {D : Int → Prop} {e : State} {v : Values}

theorem run_emit (h : (o.id :: ns).all Numeral.isWritable = true) (st : Step) :
    Id.run ((emit o ns st).run e) = (.ok (), { e with current := e.current.push st }) := by
  unfold emit checkWritten
  rw [h]
  rfl

theorem run_emit_error (h : (o.id :: ns).all Numeral.isWritable = false) (st : Step) :
    Id.run ((emit o ns st).run e) = (.error (.invalid .unwritable), e) := by
  unfold emit checkWritten
  rw [h]
  rfl

theorem run_record {address value : Int} (h : Field.Fits s.modulus value) :
    Id.run ((record s o address value).run e) =
      (.ok (), { e with derived := e.derived.insert address value }) := by
  unfold record
  rw [if_neg (not_not.2 h)]
  rfl

theorem run_record_error {address value : Int} (h : ¬Field.Fits s.modulus value) :
    Id.run ((record s o address value).run e) =
      (.error (.compile (.witness (.derivedUnfit o.id (bitLength value) address))), e) := by
  unfold record
  rw [if_pos h]
  rfl

/-- No cell has another value, those in `D` apart. -/
def Keeps (D : Int → Prop) (v u : Values) : Prop := ∀ c, ¬D c → u.cell c = v.cell c

theorem Keeps.trans {u t : Values} (h : Keeps D v u) (k : Keeps D u t) : Keeps D v t :=
  fun c hc => (k c hc).trans (h c hc)

theorem keeps_record {c value : Int} (hc : D c) : Keeps D v (v.record c value) := by
  intro c' hc'
  rw [Values.cell_record, if_neg]
  rintro rfl
  exact hc' hc

/-- The emitter puts out the given steps, and records what the outline finds for them in cells of
`D`, up to where that fails. -/
inductive Plays [Platform] (s : Setting) (node : Int) (D : Int → Prop) (e : State) (v : Values)
    (x : Emitter α) (steps : List Step) (P : α → Values → Prop) : Prop
  | stops {f : Fault} {t : State} (hf : steps.foldlM (Values.step s.modulus node) v = .error f)
      (hx : Id.run (x.run e) = (.error f, t)) (hl : t.log = e.log)
  | goes {u : Values} {a : α} (hf : steps.foldlM (Values.step s.modulus node) v = .ok u)
      (hx : Id.run (x.run e) =
        (.ok a, { e with current := e.current ++ steps.toArray, derived := u.derived }))
      (hu : Keeps D v u) (hp : P a u)

namespace Plays

variable [Platform] {x : Emitter α} {k : α → Emitter β} {P Q : α → Values → Prop}
  {R : β → Values → Prop} {xs ys : List Step} {st : Step}

theorem pure {a : α} (he : e.derived = v.derived) (h : P a v) :
    Plays s node D e v (pure a) [] P := by
  refine .goes rfl ?_ (fun _ _ => rfl) h
  rw [← he]
  simp only [Array.append_empty]
  rfl

theorem imp (h : Plays s node D e v x xs P) (hq : ∀ a u, Keeps D v u → P a u → Q a u) :
    Plays s node D e v x xs Q := by
  cases h with
  | stops hf hx hl => exact .stops hf hx hl
  | goes hf hx hu hp => exact .goes hf hx hu (hq _ _ hu hp)

theorem mono {D' : Int → Prop} (h : Plays s node D e v x xs P) (hD : ∀ c, D c → D' c) :
    Plays s node D' e v x xs P := by
  cases h with
  | stops hf hx hl => exact .stops hf hx hl
  | goes hf hx hu hp => exact .goes hf hx (fun c hc => hu c fun h => hc (hD c h)) hp

theorem bind (h : Plays s node D e v x xs P)
    (hk : ∀ a u e', Keeps D v u → P a u → e'.derived = u.derived →
      Plays s node D e' u (k a) ys R) :
    Plays s node D e v (x >>= k) (xs ++ ys) R := by
  cases h with
  | stops hf hx hl =>
    refine .stops ?_ (by rw [run_bind, hx]) hl
    rw [List.foldlM_append, hf]
    rfl
  | @goes u a hf hx hu hp =>
    have hfold : (xs ++ ys).foldlM (Values.step s.modulus node) v =
        ys.foldlM (Values.step s.modulus node) u := by
      rw [List.foldlM_append, hf]
      rfl
    have hstart := run_bind x k e
    rw [hx] at hstart
    cases hk a u { e with current := e.current ++ xs.toArray, derived := u.derived } hu hp rfl
    with
    | stops hf' hx' hl' => exact .stops (hfold.trans hf') (hstart.trans hx') hl'
    | goes hf' hx' hu' hp' =>
      refine .goes (hfold.trans hf') (hstart.trans ?_) (hu.trans hu') hp'
      dsimp only
      rw [hx']
      simp

theorem emit (hn : (o.id :: ns).all Numeral.isWritable = true) (he : e.derived = v.derived)
    (hd : st.derived = false) :
    Plays s o.id D e v (emit o ns st) [st] fun _ u => u = v := by
  have hstep : Values.step s.modulus o.id v st = .ok v := by simp [Values.step, hd]
  refine .goes (a := ()) (by rw [List.foldlM_cons, hstep]; rfl) ?_ (fun _ _ => rfl) rfl
  rw [run_emit hn, ← he]
  simp

theorem emit_record {k : Unit → Emitter β} {c value : Int}
    (hn : (o.id :: ns).all Numeral.isWritable = true) (he : e.derived = v.derived)
    (hd : st.derived = true) (hc : st.instruction.dest? = some c) (hD : D c)
    (hx : st.instruction.exact v.cell = .ok value)
    (hk : ∀ e', e'.derived = (v.record c value).derived →
      Plays s o.id D e' (v.record c value) (k ()) ys R) :
    Plays s o.id D e v (Emitter.emit o ns st >>= fun _ => record s o c value >>= k) (st :: ys)
      R := by
  by_cases hf : Field.Fits s.modulus value
  · have hstep : Values.step s.modulus o.id v st = .ok (v.record c value) := by
      simp [Values.step, hd, hc, hx, hf]
    have hfold : (st :: ys).foldlM (Values.step s.modulus o.id) v =
        ys.foldlM (Values.step s.modulus o.id) (v.record c value) := by
      rw [List.foldlM_cons, hstep]
      rfl
    have hstart : Id.run ((Emitter.emit o ns st >>= fun _ => record s o c value >>= k).run e) =
        Id.run ((k ()).run { e with
          current := e.current.push st, derived := e.derived.insert c value }) := by
      rw [run_bind, run_emit hn]
      dsimp only
      rw [run_bind, run_record hf]
    cases hk { e with current := e.current.push st, derived := e.derived.insert c value }
      (by rw [he]; rfl) with
    | stops hf' hx' hl' => exact .stops (hfold.trans hf') (hstart.trans hx') hl'
    | goes hf' hx' hu' hp' =>
      refine .goes (hfold.trans hf') (hstart.trans ?_) ((keeps_record hD).trans hu') hp'
      rw [hx']
      simp
  · have hstep : Values.step s.modulus o.id v st =
        .error (.compile (.witness (.derivedUnfit o.id (bitLength value) c))) := by
      simp [Values.step, hd, hc, hx, hf]
    refine .stops (by rw [List.foldlM_cons, hstep]; rfl)
      (t := { e with current := e.current.push st }) ?_ rfl
    rw [run_bind, run_emit hn]
    dsimp only
    rw [run_bind, run_record_error hf]

end Plays

theorem forM_plays [Platform] {steps : List Step}
    (hn : steps ≠ [] → (o.id :: ns).all Numeral.isWritable = true) (he : e.derived = v.derived)
    (hd : ∀ st ∈ steps, st.derived = false) :
    Plays s o.id D e v (steps.forM (emit o ns)) steps fun _ _ => True := by
  induction steps generalizing e with
  | nil => exact .pure he trivial
  | cons st steps ih =>
    rw [List.forM_eq_forM, List.forM_cons, ← List.singleton_append]
    refine (Plays.emit (hn (by simp)) he (hd st (by simp))).bind ?_
    rintro _ u e' - rfl he'
    exact ih (fun _ => hn (by simp)) he' fun st hst => hd st (by simp [hst])

/-- One element of a copy at another scale. -/
def requant [Platform] (s : Setting) (o : Circuit.Operation) (a : Operand) (target base : Int)
    (i : Nat) : Emitter Int := do
  let value ← MonadExcept.ofExcept (a.value? i)
  let value ← MonadExcept.ofExcept (Quantity.rescale? value (a.scale - target))
  emit o [a.scale, target] (requantStep o a.toOperand target base i)
  record s o (base + i) value
  return value

/-- The copy of an operand: where the cells of the copy are apart from those of the operand, each
gets the rescaled value of its element. -/
theorem requant_plays [Platform] {a : Operand} {target base : Int}
    (hn : [o.id, a.scale, target].all Numeral.isWritable = true) (he : e.derived = v.derived)
    {is : List Nat} (hnd : is.Nodup) (hv : ∀ i ∈ is, a.value? i = .ok (v.cell (a.cell i)))
    (happart : ∀ i ∈ is, ∀ j ∈ is, base + i ≠ a.cell j) :
    Plays s o.id (fun c => ∃ i ∈ is, c = base + i) e v (is.mapM (requant s o a target base))
      (is.map (requantStep o a.toOperand target base))
      fun values u => values = is.map fun (i : Nat) => u.cell (base + i) := by
  induction is generalizing e v with
  | nil => exact .pure he rfl
  | cons i is ih =>
    obtain ⟨hi, hnd⟩ := List.nodup_cons.1 hnd
    have hd : (requantStep o a.toOperand target base i).derived = true := rfl
    have hc : (requantStep o a.toOperand target base i).instruction.dest? = some (base + i) := rfl
    have hx : (requantStep o a.toOperand target base i).instruction.exact v.cell =
      Quantity.rescale? (v.cell (a.cell i)) (a.scale - target) := rfl
    rw [List.mapM_cons, requant, hv i (by simp), List.map_cons]
    cases hr : Quantity.rescale? (v.cell (a.cell i)) (a.scale - target) with
    | error f =>
      rw [hr] at hx
      have hstep : Values.step s.modulus o.id v (requantStep o a.toOperand target base i) =
          .error f := by
        simp only [Values.step, hd, hc, hx]
      refine .stops (t := e) (by rw [List.foldlM_cons, hstep]; rfl) ?_ rfl
      simp only [MonadExcept.ofExcept, pure_bind, hr]
      rfl
    | ok value =>
      rw [hr] at hx
      simp only [MonadExcept.ofExcept, pure_bind, bind_assoc, hr]
      refine Plays.emit_record hn he hd hc ⟨i, by simp, rfl⟩ hx fun e' he' => ?_
      have hcell (c : Int) : (v.record (base + i) value).cell c =
          if base + (i : Int) = c then value else v.cell c := Values.cell_record v _ _ c
      -- what comes behind leaves the cell of this element alone
      have hrest := (ih he' hnd (fun j hj => ?_) fun j hj k hk =>
        happart j (by simp [hj]) k (by simp [hk])).imp (Q := fun values u =>
          (values = is.map fun (j : Nat) => u.cell (base + j)) ∧ u.cell (base + i) = value) ?_
      · rw [← List.append_nil (is.map _)]
        refine (hrest.mono fun c hc => ?_).bind ?_
        · obtain ⟨j, hj, rfl⟩ := hc
          exact ⟨j, by simp [hj], rfl⟩
        · rintro values u e'' - ⟨rfl, hu⟩ he''
          exact .pure he'' (by rw [List.map_cons, hu])
      · rw [hcell, if_neg (happart i (by simp) j (by simp [hj]))]
        exact hv j (by simp [hj])
      · rintro values u hu rfl
        refine ⟨rfl, (hu _ ?_).trans (by rw [hcell, if_pos rfl])⟩
        rintro ⟨j, hj, he⟩
        obtain rfl : i = j := by omega
        exact hi hj

/-- A summand over cells that are not to be written, with their values. -/
structure Term.Holds (D : Int → Prop) (v : Values) (t : Term) : Prop where
  apart : ∀ c ∈ t.cells, ¬D c
  value : t.toTerm.value v.cell = t.x * t.y

theorem Term.Holds.keep {u : Values} {t : Term} (h : t.Holds D v) (hu : Keeps D v u) :
    t.Holds D u :=
  ⟨h.apart, (Lowering.Term.value_congr fun c hc => hu c (h.apart c hc)).trans h.value⟩

section

variable [Platform] {r : Reduction}

/-- The sum of an element. Up to the last step, the cell it stands in has its value. -/
theorem chain_plays (hn : Numeral.isWritable o.id = true) (label : String) {i : Nat}
    (hD : ∀ k < r.steps, r.keeps k = true → D (r.dest i k)) {ts : List Term} {k : Nat}
    {cell sum : Int} (he : e.derived = v.derived) (hk : k + ts.length = r.steps)
    (hsum : ts ≠ [] → v.cell cell = sum) (ht : ∀ t ∈ ts, t.Holds D v) :
    Plays s o.id D e v (chain s o r label i k cell sum ts)
      (r.chain label i k cell (ts.map Term.toTerm))
      fun c _ => (ts = [] → c = cell) ∧ (ts ≠ [] → c = r.target.landing + i) := by
  induction ts generalizing e v k cell sum with
  | nil => exact .pure he ⟨fun _ => rfl, by simp⟩
  | cons t ts ih =>
    rw [List.length_cons] at hk
    have hwritten : [o.id].all Numeral.isWritable = true := by simp [hn]
    have hlast (hts : ts = []) : r.dest i k = r.target.landing + i := by
      rw [Reduction.dest, if_pos (by simp [← hk, hts])]
    rw [chain, List.map_cons, Reduction.chain]
    cases hkeep : r.keeps k with
    | false =>
      -- only a last step is not kept
      obtain rfl : ts = [] := by
        simp only [Reduction.keeps, Bool.or_eq_false_iff, decide_eq_false_iff_not,
          not_not] at hkeep
        exact List.length_eq_zero_iff.1 (by omega)
      refine (Plays.emit hwritten he hkeep).bind ?_
      rintro _ u e' - rfl he'
      exact .pure he' ⟨by simp, fun _ => hlast rfl⟩
    | true =>
      have hdest : D (r.dest i k) := hD k (by omega) hkeep
      have hx : (r.step label i k cell t.toTerm).instruction.exact v.cell =
          .ok (sum + t.x * t.y) := by
        rw [← hsum (by simp), ← (ht t (by simp)).value, Reduction.step_instruction,
          Term.instruction, Lowering.Term.value]
        cases t.b <;> rfl
      refine Plays.emit_record hwritten he hkeep Term.dest_instruction hdest hx fun e' he' => ?_
      refine (ih he' (by omega) (fun _ => ?_) fun u hu => ?_).imp ?_
      · rw [Values.cell_record, if_pos rfl]
      · exact (ht u (by simp [hu])).keep (keeps_record hdest)
      · rintro c u - ⟨hnil, hcons⟩
        refine ⟨by simp, fun _ => ?_⟩
        by_cases hts : ts = []
        · exact (hnil hts).trans (hlast hts)
        · exact hcons hts

theorem elements_plays (hn : Numeral.isWritable o.id = true) (hw : r.target.isWritten = true)
    {count : Nat} (hD : ∀ i < count, ∀ k < r.steps, r.keeps k = true → D (r.dest i k))
    (hsteps : r.steps ≠ 0) (hzD : ¬D r.zero) {i : Nat} {indices : List (List Nat)}
    {terms : List (List Term)} (he : e.derived = v.derived) (hi : i + terms.length ≤ count)
    (hlen : ∀ ts ∈ terms, ts.length = r.steps) (hz : v.cell r.zero = 0)
    (ht : ∀ ts ∈ terms, ∀ t ∈ ts, t.Holds D v) :
    Plays s o.id D e v (elements s o r i indices terms)
      (r.elements o i indices (terms.map (·.map Term.toTerm))) fun _ _ => True := by
  induction indices generalizing e v i terms with
  | nil => cases terms <;> exact .pure he trivial
  | cons index rest ih =>
    cases terms with
    | nil => exact .pure he trivial
    | cons ts terms =>
      rw [List.length_cons] at hi
      have hlength := hlen ts (by simp)
      have hne : ts ≠ [] := by
        rintro rfl
        exact hsteps hlength.symm
      have hsum := chain_plays (s := s) hn (elementLabel o index) (hD i (by omega)) he
        (by rw [Nat.zero_add, hlength]) (fun _ => hz) (ht ts (by simp))
      have hrest {u : Values} {e' : State} (hu : Keeps D v u) (he' : e'.derived = u.derived) :
          Plays s o.id D e' u (elements s o r (i + 1) rest terms)
            (r.elements o (i + 1) rest (terms.map (·.map Term.toTerm))) fun _ _ => True :=
        ih he' (by omega) (fun ts hts => hlen ts (by simp [hts])) ((hu _ hzD).trans hz)
          fun ts hts t htm => (ht ts (by simp [hts]) t htm).keep hu
      rw [elements, List.map_cons, Reduction.elements, List.append_assoc]
      refine hsum.bind ?_
      rintro cell u e' hu ⟨-, hcell⟩ he'
      obtain rfl := hcell hne
      rw [Target.finish]
      cases hr : r.target.rescales with
      | false => exact hrest hu he'
      | true =>
        have hwritten : [o.id, r.target.natural, r.target.scale].all Numeral.isWritable =
            true := by
          simp only [Target.isWritten, hr] at hw
          simpa [hn] using hw
        refine (Plays.emit hwritten he' rfl).bind ?_
        rintro _ u' e'' - rfl he''
        exact hrest hu he''

end

/-- An element that can be read and stands in a cell that is not to be written. -/
def Operand.Offers [Platform] (D : Int → Prop) (v : Values) (a : Operand) (i : Nat) : Prop :=
  a.value? i = .ok (v.cell (a.cell i)) ∧ ¬D (a.cell i)

theorem Operand.Offers.keep [Platform] {u : Values} {a : Operand} {i : Nat} (h : a.Offers D v i)
    (hu : Keeps D v u) : a.Offers D u i :=
  ⟨by rw [h.1, hu _ h.2], h.2⟩

/-- The steps of an element. Only a product is rescaled, and it is recorded before that. -/
theorem element_plays [Platform] (hn : Numeral.isWritable o.id = true) {op : Arithmetic}
    {a b : Operand} {shape index : List Nat} {t : Target} (hw : t.isWritten = true)
    (he : e.derived = v.derived)
    (hv : t.rescales = true → op = .mul ∧ D (t.landing + Shape.flat shape index) ∧
      a.Offers D v (Shape.flatProject a.shape index) ∧
      b.Offers D v (Shape.flatProject b.shape index)) :
    Plays s o.id D e v (element s o op a b shape t index)
      (binaryStep o op a.toOperand b.toOperand shape t index ::
        t.finish (elementLabel o index) (Shape.flat shape index)) fun _ _ => True := by
  have hwritten : [o.id].all Numeral.isWritable = true := by simp [hn]
  have hd : (binaryStep o op a.toOperand b.toOperand shape t index).derived = t.rescales := rfl
  unfold element Target.finish
  dsimp only
  cases hr : t.rescales with
  | false =>
    refine (Plays.emit hwritten he (hd.trans hr)).bind ?_
    rintro _ u e' - rfl he'
    exact .pure he' trivial
  | true =>
    obtain ⟨rfl, hdest, ⟨hx, -⟩, hy, -⟩ := hv hr
    have hwritten' : [o.id, t.natural, t.scale].all Numeral.isWritable = true := by
      simp only [Target.isWritten, hr] at hw
      simpa [hn] using hw
    rw [hx, hy]
    simp only [MonadExcept.ofExcept, pure_bind, if_true]
    refine Plays.emit_record hwritten he (hd.trans hr) rfl hdest rfl fun e' he' => ?_
    exact (Plays.emit hwritten' he' rfl).imp fun _ _ _ _ => trivial

theorem elementwise_plays [Platform] {indices : List (List Nat)}
    (hn : indices ≠ [] → Numeral.isWritable o.id = true) {op : Arithmetic} {a b : Operand}
    {shape : List Nat} {t : Target} (hw : t.isWritten = true) (he : e.derived = v.derived)
    (hv : t.rescales = true → op = .mul ∧ ∀ index ∈ indices,
      D (t.landing + Shape.flat shape index) ∧ a.Offers D v (Shape.flatProject a.shape index) ∧
        b.Offers D v (Shape.flatProject b.shape index)) :
    Plays s o.id D e v (indices.forM (element s o op a b shape t))
      (indices.flatMap fun index => binaryStep o op a.toOperand b.toOperand shape t index ::
        t.finish (elementLabel o index) (Shape.flat shape index)) fun _ _ => True := by
  induction indices generalizing e v with
  | nil => exact .pure he trivial
  | cons index indices ih =>
    rw [List.forM_eq_forM, List.forM_cons, List.flatMap_cons]
    refine (element_plays (hn (by simp)) hw he fun hr =>
      ⟨(hv hr).1, (hv hr).2 index (by simp)⟩).bind ?_
    rintro _ u e' hu - he'
    refine ih (fun _ => hn (by simp)) he' fun hr => ⟨(hv hr).1, fun index' hi => ?_⟩
    obtain ⟨hdest, hx, hy⟩ := (hv hr).2 index' (by simp [hi])
    exact ⟨hdest, hx.keep hu, hy.keep hu⟩

end Emitter

namespace Lowering.Emit

variable {o : Circuit.Operation} {ns : List Int} {steps : List Step} {d : Draft}

theorem run_commented (h : steps ≠ [] → (o.id :: ns).all Numeral.isWritable = true) :
    Id.run ((commented o ns steps).run d) = (.ok (), { d with
      current := d.current ++ steps
      journal := d.journal ++ [.emitted o.id steps] }) := by
  unfold commented checkWritten
  cases steps with
  | nil => rfl
  | cons st steps =>
    rw [h (by simp)]
    rfl

theorem run_commented_error (hs : steps ≠ [])
    (h : (o.id :: ns).all Numeral.isWritable = false) :
    Id.run ((commented o ns steps).run d) = (.error (.invalid .unwritable), d) := by
  obtain ⟨st, steps, rfl⟩ := List.exists_cons_of_ne_nil hs
  unfold commented checkWritten
  rw [h]
  rfl

end Lowering.Emit

namespace Emitter

variable [Platform] {α : Type} {s : Setting} {o : Circuit.Operation} {ns : List Int}
  {D : Int → Prop} {e : State} {d : Draft} {v u : Values} {steps : List Step}

/-- Only cells in blocks for derived values. -/
def Scratch (d : Draft) (D : Int → Prop) : Prop :=
  ∀ c, D c → ∃ b ∈ d.allocator.allocations, b.kind = .scratch ∧ c ∈ b.cells

theorem Tracks.play (ht : Tracks s e d v) (hD : Scratch d D) (hu : Keeps D v u) :
    Tracks s { e with current := e.current ++ steps.toArray, derived := u.derived }
      { d with current := d.current ++ steps, journal := d.journal ++ [.emitted o.id steps] }
        u := by
  have hkeep {b : Allocation} (hb : b ∈ d.allocator.allocations) (hk : b.kind ≠ .scratch) {c : Int}
      (hc : c ∈ b.cells) : u.cell c = v.cell c := by
    refine hu c fun hmem => ?_
    obtain ⟨b', hb', hk', hc'⟩ := hD c hmem
    obtain rfl := ht.sound.tiles.owner_unique hb hb' hc hc'
    exact hk hk'
  obtain ⟨zb, hzb, hzk, hz⟩ := ht.control
  refine { ht with current := ?_, derived := rfl, zero := ?_, tensor := ?_ }
  · simp [ht.current]
  · rw [hkeep hzb (by simp [hzk]) hz]
    exact ht.zero
  · intro b hb hk i hi
    rw [hkeep hb (by simp [hk]) (Allocation.cell_mem hi)]
    exact ht.tensor b hb hk i hi

/-- An emitter that plays steps goes along with an outline that puts them out at once. Where they
cannot be written, its first step already fails. -/
theorem Plays.refines {x : Emitter α} {P : α → Values → Prop} (ht : Tracks s e d v)
    (hD : Scratch d D)
    (hx : steps ≠ [] → (o.id :: ns).all Numeral.isWritable = false →
      Id.run (x.run e) = (.error (.invalid .unwritable), e))
    (h : (steps ≠ [] → (o.id :: ns).all Numeral.isWritable = true) →
      Plays s o.id D e v x steps P) :
    Refines s e d v x (Emit.commented o ns steps) (fun a _ e' d' v' => P a v' ∧
      Tracks s e' d' v' ∧ d'.allocator = d.allocator ∧ Keeps D v v') false := by
  by_cases hw : steps ≠ [] → (o.id :: ns).all Numeral.isWritable = true
  · have hy := Emit.run_commented (d := d) hw
    cases h hw with
    | stops hf hx hl =>
      refine .stops (j := [.emitted o.id steps]) (i := []) (u := v) hy rfl ?_ hx ?_
      · simp [Values.follow, Values.advance, hf]
      · simp [hl]
    | @goes u a hf hx hu hp =>
      refine .goes (j := [.emitted o.id steps]) (u := u) hy rfl ?_ hx ?_
        ⟨hp, ht.play hD hu, rfl, hu⟩
      · simp [Values.follow, Values.advance, hf]
      · simp [Event.entry?]
  · obtain ⟨hs, hn⟩ := Classical.not_imp.1 hw
    have hn : (o.id :: ns).all Numeral.isWritable = false := Bool.eq_false_iff.2 hn
    exact .fails (j := []) (Emit.run_commented_error hs hn) (by simp) rfl (hx hs hn) (by simp)

end Emitter

end TensorAsm
