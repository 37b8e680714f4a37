import TensorAsm.Proofs.Plans
/-!
The cells that the steps of an operation read and write. The derived steps fill the scratch blocks,
each cell once, the others fill the output, and a step reads inputs, the zero cell, or what was
derived before.
-/

namespace TensorAsm

/-- The cells whose values an instruction works on, the rows of a table apart. -/
def Instruction.sources : Instruction → List Int
  | .add _ a b | .sub _ a b | .mul _ a b => [a, b]
  | .mac _ c a b => [c, a, b]
  | .rescale _ a _ | .clamp _ a _ _ | .lookup _ a _ _ => [a]
  | .halt => []

def Instruction.isArithmetic : Instruction → Bool
  | .lookup _ _ _ _ | .halt => false
  | _ => true

namespace Lowering

/-- The cells written by the steps that are derived, or by those that are not. -/
def dests (derived : Bool) (ss : List Step) : List Int :=
  (ss.filter (·.derived == derived)).flatMap fun s => s.instruction.dest?.toList

section

variable {α : Type} {f : Bool} {xs ys : List Step}

@[simp] theorem dests_nil : dests f [] = [] := rfl

theorem dests_cons {s : Step} :
    dests f (s :: xs) =
      (if s.derived = f then s.instruction.dest?.toList else []) ++ dests f xs := by
  unfold dests
  by_cases h : s.derived = f <;> simp [h]

@[simp] theorem dests_append : dests f (xs ++ ys) = dests f xs ++ dests f ys := by
  simp [dests]

theorem dests_flatMap {l : List α} {e : α → List Step} :
    dests f (l.flatMap e) = l.flatMap fun a => dests f (e a) := by
  induction l with
  | nil => rfl
  | cons a l ih => rw [List.flatMap_cons, dests_append, ih, List.flatMap_cons]

theorem dests_map {l : List α} {e : α → Step} {c : α → Int}
    (h : ∀ a ∈ l, (e a).derived = f ∧ (e a).instruction.dest? = some (c a)) :
    dests f (l.map e) = l.map c ∧ dests (!f) (l.map e) = [] := by
  induction l with
  | nil => exact ⟨rfl, rfl⟩
  | cons a l ih =>
    obtain ⟨hd, hc⟩ := h a (by simp)
    obtain ⟨h1, h2⟩ := ih fun b hb => h b (by simp [hb])
    rw [List.map_cons, dests_cons, dests_cons, h1, h2, hd, hc]
    cases f <;> simp

end

theorem dests_requant (o : Circuit.Operation) (x : Operand) (target base : Int) (is : List Nat) :
    dests true (is.map (requantStep o x target base)) = is.map (fun (i : Nat) => base + i) ∧
      dests false (is.map (requantStep o x target base)) = [] :=
  dests_map fun _ _ => ⟨rfl, rfl⟩

/-- Every step reads cells that are there or that a step before it has derived. -/
def Scoped (ok : Int → Prop) : List Step → Prop
  | [] => True
  | s :: ss => (∀ c ∈ s.instruction.sources, ok c) ∧
    Scoped (fun c => ok c ∨ c ∈ dests true [s]) ss

namespace Scoped

variable {α : Type} {ok ok' : Int → Prop} {xs ys : List Step}

theorem mono (h : ∀ c, ok c → ok' c) (hx : Scoped ok xs) : Scoped ok' xs := by
  induction xs generalizing ok ok' with
  | nil => trivial
  | cons s xs ih =>
    refine ⟨fun c hc => h c (hx.1 c hc), ih ?_ hx.2⟩
    rintro c (hc | hc)
    exacts [.inl (h c hc), .inr hc]

theorem append_iff :
    Scoped ok (xs ++ ys) ↔ Scoped ok xs ∧ Scoped (fun c => ok c ∨ c ∈ dests true xs) ys := by
  induction xs generalizing ok with
  | nil => simp [Scoped]
  | cons s xs ih =>
    rw [List.cons_append, Scoped, Scoped, ih, and_assoc]
    have hc : (fun c => (ok c ∨ c ∈ dests true [s]) ∨ c ∈ dests true xs) =
        fun c => ok c ∨ c ∈ dests true (s :: xs) := by
      funext c
      rw [← List.singleton_append (l := xs), dests_append, List.mem_append, or_assoc]
    rw [hc]

theorem append (hx : Scoped ok xs) (hy : Scoped ok ys) : Scoped ok (xs ++ ys) :=
  append_iff.2 ⟨hx, hy.mono fun _ => .inl⟩

theorem flatMap {l : List α} {e : α → List Step} (h : ∀ a ∈ l, Scoped ok (e a)) :
    Scoped ok (l.flatMap e) := by
  induction l with
  | nil => trivial
  | cons a l ih =>
    rw [List.flatMap_cons]
    exact (h a (by simp)).append (ih fun b hb => h b (by simp [hb]))

theorem map {l : List α} {e : α → Step} (h : ∀ a ∈ l, ∀ c ∈ (e a).instruction.sources, ok c) :
    Scoped ok (l.map e) := by
  rw [List.map_eq_flatMap]
  exact flatMap fun a ha => ⟨h a ha, trivial⟩

end Scoped

/-- Steps whose derived cells are those of blocks, each once, and whose others are written in
order. -/
structure Fills (ok : Int → Prop) (bs : List Allocation) (cells : List Int) (ss : List Step) :
    Prop where
  derived : (dests true ss).Perm (bs.flatMap Allocation.cells)
  final : dests false ss = cells
  bound : Scoped ok ss

namespace Fills

variable {ok ok' : Int → Prop} {bs cs : List Allocation} {cells : List Int} {xs ys : List Step}

theorem nil : Fills ok [] [] [] := ⟨.refl _, rfl, trivial⟩

theorem mono (h : ∀ c, ok c → ok' c) (hx : Fills ok bs cells xs) : Fills ok' bs cells xs :=
  ⟨hx.derived, hx.final, hx.bound.mono h⟩

theorem append (hx : Fills ok bs [] xs)
    (hy : Fills (fun c => ok c ∨ c ∈ dests true xs) cs cells ys) :
    Fills ok (bs ++ cs) cells (xs ++ ys) where
  derived := by
    rw [dests_append, List.flatMap_append]
    exact hx.derived.append hy.derived
  final := by rw [dests_append, hx.final, hy.final, List.nil_append]
  bound := Scoped.append_iff.2 ⟨hx.bound, hy.bound⟩

end Fills

/-- The cells of the elements of a shape, from a first cell on. -/
def elementCells (shape : List Nat) (base : Int) : List Int :=
  (List.range (Shape.volume shape)).map fun (i : Nat) => base + i

theorem elementCells_eq (shape : List Nat) (base : Int) :
    elementCells shape base =
      (Shape.indices shape).map fun index => base + Shape.flat shape index := by
  rw [elementCells, ← Shape.map_flat_indices, List.map_map]
  rfl

theorem Owned.cells {o : Circuit.Operation} {n : Nat} {b : Allocation} (h : Owned o n b) :
    b.cells = (List.range n).map fun (i : Nat) => b.address.absolute + i := by
  rw [Allocation.cells, h.size, Int.toNat_natCast]

section

variable {o : Circuit.Operation} {natural out : Int} {n : Nat} {t : Target} {ls : List Allocation}

theorem Landing.output_eq {size : Int} (h : Landing o natural size out t ls) : t.output = out := by
  cases h <;> rfl

theorem Landing.landing_eq {size : Int} (h : Landing o natural size out t ls)
    (ht : t.rescales = false) : t.landing = t.output := by
  cases h with
  | direct => rfl
  | apart hn => simp [Target.rescales, hn] at ht

theorem Landing.cells (h : Landing o natural n out t ls) :
    ls.flatMap Allocation.cells =
      if t.rescales then (List.range n).map fun (i : Nat) => t.landing + i else [] := by
  cases h with
  | direct hn => simp [Target.rescales, hn]
  | apart hn hown => simp [Target.rescales, hn, hown.cells]

end

/-- Steps for an element that end in the landing cell of a target, over cells of their own on the
way. -/
structure Lands (ok : Int → Prop) (t : Target) (i : Nat) (own : List Int) (ss : List Step) :
    Prop where
  derived : dests true ss = own ++ if t.rescales then [t.landing + i] else []
  final : dests false ss = if t.rescales then [] else [t.landing + i]
  bound : Scoped ok ss

namespace Lands

variable {ok : Int → Prop} {t : Target} {i : Nat} {own : List Int} {ss : List Step} {label : String}

theorem finish_derived (h : Lands ok t i own ss) :
    dests true (ss ++ t.finish label i) =
      own ++ if t.rescales then [t.landing + i] else [] := by
  rw [dests_append, h.derived, Target.finish]
  split <;> simp [dests]

theorem finish_final (h : Lands ok t i own ss) (ht : t.rescales = false → t.landing = t.output) :
    dests false (ss ++ t.finish label i) = [t.output + i] := by
  rw [dests_append, h.final, Target.finish]
  cases hr : t.rescales with
  | false => simp [ht hr]
  | true => simp [dests, Instruction.dest?, Instruction.form]

theorem finish_scoped (h : Lands ok t i own ss) : Scoped ok (ss ++ t.finish label i) := by
  refine Scoped.append_iff.2 ⟨h.bound, ?_⟩
  rw [h.derived, Target.finish]
  split
  · refine ⟨?_, trivial⟩
    intro c hc
    obtain rfl : c = t.landing + i := by simpa [Instruction.sources] using hc
    exact .inr (by simp)
  · trivial

end Lands

theorem lands_all {ok : Int → Prop} {o : Circuit.Operation} {natural out : Int} {t : Target}
    {ls : List Allocation} {shape : List Nat} (own : List Nat → List Int)
    (body : List Nat → List Step) (label : List Nat → String)
    (hl : Landing o natural (Shape.volume shape : Nat) out t ls)
    (hb : ∀ index ∈ Shape.indices shape,
      Lands ok t (Shape.flat shape index) (own index) (body index)) (ss : List Step)
    (hs : ss = (Shape.indices shape).flatMap fun index =>
      body index ++ t.finish (label index) (Shape.flat shape index)) :
    (dests true ss).Perm ((Shape.indices shape).flatMap own ++ ls.flatMap Allocation.cells) ∧
      dests false ss = elementCells shape out ∧ Scoped ok ss := by
  subst hs
  refine ⟨?_, ?_, Scoped.flatMap fun index h => (hb index h).finish_scoped⟩
  · have hc : ls.flatMap Allocation.cells = (Shape.indices shape).flatMap fun index =>
        if t.rescales then [t.landing + Shape.flat shape index] else [] := by
      rw [hl.cells, ← elementCells, elementCells_eq]
      split
      · rw [List.map_eq_flatMap]
      · simp
    rw [dests_flatMap, hc]
    refine .trans (.of_eq ?_) (List.flatMap_append_perm _ _ _).symm
    exact List.flatMap_congr fun index h => (hb index h).finish_derived
  · rw [dests_flatMap, elementCells_eq, List.map_eq_flatMap, ← hl.output_eq]
    exact List.flatMap_congr fun index h => (hb index h).finish_final hl.landing_eq

theorem binaryStep_lands {ok : Int → Prop} {o : Circuit.Operation} {op : Arithmetic}
    {x y : Operand} {shape index : List Nat} {t : Target}
    (hx : ok (x.cell (Shape.flatProject x.shape index)))
    (hy : ok (y.cell (Shape.flatProject y.shape index))) :
    Lands ok t (Shape.flat shape index) [] [binaryStep o op x y shape t index] := by
  have hd : (binaryStep o op x y shape t index).instruction.dest? =
      some (t.landing + Shape.flat shape index) := by
    cases op <;> rfl
  refine ⟨?_, ?_, ?_, trivial⟩
  · rw [dests_cons, hd]
    cases hr : t.rescales <;> simp [binaryStep, hr]
  · rw [dests_cons, hd]
    cases hr : t.rescales <;> simp [binaryStep, hr]
  · intro c hc
    have hc : c = x.cell (Shape.flatProject x.shape index) ∨
        c = y.cell (Shape.flatProject y.shape index) := by
      cases op <;> simpa [binaryStep, Arithmetic.instruction, Instruction.sources] using hc
    rcases hc with rfl | rfl
    exacts [hx, hy]

theorem binarySteps_eq {o : Circuit.Operation} {op : Arithmetic} {x y : Operand}
    {shape : List Nat} {t : Target} :
    binarySteps o op x y shape t = (Shape.indices shape).flatMap fun index =>
      [binaryStep o op x y shape t index] ++
        t.finish (elementLabel o index) (Shape.flat shape index) := rfl

def Term.cells (t : Term) : List Int := t.a :: t.b.toList

def Term.value (k : Int → Int) (t : Term) : Int :=
  match t.b with
  | none => k t.a
  | some b => k t.a * k b

theorem Term.value_congr {k l : Int → Int} {t : Term} (h : ∀ c ∈ t.cells, k c = l c) :
    t.value k = t.value l := by
  unfold Term.value
  cases hb : t.b with
  | none => exact h _ (by simp [cells])
  | some b =>
    dsimp only
    rw [h t.a (by simp [cells]), h b (by simp [cells, hb])]

theorem Term.dest_instruction {t : Term} {dest acc : Int} :
    (t.instruction dest acc).dest? = some dest := by
  unfold Term.instruction
  cases t.b <;> rfl

namespace Reduction

/-- The cells of the sums on the way to an element, from a step on. -/
def onTheWay (r : Reduction) (i k count : Nat) : List Int :=
  (List.range' k count).map fun (j : Nat) => r.partials + i * ((r.steps : Int) - 1) + j

theorem chain_lands (r : Reduction) (label : String) (i : Nat) {ok : Int → Prop} {k : Nat}
    {acc : Int} {ts : List Term} (hk : k + ts.length = r.steps) (hne : ts ≠ []) (ha : ok acc)
    (ht : ∀ t ∈ ts, ∀ c ∈ t.cells, ok c) :
    Lands ok r.target i (r.onTheWay i k (ts.length - 1)) (r.chain label i k acc ts) := by
  induction ts generalizing ok k acc with
  | nil => exact absurd rfl hne
  | cons t ts ih =>
    have hsrc : ∀ c ∈ (t.instruction (r.dest i k) acc).sources, ok c := by
      intro c hc
      have hc : c = acc ∨ c ∈ t.cells := by
        unfold Term.instruction at hc
        unfold Term.cells
        cases hb : t.b <;> simp_all [Instruction.sources]
      rcases hc with rfl | hc
      exacts [ha, ht t (by simp) c hc]
    have hd : (t.instruction (r.dest i k) acc).dest? = some (r.dest i k) :=
      Term.dest_instruction
    rw [chain]
    cases ts with
    | nil =>
      have hlast : k + 1 = r.steps := by simpa using hk
      have hl : r.dest i k = r.target.landing + i := by rw [dest, if_pos hlast]
      refine ⟨?_, ?_, hsrc, trivial⟩
      · rw [chain, dests_cons, step_instruction, hd, hl]
        cases hr : r.target.rescales <;> simp [hlast, hr, onTheWay]
      · rw [chain, dests_cons, step_instruction, hd, hl]
        cases hr : r.target.rescales <;> simp [hlast, hr]
    | cons u us =>
      have hmore : k + 1 ≠ r.steps := by
        simp only [List.length_cons] at hk
        omega
      have hown : r.dest i k = r.partials + i * ((r.steps : Int) - 1) + k := by
        rw [dest, if_neg hmore]
      have hsd : (r.step label i k acc t).derived = true ∧
          (r.step label i k acc t).instruction = t.instruction (r.dest i k) acc := by
        simp [hmore]
      generalize r.step label i k acc t = s at hsd ⊢
      have hin : r.dest i k ∈ dests true [s] := by simp [dests_cons, hsd, hd]
      have hrest : Lands (fun c => ok c ∨ c ∈ dests true [s]) r.target i
          (r.onTheWay i (k + 1) us.length) (r.chain label i (k + 1) (r.dest i k) (u :: us)) :=
        ih (by simp only [List.length_cons] at hk ⊢; omega) (by simp) (.inr hin)
          (fun v hv c hc => .inl (ht v (by simp [hv]) c hc))
      refine ⟨?_, ?_, hsd.2 ▸ hsrc, hrest.bound⟩
      · rw [dests_cons, hrest.derived, hsd.1, hsd.2, hd]
        simp [onTheWay, List.range'_succ, hown]
      · rw [dests_cons, hrest.final, hsd.1]
        simp

theorem elements_eq {r : Reduction} {o : Circuit.Operation} {i : Nat} {l : List (List Nat)}
    {f : List Nat → List Term} {pos : List Nat → Nat} (h : l.map pos = List.range' i l.length) :
    r.elements o i l (l.map f) = l.flatMap fun index =>
      r.chain (elementLabel o index) (pos index) 0 r.zero (f index) ++
        r.target.finish (elementLabel o index) (pos index) := by
  induction l generalizing i with
  | nil => rfl
  | cons index l ih =>
    rw [List.map_cons, List.length_cons, List.range'_succ, List.cons.injEq] at h
    rw [List.map_cons, elements, ih h.2, List.flatMap_cons, h.1]

theorem onTheWay_all {r : Reduction} (hn : r.steps ≠ 0) (shape : List Nat) :
    (Shape.indices shape).flatMap (fun index =>
        r.onTheWay (Shape.flat shape index) 0 (r.steps - 1)) =
      (List.range (Shape.volume shape * (r.steps - 1))).map fun (i : Nat) => r.partials + i := by
  have hc : (r.steps : Int) - 1 = ((r.steps - 1 : Nat) : Int) := by omega
  rw [← Shape.range_mul, List.map_flatMap, ← Shape.map_flat_indices, List.flatMap_map]
  apply List.flatMap_congr
  intro index _
  rw [onTheWay, List.range_eq_range', List.map_map, hc]
  apply List.map_congr_left
  intro j _
  simp [Int.add_assoc]

end Reduction

theorem reductionSteps_eq {o : Circuit.Operation} {r : Reduction} {shape : List Nat}
    {f : List Nat → List Term} :
    reductionSteps o r shape ((Shape.indices shape).map f) =
      (Shape.indices shape).flatMap fun index =>
        r.chain (elementLabel o index) (Shape.flat shape index) 0 r.zero (f index) ++
          r.target.finish (elementLabel o index) (Shape.flat shape index) := by
  apply Reduction.elements_eq
  rw [Shape.map_flat_indices, List.range_eq_range', Shape.length_indices]

theorem Partials.cells {o : Circuit.Operation} {count n : Nat} {partials : Int}
    {ps : List Allocation} (h : Partials o count n partials ps) :
    ps.flatMap Allocation.cells =
      (List.range (count * (n - 1))).map fun (i : Nat) => partials + i := by
  cases h with
  | single hn => simp [hn]
  | chained hn hown =>
    have hc : (n : Int) - 1 = ((n - 1 : Nat) : Int) := by omega
    rw [hc, ← Int.natCast_mul] at hown
    simp [hown.cells]

section

variable {g : Circuit.Graph} {a : Allocator} {zero : Int} {o : Circuit.Operation}
  {ok : Int → Prop}

/-- The cells that the steps of an operation may read from elsewhere. -/
def Readable (g : Circuit.Graph) (a : Allocator) (zero : Int) (o : Circuit.Operation)
    (c : Int) : Prop :=
  c = zero ∨ ∃ id ∈ o.inputs, ∃ x, Placed g a id x ∧ ∃ i < Shape.volume x.shape, c = x.cell i

theorem Placed.readable {id : String} {x : Operand} (h : Placed g a id x) (hi : id ∈ o.inputs)
    {i : Nat} (hl : i < Shape.volume x.shape) : Readable g a zero o (x.cell i) :=
  .inr ⟨id, hi, x, h, i, hl, rfl⟩

theorem Brought.fills (ok : Int → Prop) {x x' : Operand} {target : Int} {bs : List Allocation}
    {ss : List Step} (h : Brought o x target x' bs ss)
    (hx : ∀ i < Shape.volume x.shape, ok (x.cell i)) :
    Fills ok bs [] ss ∧
      ∀ i < Shape.volume x.shape, ok (x'.cell i) ∨ x'.cell i ∈ dests true ss := by
  cases h with
  | same => exact ⟨.nil, fun i hi => .inl (hx i hi)⟩
  | @copied b hs hown =>
    obtain ⟨ht, hf⟩ := dests_requant o x target b.address.absolute
      (List.range (Shape.volume x.shape))
    refine ⟨⟨?_, hf, Scoped.map ?_⟩, ?_⟩
    · rw [requantSteps, ht]
      simp [hown.cells]
    · intro i hi c hc
      obtain rfl : c = x.cell i := by simpa [Instruction.sources] using hc
      exact hx i (List.mem_range.1 hi)
    · intro i hi
      rw [requantSteps, ht]
      exact .inr (List.mem_map.2 ⟨i, List.mem_range.2 hi, rfl⟩)

/-- Summands of the same number for each element, over cells that can be read. -/
structure Uniform (ok : Int → Prop) (shape : List Nat) (terms : List (List Term)) (n : Nat)
    (f : List Nat → List Term) : Prop where
  terms_eq : terms = (Shape.indices shape).map f
  length : ∀ index ∈ Shape.indices shape, (f index).length = n
  readable : ∀ index ∈ Shape.indices shape, ∀ t ∈ f index, ∀ c ∈ t.cells, ok c

theorem Uniform.length_eq {shape : List Nat} {terms : List (List Term)} {n : Nat}
    {f : List Nat → List Term} (hu : Uniform ok shape terms n f) : ∀ ts ∈ terms, ts.length = n := by
  obtain ⟨rfl, hn, -⟩ := hu
  intro ts hts
  obtain ⟨index, hi, rfl⟩ := List.mem_map.1 hts
  exact hn index hi

theorem Reduced.fills {natural out : Int} {shape : List Nat} {terms : List (List Term)}
    {bs : List Allocation} {ss : List Step} (h : Reduced zero o natural shape out terms bs ss)
    {n : Nat} {f : List Nat → List Term} (hu : Uniform ok shape terms n f) (hz : ok zero) :
    Fills ok bs (elementCells shape out) ss := by
  obtain ⟨rfl, hn, hc⟩ := hu
  cases h with
  | empty he =>
    have hv : Shape.volume shape = 0 := by
      rw [← Shape.length_indices, List.map_eq_nil_iff.1 he]
      rfl
    rw [elementCells, hv]
    exact .nil
  | @chains k partials t ps ls hk hh hp hl =>
    have hkn : ∀ index ∈ Shape.indices shape, (f index).length = k := by
      intro index hi
      cases hix : Shape.indices shape with
      | nil => simp [hix] at hi
      | cons first rest =>
        rw [hix] at hh
        have hfirst : (f first).length = k := by simpa using hh
        rw [hn index hi, ← hn first (by simp [hix]), hfirst]
    rw [List.length_map, Shape.length_indices] at hp hl
    have hlands : ∀ index ∈ Shape.indices shape, Lands ok t (Shape.flat shape index)
        ((⟨zero, partials, k, t⟩ : Reduction).onTheWay (Shape.flat shape index) 0 (k - 1))
        ((⟨zero, partials, k, t⟩ : Reduction).chain (elementLabel o index)
          (Shape.flat shape index) 0 zero (f index)) := by
      intro index hi
      have hlen := hkn index hi
      have hne : f index ≠ [] := by
        rintro he
        rw [he] at hlen
        exact hk hlen.symm
      have hchain := Reduction.chain_lands ⟨zero, partials, k, t⟩ (elementLabel o index)
        (Shape.flat shape index) (k := 0) (by simpa using hlen) hne hz (hc index hi)
      rw [hlen] at hchain
      exact hchain
    have hall := lands_all _ _ (elementLabel o) hl hlands _ reductionSteps_eq
    rw [Reduction.onTheWay_all (r := ⟨zero, partials, k, t⟩) hk, ← hp.cells,
      ← List.flatMap_append] at hall
    exact ⟨hall.1, hall.2.1, hall.2.2⟩

theorem product_places {x y : List Nat} {k n : Nat} {shape : List Nat}
    (h : product? x y = some (k, n, shape)) {index : List Nat}
    (hi : index ∈ Shape.indices shape) {r : Nat} (hr : r < k) :
    index.dropLast ++ [r] ∈ Shape.indices x ∧ [r, index.getLastD 0] ∈ Shape.indices y ∧
      Shape.flat x (index.dropLast ++ [r]) =
        (if x.length = 2 then index.headD 0 else 0) * k + r ∧
      Shape.flat y [r, index.getLastD 0] = r * n + index.getLastD 0 := by
  unfold product? at h
  split at h
  · split at h
    · next he =>
        simp only [Option.some.injEq, Prod.mk.injEq] at h
        obtain ⟨rfl, rfl, rfl⟩ := h
        subst he
        obtain ⟨j, rfl⟩ := List.length_eq_one_iff.1 (Shape.length_of_mem_indices hi)
        have hj := Shape.mem_indices.1 hi
        simp only [List.forall₂_cons, List.forall₂_nil_right_iff, and_true] at hj
        refine ⟨Shape.mem_indices.2 ?_, Shape.mem_indices.2 ?_, ?_, ?_⟩ <;>
          simp [Shape.flat, hr, hj]
    · exact absurd h (by simp)
  · split at h
    · next he =>
        simp only [Option.some.injEq, Prod.mk.injEq] at h
        obtain ⟨rfl, rfl, rfl⟩ := h
        subst he
        obtain ⟨i, j, rfl⟩ := List.length_eq_two.1 (Shape.length_of_mem_indices hi)
        have hij := Shape.mem_indices.1 hi
        simp only [List.forall₂_cons, List.forall₂_nil_right_iff, and_true] at hij
        refine ⟨Shape.mem_indices.2 ?_, Shape.mem_indices.2 ?_, ?_, ?_⟩ <;>
          simp [Shape.flat, hr, hij]
    · exact absurd h (by simp)
  · exact absurd h (by simp)

theorem Convolves.shapes {x w : Operand} {c : Window} (h : Convolves o x w c) :
    x.shape = c.inputShape ∧ w.shape = c.kernelShape := by
  obtain ⟨stride, pad, -, -, hc⟩ := h.window
  have hch := h.channels
  unfold window? at hc
  split at hc
  · next ch hh hv f ch' kh kv hx hw =>
      rw [hx, hw] at hch
      obtain rfl : ch = ch' := by simpa [channelsAgree] using hch
      obtain rfl := Option.some.inj hc
      exact ⟨hx, hw⟩
  · exact absurd hc (by simp)

theorem tap_places {c : Window} {index k : List Nat} (hi : index ∈ Shape.indices c.outShape)
    (hk : k ∈ Shape.indices [c.channels, c.kernelHeight, c.kernelWidth]) :
    Shape.flat c.kernelShape [index.getD 0 0, k.getD 0 0, k.getD 1 0, k.getD 2 0] <
        Shape.volume c.kernelShape ∧
      ∀ y z : Int, 0 ≤ y ∧ y < c.height ∧ 0 ≤ z ∧ z < c.width →
        Shape.flat c.inputShape [k.getD 0 0, y.toNat, z.toNat] < Shape.volume c.inputShape := by
  obtain ⟨f, i, j, rfl⟩ := List.length_eq_three.1 (Shape.length_of_mem_indices hi)
  obtain ⟨ch, di, dj, rfl⟩ := List.length_eq_three.1 (Shape.length_of_mem_indices hk)
  have hi := Shape.mem_indices.1 hi
  have hk := Shape.mem_indices.1 hk
  simp only [Window.outShape, List.forall₂_cons, List.forall₂_nil_right_iff, and_true] at hi hk
  constructor
  · apply Shape.flat_lt
    rw [Shape.mem_indices]
    simp [Window.kernelShape, hi, hk]
  · intro y z hin
    apply Shape.flat_lt
    rw [Shape.mem_indices]
    simp only [Window.inputShape, List.getD_cons_zero, List.forall₂_cons,
      List.forall₂_nil_right_iff, and_true]
    omega

theorem tap_readable {x w : Operand} {c : Window} (hc : Convolves o x w c)
    (hx : ∀ i < Shape.volume x.shape, ok (x.cell i))
    (hw : ∀ i < Shape.volume w.shape, ok (w.cell i)) (hz : ok zero) {index k : List Nat}
    (hi : index ∈ Shape.indices c.outShape)
    (hk : k ∈ Shape.indices [c.channels, c.kernelHeight, c.kernelWidth]) :
    ∀ e ∈ (c.tap zero x w (index.getD 0 0) (index.getD 1 0) (index.getD 2 0) (k.getD 0 0)
      (k.getD 1 0) (k.getD 2 0)).cells, ok e := by
  obtain ⟨hxs, hws⟩ := hc.shapes
  obtain ⟨hker, hin⟩ := tap_places hi hk
  intro e he
  simp only [Term.cells, Window.tap, Option.toList_some, List.mem_cons, List.not_mem_nil,
    or_false] at he
  rcases he with rfl | rfl
  · split
    · next hinside => exact hx _ (hxs ▸ hin _ _ hinside)
    · exact hz
  · exact hw _ (hws ▸ hker)

theorem uniform_single {shape : List Nat} (hs : shape = [] ∨ shape = [1]) {ts : List Term}
    (hc : ∀ t ∈ ts, ∀ c ∈ t.cells, ok c) : Uniform ok shape [ts] ts.length fun _ => ts :=
  ⟨by rcases hs with rfl | rfl <;> rfl, fun _ _ => rfl, fun _ _ => hc⟩

theorem conv_uniform {x w : Operand} {c : Window} (hc : Convolves o x w c)
    (hx : ∀ i < Shape.volume x.shape, ok (x.cell i))
    (hw : ∀ i < Shape.volume w.shape, ok (w.cell i)) (hz : ok zero) (bias : Option Operand)
    (hb : ∀ b ∈ bias, ∀ i < c.filters, ok (b.cell i)) :
    Uniform ok c.outShape (c.terms zero x w bias)
      (bias.toList.length + (Shape.indices [c.channels, c.kernelHeight, c.kernelWidth]).length)
      (fun index => (bias.toList.map fun b => ⟨b.cell (index.getD 0 0), none⟩) ++
        c.taps zero x w (index.getD 0 0) (index.getD 1 0) (index.getD 2 0)) := by
  refine ⟨c.terms_eq zero x w bias, fun index _ => by simp [Window.taps_eq], ?_⟩
  intro index hi t ht
  rw [List.mem_append, Window.taps_eq] at ht
  rcases ht with ht | ht
  · obtain ⟨b, hm, rfl⟩ := List.mem_map.1 ht
    have hlt : index.getD 0 0 < c.filters := by
      obtain ⟨f, i, j, rfl⟩ := List.length_eq_three.1 (Shape.length_of_mem_indices hi)
      have hi := Shape.mem_indices.1 hi
      simp only [Window.outShape, List.forall₂_cons] at hi
      exact hi.1
    intro e he
    obtain rfl : e = b.cell (index.getD 0 0) := by simpa [Term.cells] using he
    exact hb b (by simpa using hm) _ hlt
  · obtain ⟨k, hk, rfl⟩ := List.mem_map.1 ht
    exact tap_readable hc hx hw hz hi hk

theorem Summands.fills {natural : Int} {shape : List Nat} {terms : List (List Term)}
    {bs : List Allocation} {ss : List Step} (h : Summands g zero a o natural shape terms bs ss) :
    Fills (Readable g a zero o) bs [] ss ∧
      ∃ n f, Uniform (fun c => Readable g a zero o c ∨ c ∈ dests true ss) shape terms n f := by
  have hz : Readable g a zero o zero := .inl rfl
  cases h with
  | @matmul ia ib x y k n shape hk hi hx hy hp =>
    refine ⟨.nil, k, _, rfl, fun index _ => by simp, ?_⟩
    intro index hm t ht c hc
    obtain ⟨r, hr, rfl⟩ := List.mem_map.1 ht
    obtain ⟨hmx, hmy, hfx, hfy⟩ := product_places hp hm (List.mem_range.1 hr)
    simp only [Term.cells, Option.toList_some, List.mem_cons, List.not_mem_nil, or_false] at hc
    rcases hc with rfl | rfl
    · exact .inl (hx.readable (by simp [hi]) (by rw [← hfx]; exact Shape.flat_lt hmx))
    · exact .inl (hy.readable (by simp [hi]) (by rw [← hfy]; exact Shape.flat_lt hmy))
  | @dot ia ib x y shape hk hi hx hy hs hone =>
    refine ⟨.nil, _, _, uniform_single hone ?_⟩
    intro t ht c hc
    obtain ⟨i, hm, rfl⟩ := List.mem_map.1 ht
    have hl := List.mem_range.1 hm
    simp only [Term.cells, Option.toList_some, List.mem_cons, List.not_mem_nil, or_false] at hc
    rcases hc with rfl | rfl
    · exact .inl (hx.readable (by simp [hi]) hl)
    · exact .inl (hy.readable (by simp [hi]) (hs ▸ hl))
  | @sum ia x shape hk hi hx hone =>
    refine ⟨.nil, _, _, uniform_single hone ?_⟩
    intro t ht c hc
    obtain ⟨i, hm, rfl⟩ := List.mem_map.1 ht
    obtain rfl : c = x.cell i := by simpa [Term.cells] using hc
    exact .inl (hx.readable (by simp [hi]) (List.mem_range.1 hm))
  | @conv ix iw x w c hk hi hx hw hc =>
    refine ⟨.nil, _, _, conv_uniform hc ?_ ?_ (.inl hz) none (by simp)⟩
    · exact fun i hl => .inl (hx.readable (by simp [hi]) hl)
    · exact fun i hl => .inl (hw.readable (by simp [hi]) hl)
  | @biased ix iw ib x w b b' c bs ss hk hi hx hw hb hc hf hbr =>
    obtain ⟨hfill, hcells⟩ := hbr.fills (Readable g a zero o)
      fun i hl => hb.readable (by simp [hi]) hl
    refine ⟨hfill, _, _, conv_uniform hc ?_ ?_ (.inl hz) (some b') ?_⟩
    · exact fun i hl => .inl (hx.readable (by simp [hi]) hl)
    · exact fun i hl => .inl (hw.readable (by simp [hi]) hl)
    · intro e he i hl
      obtain rfl : b' = e := by simpa using he
      exact hcells i (by rw [hf]; simpa using hl)

theorem pointwise_fills {n : Nat} {e : Nat → Step} {shape : List Nat} {out : Int}
    (hn : Shape.volume shape = n)
    (hd : ∀ i, (e i).derived = false ∧ (e i).instruction.dest? = some (out + i))
    (hs : ∀ i < n, ∀ c ∈ (e i).instruction.sources, ok c) :
    Fills ok [] (elementCells shape out) ((List.range n).map e) := by
  obtain ⟨hf, ht⟩ := dests_map (f := false) (l := List.range n) fun i _ => hd i
  exact ⟨.of_eq ht, by rw [hf, elementCells, hn], .map fun i hi => hs i (List.mem_range.1 hi)⟩

theorem binary_fills {op : Arithmetic} {x y : Operand} {natural out : Int} {shape : List Nat}
    {t : Target} {ls : List Allocation} (hl : Landing o natural (Shape.volume shape : Nat) out t ls)
    (hx : ∀ index ∈ Shape.indices shape, ok (x.cell (Shape.flatProject x.shape index)))
    (hy : ∀ index ∈ Shape.indices shape, ok (y.cell (Shape.flatProject y.shape index))) :
    Fills ok ls (elementCells shape out) (binarySteps o op x y shape t) := by
  obtain ⟨hd, hf, hs⟩ := lands_all (fun _ => []) _ _ hl
    (fun index hi => binaryStep_lands (hx index hi) (hy index hi)) (binarySteps o op x y shape t)
    binarySteps_eq
  rw [List.flatMap_eq_nil_iff.2 fun _ _ => rfl, List.nil_append] at hd
  exact ⟨hd, hf, hs⟩

theorem joined_fills (op : Arithmetic) {x y x' y' : Operand} {left right natural out : Int}
    {shape : List Nat} {t : Target} {bx bz ls : List Allocation} {sx sy : List Step}
    (hbx : Brought o x left x' bx sx) (hby : Brought o y right y' bz sy)
    (hl : Landing o natural (Shape.volume shape : Nat) out t ls)
    (hsx : Shape.Stretches x.shape shape) (hsy : Shape.Stretches y.shape shape)
    (hx : ∀ i < Shape.volume x.shape, ok (x.cell i))
    (hy : ∀ i < Shape.volume y.shape, ok (y.cell i)) :
    Fills ok (bx ++ bz ++ ls) (elementCells shape out)
      (sx ++ sy ++ binarySteps o op x' y' shape t) := by
  obtain ⟨fx, ex⟩ := hbx.fills ok hx
  obtain ⟨fy, ey⟩ := hby.fills ok hy
  have fxy := fx.append (fy.mono fun _ => .inl)
  have hmain : Fills (fun c => ok c ∨ c ∈ dests true (sx ++ sy)) ls (elementCells shape out)
      (binarySteps o op x' y' shape t) := by
    refine binary_fills hl ?_ ?_
    · intro index hm
      rw [Operand.shape, hbx.tensor_eq, dests_append, List.mem_append, ← or_assoc]
      exact .inl (ex _ (Shape.flatProject_lt hsx hm))
    · intro index hm
      rw [Operand.shape, hby.tensor_eq, dests_append, List.mem_append]
      exact (ey _ (Shape.flatProject_lt hsy hm)).imp id .inr
  exact fxy.append hmain

/-- The steps of an operation fill its scratch blocks and its output, each cell once. -/
theorem Template.fills [Platform] {lookupBits : Json} {ts : List FoldedTable} {bs : List Allocation}
    {ss : List Step} (h : Template g lookupBits zero a ts o bs ss) :
    ∃ out, Placed g a o.output out ∧
      Fills (Readable g a zero o) bs (elementCells out.shape out.base) ss := by
  have hz : Readable g a zero o zero := .inl rfl
  cases h with
  | @linear op ia ib x y x' y' out bx bz sx sy hk hi hx hy hout hb hbx hby =>
    obtain ⟨hsx, hsy⟩ := Shape.broadcast_stretches hb
    have hf : Fills (Readable g a zero o) (bx ++ bz ++ []) (elementCells out.shape out.base) _ :=
      joined_fills op hbx hby (.direct rfl) hsx hsy
        (fun i hl => hx.readable (by simp [hi]) hl) fun i hl => hy.readable (by simp [hi]) hl
    rw [List.append_nil] at hf
    exact ⟨out, hout, hf⟩
  | @product ia ib x y out t ls hk hi hx hy hout hb hl =>
    obtain ⟨hsx, hsy⟩ := Shape.broadcast_stretches hb
    refine ⟨out, hout, binary_fills hl ?_ ?_⟩
    · exact fun index hm => hx.readable (by simp [hi]) (Shape.flatProject_lt hsx hm)
    · exact fun index hm => hy.readable (by simp [hi]) (Shape.flatProject_lt hsy hm)
  | @unary negate ia x x' out bs ss hk hi hx hout hs hb =>
    obtain ⟨fx, ex⟩ := hb.fills (Readable g a zero o) fun i hl => hx.readable (by simp [hi]) hl
    have hmain : Fills (fun c => Readable g a zero o c ∨ c ∈ dests true ss) []
        (elementCells out.shape out.base)
        (unarySteps o negate x' zero out.base (Shape.volume x.shape)) := by
      refine pointwise_fills (by rw [hs]) (fun i => ⟨rfl, by cases negate <;> rfl⟩) ?_
      intro i hl c hc
      have hc : c = zero ∨ c = x'.cell i := by
        cases negate <;> simp [Instruction.sources] at hc <;> tauto
      rcases hc with rfl | rfl
      exacts [.inl hz, ex i hl]
    exact ⟨out, hout, by simpa using fx.append hmain⟩
  | @reduction natural terms out bs rs ss steps hsum hout hr =>
    obtain ⟨fs, n, f, hu⟩ := hsum.fills
    exact ⟨out, hout, fs.append (hr.fills hu (.inl hz))⟩
  | @lookup kind ia x out spec t hk hc hi hx hout hs hspec ht hf =>
    refine ⟨out, hout, pointwise_fills (by rw [hs]) (fun i => ⟨rfl, rfl⟩) ?_⟩
    intro i hl c hc
    obtain rfl : c = x.cell i := by simpa [Instruction.sources] using hc
    exact hx.readable (by simp [hi]) hl
  | @rescale ia x out hk hi hx hout hs hb =>
    refine ⟨out, hout, pointwise_fills (by rw [hs]) (fun i => ⟨rfl, rfl⟩) ?_⟩
    intro i hl c hc
    obtain rfl : c = x.cell i := by simpa [Instruction.sources] using hc
    exact hx.readable (by simp [hi]) hl
  | @clamp ia x x' out lo hi' bs ss hk hi hx hout hs hb hle hbr =>
    obtain ⟨fx, ex⟩ := hbr.fills (Readable g a zero o) fun i hl => hx.readable (by simp [hi]) hl
    have hmain : Fills (fun c => Readable g a zero o c ∨ c ∈ dests true ss) []
        (elementCells out.shape out.base)
        (clampSteps o x' lo hi' out.base (Shape.volume x.shape)) := by
      refine pointwise_fills (by rw [hs]) (fun i => ⟨rfl, rfl⟩) ?_
      intro i hl c hc
      obtain rfl : c = x'.cell i := by simpa [Instruction.sources] using hc
      exact ex i hl
    exact ⟨out, hout, by simpa using fx.append hmain⟩

end

section

variable {g : Circuit.Graph} {a : Allocator} {zero : Int} {o : Circuit.Operation} {s : Step}

theorem finish_arithmetic {t : Target} {label : String} {i : Nat} (h : s ∈ t.finish label i) :
    s.instruction.isArithmetic = true := by
  unfold Target.finish at h
  split at h
  · rw [List.mem_singleton.1 h]
    rfl
  · simp at h

theorem binary_arithmetic {op : Arithmetic} {x y : Operand} {shape : List Nat} {t : Target}
    (h : s ∈ binarySteps o op x y shape t) : s.instruction.isArithmetic = true := by
  obtain ⟨index, -, h⟩ := List.mem_flatMap.1 h
  rcases List.mem_cons.1 h with rfl | h
  · cases op <;> rfl
  · exact finish_arithmetic h

theorem chain_arithmetic {r : Reduction} {label : String} {i k : Nat} {acc : Int} {ts : List Term}
    (h : s ∈ r.chain label i k acc ts) : s.instruction.isArithmetic = true := by
  induction ts generalizing k acc with
  | nil => simp [Reduction.chain] at h
  | cons t ts ih =>
    rw [Reduction.chain] at h
    rcases List.mem_cons.1 h with rfl | h
    · rw [Reduction.step_instruction, Term.instruction]
      split <;> rfl
    · exact ih h

theorem elements_arithmetic {r : Reduction} {i : Nat} {is : List (List Nat)}
    {tss : List (List Term)} (h : s ∈ r.elements o i is tss) :
    s.instruction.isArithmetic = true := by
  induction is generalizing i tss with
  | nil => simp [Reduction.elements] at h
  | cons index is ih =>
    cases tss with
    | nil => simp [Reduction.elements] at h
    | cons ts tss =>
      rw [Reduction.elements] at h
      simp only [List.mem_append] at h
      rcases h with (h | h) | h
      exacts [chain_arithmetic h, finish_arithmetic h, ih h]

theorem Brought.arithmetic {x x' : Operand} {target : Int} {bs : List Allocation} {ss : List Step}
    (hb : Brought o x target x' bs ss) (h : s ∈ ss) : s.instruction.isArithmetic = true := by
  cases hb with
  | same => simp at h
  | copied =>
    obtain ⟨i, -, rfl⟩ := List.mem_map.1 h
    rfl

theorem Summands.arithmetic {natural : Int} {shape : List Nat} {terms : List (List Term)}
    {bs : List Allocation} {ss : List Step} (hs : Summands g zero a o natural shape terms bs ss)
    (h : s ∈ ss) : s.instruction.isArithmetic = true := by
  cases hs with
  | biased _ _ _ _ _ _ _ hbr => exact hbr.arithmetic h
  | _ => simp at h

theorem Reduced.arithmetic {natural out : Int} {shape : List Nat} {terms : List (List Term)}
    {bs : List Allocation} {ss : List Step} (hr : Reduced zero o natural shape out terms bs ss)
    (h : s ∈ ss) : s.instruction.isArithmetic = true := by
  cases hr with
  | empty => simp at h
  | chains => exact elements_arithmetic h

/-- The table of a nonlinearity: its rows are those of the spec of the operation. -/
def TableOf [Platform] (g : Circuit.Graph) (lookupBits : Json) (o : Circuit.Operation)
    (t : FoldedTable) : Prop :=
  ∃ id u spec, o.inputs = [id] ∧ g.tensor? id = some u ∧
    Table.specFor o u.scale lookupBits = .ok spec ∧ Table.fold spec = .ok t.rows.toList

/-- A lookup for an element of the input of a nonlinearity, which derives nothing. -/
inductive Consults [Platform] (g : Circuit.Graph) (lookupBits : Json) (a : Allocator)
    (ts : List FoldedTable) (o : Circuit.Operation) (s : Step) : Prop
  | intro {kind : Circuit.Kind} {id : String} {x : Operand} {spec : Table.Spec} {t : FoldedTable}
      {i : Nat} {dest : Int} : o.kind? = some kind → kind.category = .nonlinearity →
      o.inputs = [id] → Placed g a id x → Table.specFor o x.scale lookupBits = .ok spec → t ∈ ts →
      Table.fold spec = .ok t.rows.toList → i < Shape.volume x.shape → s.derived = false →
      s.instruction = .lookup dest (x.cell i) t.address.absolute t.rows.size →
      Consults g lookupBits a ts o s

theorem Template.arithmetic_or_consults [Platform] {lookupBits : Json} {ts : List FoldedTable}
    {bs : List Allocation} {ss : List Step} (ht : Template g lookupBits zero a ts o bs ss)
    (h : s ∈ ss) : s.instruction.isArithmetic = true ∨ Consults g lookupBits a ts o s := by
  cases ht with
  | linear _ _ _ _ _ _ hbx hby =>
    simp only [List.mem_append] at h
    rcases h with (h | h) | h
    exacts [.inl (hbx.arithmetic h), .inl (hby.arithmetic h), .inl (binary_arithmetic h)]
  | product => exact .inl (binary_arithmetic h)
  | @unary negate _ _ _ _ _ _ _ _ _ _ _ hb =>
    rcases List.mem_append.1 h with h | h
    · exact .inl (hb.arithmetic h)
    · obtain ⟨i, -, rfl⟩ := List.mem_map.1 h
      exact .inl (by cases negate <;> rfl)
  | reduction hs _ hr =>
    rcases List.mem_append.1 h with h | h
    exacts [.inl (hs.arithmetic h), .inl (hr.arithmetic h)]
  | @lookup _ _ x _ spec t hk hc hi hx _ _ hspec ht hf =>
    obtain ⟨i, hm, rfl⟩ := List.mem_map.1 h
    have hrows : (t.rows.size : Int) = spec.rows := by simpa using Table.length_fold hf
    exact .inr ⟨hk, hc, hi, hx, hspec, ht, hf, List.mem_range.1 hm, rfl, by rw [hrows]⟩
  | rescale =>
    obtain ⟨i, -, rfl⟩ := List.mem_map.1 h
    exact .inl rfl
  | clamp _ _ _ _ _ _ _ hbr =>
    rcases List.mem_append.1 h with h | h
    · exact .inl (hbr.arithmetic h)
    · obtain ⟨i, -, rfl⟩ := List.mem_map.1 h
      exact .inl rfl

theorem Template.instruction [Platform] {lookupBits : Json} {ts : List FoldedTable}
    {bs : List Allocation} {ss : List Step} (ht : Template g lookupBits zero a ts o bs ss)
    (h : s ∈ ss) :
    s.instruction.isArithmetic = true ∨ s.derived = false ∧ ∃ t ∈ ts, TableOf g lookupBits o t ∧
      ∃ dest key, s.instruction = .lookup dest key t.address.absolute t.rows.size := by
  rcases ht.arithmetic_or_consults h with ha | ⟨-, -, hi, hx, hspec, hmem, hf, -, hd, hs⟩
  · exact .inl ha
  · rw [hx.scale] at hspec
    exact .inr ⟨hd, _, hmem, ⟨_, _, _, hi, hx.tensor, hspec, hf⟩, _, _, hs⟩

end

end Lowering

end TensorAsm
