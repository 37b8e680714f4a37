import TensorAsm.Proofs.Reference
import TensorAsm.Proofs.Scopes
/-!
The steps of an operation compute its reference. Once the derived cells hold the results of their
instructions, each step that is not derived results in the reference of its element.
-/

namespace TensorAsm

/-- The result of an instruction on the values of cells, with the rows of each table. -/
def Instruction.eval [Platform] (S : Semantics) (look : Int → List Table.Row) (k : Int → Int) :
    Instruction → Option Int
  | .add _ a b => some (S.wrap (k a + k b))
  | .sub _ a b => some (S.wrap (k a - k b))
  | .mul _ a b => some (S.wrap (k a * k b))
  | .mac _ c a b => some (S.wrap (k c + k a * k b))
  | .rescale _ a shift => S.moved shift (k a)
  | .clamp _ a lo hi => some (S.clamped lo.value hi.value (k a))
  | .lookup _ a table _ => ((look table).find? (·.x == S.signed (k a))).map fun r => S.wrap r.y
  | .halt => none

namespace Lowering

/-- The cell that an instruction writes holds its result. -/
def Holds [Platform] (S : Semantics) (look : Int → List Table.Row) (k : Int → Int)
    (i : Instruction) : Prop :=
  ∀ d ∈ i.dest?, i.eval S look k = some (k d)

/-- The cells that are written without being derived, each with the result for it. -/
def finals [Platform] (S : Semantics) (look : Int → List Table.Row) (k : Int → Int)
    (ss : List Step) : List (Int × Option Int) :=
  (ss.filter (!·.derived)).flatMap fun s =>
    s.instruction.dest?.toList.map fun d => (d, s.instruction.eval S look k)

/-- Cells that hold reduced values: zero in the zero cell, and the inputs of an operation. -/
structure Interprets (S : Semantics) (look : Int → List Table.Row) (k : Int → Int)
    (g : Circuit.Graph) (zero : Int) (a : Allocator) (ts : List FoldedTable)
    (v : String → Nat → Int) (o : Circuit.Operation) : Prop where
  zero : k zero = 0
  reduced : ∀ c, S.wrap (k c) = k c
  tables : ∀ t ∈ ts, look t.address.absolute = t.rows.toList
  inputs : ∀ id ∈ o.inputs, ∀ x, Placed g a id x → ∀ i < Shape.volume x.shape,
    k (x.cell i) = v id i

variable {S : Semantics} {look : Int → List Table.Row} {k : Int → Int} {g : Circuit.Graph}
  {zero : Int} {a : Allocator} {ts : List FoldedTable} {v : String → Nat → Int}
  {o : Circuit.Operation} {lookupBits : Json}

section

variable [Platform] {α : Type} {xs ys : List Step} {s : Step}

@[simp] theorem finals_nil : finals S look k [] = [] := rfl

theorem finals_cons :
    finals S look k (s :: xs) = (if s.derived then [] else
      s.instruction.dest?.toList.map fun d => (d, s.instruction.eval S look k)) ++
        finals S look k xs := by
  unfold finals
  cases h : s.derived <;> simp [h]

@[simp] theorem finals_append :
    finals S look k (xs ++ ys) = finals S look k xs ++ finals S look k ys := by
  simp [finals]

theorem finals_flatMap {l : List α} {e : α → List Step} {r : α → Int × Option Int}
    (h : ∀ x ∈ l, finals S look k (e x) = [r x]) : finals S look k (l.flatMap e) = l.map r := by
  induction l with
  | nil => rfl
  | cons x l ih =>
    rw [List.flatMap_cons, finals_append, h x (by simp), ih fun y hy => h y (by simp [hy])]
    rfl

theorem finals_derived (h : ∀ s ∈ xs, s.derived = true) : finals S look k xs = [] := by
  unfold finals
  rw [List.filter_eq_nil_iff.2 fun s hs => by simp [h s hs]]
  rfl

theorem mem_finals {d : Int} {r : Option Int} :
    (d, r) ∈ finals S look k xs ↔ ∃ s ∈ xs, s.derived = false ∧ s.instruction.dest? = some d ∧
      s.instruction.eval S look k = r := by
  simp [finals, and_assoc]

end

namespace Interprets

variable (h : Interprets S look k g zero a ts v o) {id : String} {x : Operand} {index : List Nat}

include h

theorem entry (hid : id ∈ o.inputs) (hx : Placed g a id x) (hi : index ∈ Shape.indices x.shape) :
    (Semantics.Source.ofTensor v x.tensor).entry index = k (x.cell (Shape.flat x.shape index)) := by
  rw [h.inputs id hid x hx _ (Shape.flat_lt hi)]
  simp only [Semantics.Source.ofTensor, Circuit.Graph.tensor_id hx.tensor]
  rfl

theorem stretched {shape : List Nat} (hid : id ∈ o.inputs) (hx : Placed g a id x)
    (hs : Shape.Stretches x.shape shape) (hi : index ∈ Shape.indices shape) :
    (Semantics.Source.ofTensor v x.tensor).stretched index =
      k (x.cell (Shape.flatProject x.shape index)) :=
  h.entry hid hx (Shape.project_mem_indices hs hi)

end Interprets

theorem Brought.moved [Platform] {x x' : Operand} {target : Int} {bs : List Allocation}
    {ss : List Step} (h : Brought o x target x' bs ss)
    (hr : ∀ i < Shape.volume x.shape, S.wrap (k (x.cell i)) = k (x.cell i))
    (hd : ∀ s ∈ ss, s.derived = true → Holds S look k s.instruction) :
    finals S look k ss = [] ∧ ∀ i < Shape.volume x.shape,
      S.moved (x.scale - target) (k (x.cell i)) = some (k (x'.cell i)) := by
  cases h with
  | same hs =>
    refine ⟨rfl, fun i hi => ?_⟩
    rw [hs, Int.sub_self]
    exact Semantics.moved_zero (hr i hi)
  | copied hs hown =>
    refine ⟨finals_derived ?_, fun i hi => ?_⟩
    · intro s hs
      obtain ⟨i, -, rfl⟩ := List.mem_map.1 hs
      rfl
    · exact hd _ (List.mem_map.2 ⟨i, List.mem_range.2 hi, rfl⟩) rfl _ rfl

/-- Steps that leave a value in the landing cell of an element. -/
def Settles [Platform] (S : Semantics) (look : Int → List Table.Row) (k : Int → Int) (t : Target)
    (i : Nat) (z : Int) (ss : List Step) : Prop :=
  if t.rescales then finals S look k ss = [] ∧ k (t.landing + i) = z
  else finals S look k ss = [(t.landing + i, some z)]

theorem Settles.finish [Platform] {t : Target} {i : Nat} {z : Int} {ss : List Step}
    {natural size out : Int} {ls : List Allocation} {label : String} (h : Settles S look k t i z ss)
    (hl : Landing o natural size out t ls) (hz : S.wrap z = z) :
    finals S look k (ss ++ t.finish label i) = [(out + i, S.moved (natural - o.scale) z)] := by
  cases hl with
  | direct hn =>
    have hr : Target.rescales ⟨out, out, natural, o.scale⟩ = false := by
      simp [Target.rescales, hn]
    rw [Settles, hr] at h
    rw [finals_append, h, Target.finish, hr, hn, Int.sub_self, Semantics.moved_zero hz]
    rfl
  | @apart b hn hown =>
    have hr : Target.rescales ⟨out, b.address.absolute, natural, o.scale⟩ = true := by
      simp [Target.rescales, hn]
    rw [Settles, hr] at h
    rw [finals_append, h.1, Target.finish, hr, ← h.2]
    rfl

theorem binaryStep_settles [Platform] {op : Arithmetic} {x y : Operand} {shape index : List Nat}
    {t : Target} {z : Int}
    (he : (binaryStep o op x y shape t index).instruction.eval S look k = some z)
    (hd : t.rescales = true → Holds S look k (binaryStep o op x y shape t index).instruction) :
    Settles S look k t (Shape.flat shape index) z [binaryStep o op x y shape t index] := by
  have hdest : (binaryStep o op x y shape t index).instruction.dest? =
      some (t.landing + Shape.flat shape index) := by
    cases op <;> rfl
  have hder : (binaryStep o op x y shape t index).derived = t.rescales := rfl
  unfold Settles
  rw [finals_cons, hder, hdest, he]
  cases hr : t.rescales with
  | true =>
    have hk := hd hr _ hdest
    rw [he] at hk
    exact ⟨rfl, (Option.some.inj hk).symm⟩
  | false => rfl

theorem Term.eval_instruction [Platform] {t : Term} {dest acc : Int} :
    (t.instruction dest acc).eval S look k = some (S.wrap (k acc + t.value k)) := by
  unfold Term.instruction Term.value
  cases t.b <;> rfl

theorem Reduction.chain_settles [Platform] (r : Reduction) (label : String) (i : Nat) {j : Nat}
    {acc : Int} {terms : List Term} (hj : j + terms.length = r.steps) (hne : terms ≠ [])
    (hd : ∀ s ∈ r.chain label i j acc terms, s.derived = true → Holds S look k s.instruction) :
    Settles S look k r.target i (S.wrap (k acc + (terms.map (Term.value k)).sum))
      (r.chain label i j acc terms) := by
  induction terms generalizing j acc with
  | nil => exact absurd rfl hne
  | cons t terms ih =>
    rw [Reduction.chain] at hd ⊢
    cases terms with
    | nil =>
      have hlast : j + 1 = r.steps := by simpa using hj
      have hdest : r.dest i j = r.target.landing + i := by rw [dest, if_pos hlast]
      unfold Settles
      rw [chain, finals_cons, step_instruction, Term.dest_instruction, Term.eval_instruction,
        hdest]
      cases hr : r.target.rescales with
      | true =>
        have hk := hd _ List.mem_cons_self (by simp [hr]) _ Term.dest_instruction
        rw [step_instruction, Term.eval_instruction, hdest] at hk
        exact ⟨by simp [hr], by simpa using (Option.some.inj hk).symm⟩
      | false => simp [hlast, hr]
    | cons u us =>
      have hmore : j + 1 ≠ r.steps := by
        simp only [List.length_cons] at hj
        omega
      have hk := hd _ List.mem_cons_self (by simp [hmore]) _ Term.dest_instruction
      rw [step_instruction, Term.eval_instruction] at hk
      have hlen : j + 1 + (u :: us).length = r.steps := by
        simp only [List.length_cons] at hj ⊢
        omega
      have hrest := ih hlen (by simp) fun s hs => hd s (List.mem_cons_of_mem _ hs)
      rw [← Option.some.inj hk, S.wrap_add, Int.add_assoc] at hrest
      unfold Settles at hrest ⊢
      rw [finals_cons]
      simpa [hmore] using hrest

theorem Uniform.length_head {ok : Int → Prop} {shape : List Nat} {terms : List (List Term)}
    {n c : Nat} {f : List Nat → List Term} (h : Uniform ok shape terms n f)
    (hh : (terms.head?).map List.length = some c) {index : List Nat}
    (hi : index ∈ Shape.indices shape) : (f index).length = c := by
  obtain ⟨rfl, hn, -⟩ := h
  cases hix : Shape.indices shape with
  | nil => simp [hix] at hi
  | cons first rest =>
    rw [hix] at hh
    have hfirst : (f first).length = c := by simpa using hh
    rw [hn index hi, ← hn first (by simp [hix]), hfirst]

theorem Uniform.settles [Platform] {ok : Int → Prop} {shape : List Nat} {terms : List (List Term)}
    {n c : Nat} {f : List Nat → List Term} (h : Uniform ok shape terms n f) (hc : c ≠ 0)
    (hh : (terms.head?).map List.length = some c) (hz : k zero = 0) {p : Int} {t : Target}
    {index : List Nat} (hi : index ∈ Shape.indices shape)
    (hd : ∀ s ∈ (⟨zero, p, c, t⟩ : Reduction).chain (elementLabel o index)
      (Shape.flat shape index) 0 zero (f index), s.derived = true → Holds S look k s.instruction) :
    Settles S look k t (Shape.flat shape index) (S.wrap ((f index).map (Term.value k)).sum)
      ((⟨zero, p, c, t⟩ : Reduction).chain (elementLabel o index)
        (Shape.flat shape index) 0 zero (f index)) := by
  have hlen := h.length_head hh hi
  have hne : f index ≠ [] := by
    intro he
    rw [he] at hlen
    exact hc hlen.symm
  have hs := Reduction.chain_settles ⟨zero, p, c, t⟩ _ _ (by simpa using hlen) hne hd
  rwa [hz, Int.zero_add] at hs

theorem Reduced.meaning [Platform] {natural out : Int} {shape : List Nat} {terms : List (List Term)}
    {bs : List Allocation} {ss : List Step} (h : Reduced zero o natural shape out terms bs ss)
    {ok : Int → Prop} {n : Nat} {f : List Nat → List Term} (hu : Uniform ok shape terms n f)
    (hz : k zero = 0) (hd : ∀ s ∈ ss, s.derived = true → Holds S look k s.instruction) :
    finals S look k ss = (Shape.indices shape).map fun index =>
      (out + Shape.flat shape index, S.summed natural o.scale ((f index).map (Term.value k))) := by
  cases h with
  | empty he =>
    rw [List.map_eq_nil_iff.1 (hu.terms_eq.symm.trans he), finals_nil, List.map_nil]
  | @chains c partials t ps ls hc hh hp hl =>
    rw [hu.terms_eq, reductionSteps_eq] at hd ⊢
    apply finals_flatMap
    intro index hi
    have hs := hu.settles hc hh hz (p := partials) (t := t) hi fun s hs =>
      hd s (List.mem_flatMap.2 ⟨index, hi, List.mem_append_left _ hs⟩)
    exact hs.finish hl (S.wrap_wrap _)

theorem product_inner {x y : List Nat} {c n : Nat} {shape : List Nat}
    (h : product? x y = some (c, n, shape)) : x.getLastD 0 = c := by
  unfold product? at h
  split at h <;> simp_all

theorem Convolves.steps {x w : Operand} {c : Window} (h : Convolves o x w c) :
    pair? ((o.param? "stride").getD (.int 1)) = some (c.strideH, c.strideW) ∧
      pair? ((o.param? "padding").getD (.int 0)) = some (c.padH, c.padW) := by
  obtain ⟨stride, pad, hs, hp, hc⟩ := h.window
  unfold window? at hc
  split at hc
  · obtain rfl := Option.some.inj hc
    exact ⟨hs, hp⟩
  · exact absurd hc (by simp)

theorem Interprets.window (h : Interprets S look k g zero a ts v o) {ix iw : String} {x w : Operand}
    {c : Window} (hix : ix ∈ o.inputs) (hiw : iw ∈ o.inputs) (hx : Placed g a ix x)
    (hw : Placed g a iw w) (hc : Convolves o x w c) {index : List Nat}
    (hi : index ∈ Shape.indices c.outShape) :
    Semantics.Source.window (c.strideH, c.strideW) (c.padH, c.padW)
        (.ofTensor v x.tensor) (.ofTensor v w.tensor) index =
      (c.taps zero x w (index.getD 0 0) (index.getD 1 0) (index.getD 2 0)).map (Term.value k) := by
  obtain ⟨hxs, hws⟩ := hc.shapes
  obtain ⟨f, i, j, rfl⟩ := List.length_eq_three.1 (Shape.length_of_mem_indices hi)
  have hi := Shape.mem_indices.1 hi
  have hshape : (Semantics.Source.ofTensor v w.tensor).shape = c.kernelShape := hws
  have hplane : (Semantics.Source.ofTensor v x.tensor).shape = c.inputShape := hxs
  simp only [Window.outShape, List.forall₂_cons, List.forall₂_nil_right_iff, and_true] at hi
  unfold Semantics.Source.window
  rw [hshape, Window.taps_eq, List.map_map, Window.kernelShape]
  apply List.map_congr_left
  intro d hd
  obtain ⟨ch, di, dj, rfl⟩ := List.length_eq_three.1 (Shape.length_of_mem_indices hd)
  have hd := Shape.mem_indices.1 hd
  simp only [List.forall₂_cons, List.forall₂_nil_right_iff, and_true] at hd
  have hker : [f, ch, di, dj] ∈ Shape.indices w.shape := by
    rw [hws]
    exact Shape.mem_indices.2 (by simp [Window.kernelShape, hi, hd])
  simp only [Function.comp_apply, List.getD_cons_zero, List.getD_cons_succ, Term.value, Window.tap,
    h.entry hiw hw hker, hws, Semantics.Source.padded, hplane, Window.inputShape]
  congr 1
  split
  · next hin =>
      have hin' : [ch, (i * c.strideH + di - c.padH).toNat, (j * c.strideW + dj - c.padW).toNat] ∈
          Shape.indices x.shape := by
        rw [hxs]
        refine Shape.mem_indices.2 ?_
        simp only [Window.inputShape, List.forall₂_cons, List.forall₂_nil_right_iff, and_true]
        omega
      rw [h.entry hix hx hin', hxs, Window.inputShape]
  · exact h.zero.symm

theorem mapM_tensor {ids : List String} {xs : List Operand}
    (hx : List.Forall₂ (Placed g a) ids xs) : ids.mapM g.tensor? = some (xs.map (·.tensor)) := by
  induction hx with
  | nil => rfl
  | cons h _ ih => simp [h.tensor, ih]

theorem reference_eq [Platform] {kind : Circuit.Kind} (hk : o.kind? = some kind) {ids : List String}
    {xs : List Operand} (hi : o.inputs = ids) (hx : List.Forall₂ (Placed g a) ids xs)
    (index : List Nat) :
    S.reference g lookupBits v o index =
      S.result lookupBits o index kind (xs.map fun x => .ofTensor v x.tensor) := by
  rw [Semantics.reference, hk, hi, mapM_tensor hx]
  simp only [Option.bind_eq_bind, Option.bind_some, List.map_map]
  rfl

theorem Summands.meaning [Platform] {natural : Int} {shape : List Nat} {terms : List (List Term)}
    {bs : List Allocation} {ss : List Step} (lookupBits : Json)
    (h : Interprets S look k g zero a ts v o) (hs : Summands g zero a o natural shape terms bs ss)
    (hd : ∀ s ∈ ss, s.derived = true → Holds S look k s.instruction) :
    finals S look k ss = [] ∧ ∃ n f, Uniform (fun _ => True) shape terms n f ∧
      ∀ index ∈ Shape.indices shape, S.reference g lookupBits v o index =
        S.summed natural o.scale ((f index).map (Term.value k)) := by
  cases hs with
  | @matmul ia ib x y c n shape hk hi hx hy hp =>
    refine ⟨rfl, c, _, ⟨rfl, fun index _ => by simp, by simp⟩, ?_⟩
    intro index hm
    have hinner : (Semantics.Source.ofTensor v x.tensor).shape.getLastD 0 = c := product_inner hp
    rw [reference_eq hk hi (.cons hx (.cons hy .nil)), hx.scale, hy.scale, List.map_map]
    simp only [Semantics.result, List.map_cons, List.map_nil, hinner]
    refine congrArg (S.summed _ _) (List.map_congr_left fun r hr => ?_)
    obtain ⟨hmx, hmy, hfx, hfy⟩ := product_places hp hm (List.mem_range.1 hr)
    rw [h.entry (by simp [hi]) hx hmx, h.entry (by simp [hi]) hy hmy, hfx, hfy]
    rfl
  | @dot ia ib x y shape hk hi hx hy hs hone =>
    refine ⟨rfl, _, _, uniform_single hone (by simp), ?_⟩
    intro index hm
    rw [reference_eq hk hi (.cons hx (.cons hy .nil)), hx.scale, hy.scale,
      ← Shape.map_flat_indices, List.map_map, List.map_map]
    refine congrArg (S.summed _ _) (List.map_congr_left fun j hj => ?_)
    have hj : j ∈ Shape.indices x.shape := hj
    rw [h.entry (by simp [hi]) hx hj, h.entry (by simp [hi]) hy (hs ▸ hj), ← hs]
    rfl
  | @sum ia x shape hk hi hx hone =>
    refine ⟨rfl, _, _, uniform_single hone (by simp), ?_⟩
    intro index hm
    rw [reference_eq hk hi (.cons hx .nil), hx.scale, ← Shape.map_flat_indices, List.map_map,
      List.map_map]
    refine congrArg (S.summed _ _) (List.map_congr_left fun j hj => ?_)
    exact h.entry (by simp [hi]) hx hj
  | @conv ix iw x w c hk hi hx hw hc =>
    refine ⟨rfl, _, _, conv_uniform hc (by simp) (by simp) trivial none (by simp), ?_⟩
    intro index hm
    rw [reference_eq hk hi (.cons hx (.cons hw .nil)), hx.scale, hw.scale]
    simp only [Semantics.result, List.map_cons, List.map_nil, Semantics.convolved, hc.steps,
      Option.bind_eq_bind, Option.bind_some,
      h.window (by simp [hi]) (by simp [hi]) hx hw hc hm]
    rfl
  | @biased ix iw ib x w b b' c bs ss hk hi hx hw hb hc hf hbr =>
    obtain ⟨hnone, hmoved⟩ := hbr.moved (fun _ _ => h.reduced _) hd
    refine ⟨hnone, _, _, conv_uniform hc (by simp) (by simp) trivial (some b') (by simp), ?_⟩
    intro index hm
    have hlt : index.getD 0 0 < c.filters := by
      obtain ⟨f, i, j, rfl⟩ := List.length_eq_three.1 (Shape.length_of_mem_indices hm)
      exact (List.forall₂_cons.1 (Shape.mem_indices.1 hm)).1
    have hhead : index.headD 0 = index.getD 0 0 := by cases index <;> rfl
    have hbi : [index.getD 0 0] ∈ Shape.indices b.shape := by
      rw [hf]
      exact Shape.mem_indices.2 (by simpa using hlt)
    have hflat : Shape.flat b.shape [index.getD 0 0] = index.getD 0 0 := by
      rw [hf]
      simp [Shape.flat]
    have hbias := hmoved (index.getD 0 0) (by rw [hf]; simpa using hlt)
    rw [hb.scale, hx.scale, hw.scale] at hbias
    rw [reference_eq hk hi (.cons hx (.cons hw (.cons hb .nil))), hx.scale, hw.scale]
    simp only [Semantics.result, List.map_cons, List.map_nil, Semantics.convolved, hc.steps,
      Option.bind_eq_bind, Option.bind_some,
      h.window (by simp [hi]) (by simp [hi]) hx hw hc hm, hhead,
      h.entry (by simp [hi]) hb hbi, hflat]
    simp only [Semantics.Source.ofTensor]
    rw [hbias]
    simp [Term.value]

theorem linear_reference [Platform] {op : Arithmetic} {ia ib : String} {x y : Operand}
    {index : List Nat} {d c e : Int}
    (hk : (o.kind? = some .add ∧ op = .add) ∨ (o.kind? = some .sub ∧ op = .sub))
    (hi : o.inputs = [ia, ib]) (hx : Placed g a ia x) (hy : Placed g a ib y)
    (hc : S.moved (x.scale - o.scale) ((Semantics.Source.ofTensor v x.tensor).stretched index) =
      some (k c))
    (he : S.moved (y.scale - o.scale) ((Semantics.Source.ofTensor v y.tensor).stretched index) =
      some (k e)) :
    (op.instruction d c e).eval S look k = S.reference g lookupBits v o index := by
  rw [hx.scale] at hc
  rw [hy.scale] at he
  rcases hk with ⟨hk, rfl⟩ | ⟨hk, rfl⟩
  all_goals
    rw [reference_eq hk hi (.cons hx (.cons hy .nil))]
    simp only [Semantics.result, List.map_cons, List.map_nil, Semantics.linear]
    simp only [Semantics.Source.ofTensor] at hc he ⊢
    rw [hc, he]
    rfl

theorem unary_reference [Platform] {negate : Bool} {ia : String} {x : Operand} {index : List Nat}
    {d c : Int}
    (hk : (o.kind? = some .neg ∧ negate = true) ∨ (o.kind? = some .identity ∧ negate = false))
    (hi : o.inputs = [ia]) (hx : Placed g a ia x) (hz : k zero = 0) (hr : S.wrap (k c) = k c)
    (hc : S.moved (x.scale - o.scale) ((Semantics.Source.ofTensor v x.tensor).entry index) =
      some (k c)) :
    (if negate then Instruction.sub d zero c else .add d c zero).eval S look k =
      S.reference g lookupBits v o index := by
  rw [hx.scale] at hc
  rcases hk with ⟨hk, rfl⟩ | ⟨hk, rfl⟩
  all_goals
    rw [reference_eq hk hi (.cons hx .nil)]
    simp only [Semantics.result, List.map_cons, List.map_nil]
    simp only [Semantics.Source.ofTensor] at hc ⊢
    rw [hc]
    simp [Instruction.eval, hz, hr]

theorem lookup_reference [Platform] {kind : Circuit.Kind} {ia : String} {x : Operand}
    {spec : Table.Spec} {t : FoldedTable} {index : List Nat} {d c n : Int}
    (hk : o.kind? = some kind) (hn : kind.category = .nonlinearity) (hi : o.inputs = [ia])
    (hx : Placed g a ia x) (hs : Table.specFor o x.scale lookupBits = .ok spec)
    (hf : Table.fold spec = .ok t.rows.toList) (hl : look t.address.absolute = t.rows.toList)
    (hc : (Semantics.Source.ofTensor v x.tensor).entry index = k c) :
    (Instruction.lookup d c t.address.absolute n).eval S look k =
      S.reference g lookupBits v o index := by
  have hres : S.result lookupBits o index kind [.ofTensor v x.tensor] =
      S.lookedUp o lookupBits (.ofTensor v x.tensor) index := by
    cases kind <;> first | rfl | simp [Circuit.Kind.category] at hn
  rw [hx.scale] at hs
  rw [reference_eq hk hi (.cons hx .nil), List.map_cons, List.map_nil, hres, Semantics.lookedUp, hc]
  simp only [Semantics.Source.ofTensor, hs, hf, Except.toOption, Option.bind_eq_bind,
    Option.bind_some, Instruction.eval, hl]
  split
  · rfl
  · next hkey => rw [Table.find?_fold hf hkey, Option.map_none]

theorem pointwise_finals [Platform] {e : Nat → Step} {shape : List Nat} {out : Int} {n : Nat}
    {r : List Nat → Option Int} (hn : n = Shape.volume shape)
    (he : ∀ i, (e i).derived = false ∧ (e i).instruction.dest? = some (out + i))
    (hr : ∀ index ∈ Shape.indices shape,
      (e (Shape.flat shape index)).instruction.eval S look k = r index) :
    finals S look k ((List.range n).map e) =
      (Shape.indices shape).map fun index => (out + Shape.flat shape index, r index) := by
  rw [hn, ← Shape.map_flat_indices, List.map_map, List.map_eq_flatMap]
  apply finals_flatMap
  intro index hi
  rw [finals_cons, Function.comp_apply, (he _).1, (he _).2, hr index hi]
  rfl

theorem Template.meaning [Platform] {bs : List Allocation} {ss : List Step}
    (h : Interprets S look k g zero a ts v o) (ht : Template g lookupBits zero a ts o bs ss)
    (hd : ∀ s ∈ ss, s.derived = true → Holds S look k s.instruction) :
    ∃ out, Placed g a o.output out ∧ finals S look k ss = (Shape.indices out.shape).map fun index =>
      (out.base + Shape.flat out.shape index, S.reference g lookupBits v o index) := by
  cases ht with
  | @linear op ia ib x y x' y' out bx bz sx sy hk hi hx hy hout hb hbx hby =>
    obtain ⟨hnx, hmx⟩ := hbx.moved (fun _ _ => h.reduced _) fun s hs => hd s (by simp [hs])
    obtain ⟨hny, hmy⟩ := hby.moved (fun _ _ => h.reduced _) fun s hs => hd s (by simp [hs])
    obtain ⟨hsx, hsy⟩ := Shape.broadcast_stretches hb
    refine ⟨out, hout, ?_⟩
    rw [finals_append, finals_append, hnx, hny, List.nil_append, List.nil_append, binarySteps_eq]
    apply finals_flatMap
    intro index hm
    have hax := hmx _ (Shape.flatProject_lt hsx hm)
    have hay := hmy _ (Shape.flatProject_lt hsy hm)
    rw [← h.stretched (by simp [hi]) hx hsx hm] at hax
    rw [← h.stretched (by simp [hi]) hy hsy hm] at hay
    rw [Target.finish, Target.rescales, bne_self_eq_false, if_neg (by simp), List.append_nil,
      finals_cons, binaryStep, Target.rescales, bne_self_eq_false,
      ← linear_reference hk hi hx hy hax hay]
    simp only [Operand.shape, hbx.tensor_eq, hby.tensor_eq]
    rcases hk with ⟨-, rfl⟩ | ⟨-, rfl⟩ <;> rfl
  | @product ia ib x y out t ls hk hi hx hy hout hb hl =>
    obtain ⟨hsx, hsy⟩ := Shape.broadcast_stretches hb
    refine ⟨out, hout, ?_⟩
    rw [binarySteps_eq] at hd ⊢
    apply finals_flatMap
    intro index hm
    rw [reference_eq hk hi (.cons hx (.cons hy .nil))]
    simp only [Semantics.result, List.map_cons, List.map_nil, Semantics.summed, List.sum_cons,
      List.sum_nil, Int.add_zero, h.stretched (by simp [hi]) hx hsx hm,
      h.stretched (by simp [hi]) hy hsy hm]
    have hs : Settles S look k t (Shape.flat out.shape index) _
        [binaryStep o .mul x y out.shape t index] :=
      binaryStep_settles rfl fun hr => hd _ (List.mem_flatMap.2 ⟨index, hm, by simp⟩) hr
    rw [hs.finish hl (S.wrap_wrap _), hx.scale, hy.scale]
    rfl
  | @unary negate ia x x' out bs ss hk hi hx hout hs hb =>
    obtain ⟨hn, hm⟩ := hb.moved (fun _ _ => h.reduced _) fun s hs => hd s (by simp [hs])
    refine ⟨out, hout, ?_⟩
    rw [finals_append, hn, List.nil_append]
    refine pointwise_finals (by rw [hs]) (fun i => ⟨rfl, by cases negate <;> rfl⟩) ?_
    intro index hi'
    rw [hs] at hi' ⊢
    have ha := hm _ (Shape.flat_lt hi')
    rw [← h.entry (by simp [hi]) hx hi'] at ha
    exact unary_reference hk hi hx h.zero (h.reduced _) ha
  | @reduction natural terms out bs rs ss steps hsum hout hr =>
    obtain ⟨hn, n, f, hu, href⟩ := hsum.meaning lookupBits h
      fun s hs => hd s (by simp [hs])
    refine ⟨out, hout, ?_⟩
    rw [finals_append, hn, List.nil_append,
      hr.meaning hu h.zero fun s hs => hd s (by simp [hs])]
    exact List.map_congr_left fun index hi => by rw [href index hi]
  | @lookup kind ia x out spec t hk hc hi hx hout hs hspec ht hf =>
    refine ⟨out, hout, pointwise_finals (by rw [hs]) (fun i => ⟨rfl, rfl⟩) ?_⟩
    intro index hm
    rw [hs] at hm ⊢
    exact lookup_reference hk hc hi hx hspec hf (h.tables t ht) (h.entry (by simp [hi]) hx hm)
  | @rescale ia x out hk hi hx hout hs hb =>
    refine ⟨out, hout, pointwise_finals (by rw [hs]) (fun i => ⟨rfl, rfl⟩) ?_⟩
    intro index hm
    rw [hs] at hm ⊢
    rw [reference_eq hk hi (.cons hx .nil)]
    simp only [Semantics.result, List.map_cons, List.map_nil, hb, h.entry (by simp [hi]) hx hm,
      hx.scale, Instruction.eval]
    rfl
  | @clamp ia x x' out lo hi' bs ss hk hi hx hout hs hb hle hbr =>
    obtain ⟨hn, hm⟩ := hbr.moved (fun _ _ => h.reduced _) fun s hs => hd s (by simp [hs])
    refine ⟨out, hout, ?_⟩
    rw [finals_append, hn, List.nil_append]
    refine pointwise_finals (by rw [hs]) (fun i => ⟨rfl, rfl⟩) ?_
    intro index hix
    rw [hs] at hix ⊢
    have ha := hm _ (Shape.flat_lt hix)
    rw [← h.entry (by simp [hi]) hx hix, hx.scale] at ha
    rw [reference_eq hk hi (.cons hx .nil)]
    simp only [Semantics.result, List.map_cons, List.map_nil, hb]
    simp only [Semantics.Source.ofTensor] at ha ⊢
    rw [ha]
    rfl

end Lowering

end TensorAsm
