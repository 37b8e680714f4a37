import Mathlib.Data.List.Nodup
import Mathlib.Data.List.Perm.Basic
import Mathlib.Tactic.NormNum
import TensorAsm.Circuit.Reader
import TensorAsm.Proofs.Sequences
import TensorAsm.Proofs.Shapes
import TensorAsm.Witness
/-!
What the readers ensure. A circuit that is read has one producer for each tensor and an origin for
each tensor in use; a witness that is read has values in range for all of these, as many as their
shapes have places.
-/

namespace TensorAsm.Circuit

theorem Graph.tensor_id {g : Graph} {id : String} {t : Tensor} (h : g.tensor? id = some t) :
    t.id = id := by
  simpa using List.find?_some h

namespace Graph

variable {g : Graph}

theorem mem_required {id : String} :
    id ∈ g.required ↔ id ∈ g.outputs ∨ ∃ o ∈ g.operations, id ∈ o.inputs ∨ id = o.output := by
  simp [required, sortedNames]

theorem input_required {o : Operation} (ho : o ∈ g.operations) {id : String} (h : id ∈ o.inputs) :
    id ∈ g.required :=
  mem_required.2 (.inr ⟨o, ho, .inl h⟩)

theorem output_required {o : Operation} (ho : o ∈ g.operations) : o.output ∈ g.required :=
  mem_required.2 (.inr ⟨o, ho, .inr rfl⟩)

theorem defines_iff {id : String} : g.defines id = true ↔ ∃ t, g.tensor? id = some t :=
  Option.isSome_iff_exists

theorem producer_eq_none {id : String} :
    g.producer? id = none ↔ ∀ o ∈ g.operations, o.output ≠ id := by
  simp [producer?]

theorem producer_output {id : String} {o : Operation} (h : g.producer? id = some o) :
    o ∈ g.operations ∧ o.output = id :=
  ⟨by simpa using List.mem_of_find?_eq_some h, by simpa using List.find?_some h⟩

structure WellFormed (g : Graph) : Prop where
  ids : (g.operations.map (·.id)).Nodup
  producers : (g.operations.map (·.output)).Nodup
  defined : ∀ id ∈ g.required, ∃ t, g.tensor? id = some t
  unproduced : ∀ id ∈ g.inputs, g.producer? id = none
  origin : ∀ id ∈ g.required, g.producer? id = none →
    id ∈ g.inputs ∨ ∃ t, g.tensor? id = some t ∧ t.visibility = .fixed
  ordered : ∃ ops, g.order = .ok ops

theorem WellFormed.same_producer (h : g.WellFormed) {o p : Operation} (ho : o ∈ g.operations)
    (hp : p ∈ g.operations) (he : o.output = p.output) : o = p :=
  List.inj_on_of_nodup_map h.producers ho hp he

theorem WellFormed.same_id (h : g.WellFormed) {o p : Operation} (ho : o ∈ g.operations)
    (hp : p ∈ g.operations) (he : o.id = p.id) : o = p :=
  List.inj_on_of_nodup_map h.ids ho hp he

theorem WellFormed.producer_eq (h : g.WellFormed) {o : Operation} (ho : o ∈ g.operations) :
    g.producer? o.output = some o := by
  cases hp : g.producer? o.output with
  | none => exact absurd rfl (producer_eq_none.1 hp o ho)
  | some p =>
    obtain ⟨hm, he⟩ := producer_output hp
    rw [h.same_producer hm ho he]

theorem operationsDefect_split {before ops : List Operation}
    (h : g.operationsDefect? before ops = none) {pre : List Operation} {o : Operation}
    {post : List Operation} (hs : ops = pre ++ o :: post) :
    g.operationDefect? (before ++ pre) o = none := by
  induction ops generalizing before pre with
  | nil => simp at hs
  | cons p ops ih =>
    rw [operationsDefect?] at h
    split at h
    · exact absurd h (by simp)
    · next hp =>
        cases pre with
        | nil =>
          obtain ⟨rfl, -⟩ := List.cons.inj hs
          simpa using hp
        | cons q pre =>
          obtain ⟨rfl, hr⟩ := List.cons.inj hs
          simpa using ih h hr

theorem operationDefect_none {before : List Operation} {o : Operation}
    (h : g.operationDefect? before o = none) :
    (∀ id ∈ o.inputs ++ [o.output], ∃ t, g.tensor? id = some t) ∧
      ∀ p ∈ before, p.output ≠ o.output := by
  unfold operationDefect? at h
  split at h
  · exact absurd h (by simp)
  · next hd =>
      split at h
      · exact absurd h (by simp)
      · next hb =>
          constructor
          · intro id hid
            have hn := List.find?_eq_none.1 hd id hid
            exact defines_iff.1 (by simpa using hn)
          · simpa using hb

theorem outputs_nodup {ops : List Operation} (h : g.operationsDefect? [] ops = none) :
    (ops.map (·.output)).Nodup := by
  rw [List.Nodup, List.pairwise_map, List.pairwise_iff_forall_sublist]
  intro p o hs he
  obtain ⟨pre, rest, rfl, hp, ho⟩ := List.cons_sublist_iff.1 hs
  obtain ⟨mid, post, rfl⟩ := List.append_of_mem (List.singleton_sublist.1 ho)
  have hd := operationsDefect_split h (List.append_assoc pre mid (o :: post)).symm
  exact (operationDefect_none hd).2 p (by simp [hp]) he

theorem defect_none (h : g.defect? = none) :
    g.operationsDefect? [] (g.operations.mergeSort fun a b => decide (a.id ≤ b.id)) = none ∧
      g.declaredDefect? = none ∧ g.originDefect? = none := by
  unfold defect? at h
  split at h
  · exact absurd h (by simp)
  · next ho =>
      split at h
      · exact absurd h (by simp)
      · next hd => exact ⟨ho, hd, h⟩

theorem declaredDefect_none (h : g.declaredDefect? = none) :
    (∀ id ∈ g.inputs ++ g.outputs, ∃ t, g.tensor? id = some t) ∧
      ∀ id ∈ g.inputs, g.producer? id = none := by
  unfold declaredDefect? at h
  split at h
  · exact absurd h (by simp)
  · next hd =>
      constructor
      · intro id hid
        have hn := List.find?_eq_none.1 hd id hid
        exact defines_iff.1 (by simpa using hn)
      · intro id hid
        simpa using List.findSome?_eq_none_iff.1 h id hid

theorem originDefect_none (h : g.originDefect? = none) {id : String} (hid : id ∈ g.required)
    (hn : g.producer? id = none) :
    id ∈ g.inputs ∨ ∃ t, g.tensor? id = some t ∧ t.visibility = .fixed := by
  have ho := List.find?_eq_none.1 (Option.map_eq_none_iff.1 h) id hid
  rw [or_iff_not_imp_left]
  simpa [hasOrigin, hn, Option.any_eq_true] using ho

end Graph

theorem readOperations_ids {tensors : List Tensor} {done ops : List Operation} {entries : List Json}
    (h : readOperations tensors done entries = .ok ops) (hd : (done.map (·.id)).Nodup) :
    (ops.map (·.id)).Nodup := by
  induction entries generalizing done with
  | nil =>
    cases h
    exact hd
  | cons entry entries ih =>
    rw [readOperations] at h
    split at h
    · exact absurd h (by simp)
    · next o _ =>
        split at h
        · exact absurd h (by simp)
        · next hn =>
            apply ih h
            rw [List.map_append, List.nodup_append]
            refine ⟨hd, by simp, ?_⟩
            intro a ha b hb he
            obtain ⟨p, hp, rfl⟩ := List.mem_map.1 ha
            obtain rfl : b = o.id := by simpa using hb
            exact hn (List.any_eq_true.2 ⟨p, hp, by simpa using he⟩)

theorem readParts_ids {doc : Json} {g : Graph} (h : readParts doc = .ok g) :
    (g.operations.map (·.id)).Nodup := by
  unfold readParts at h
  cases hs : sections? doc with
  | error f => simp [hs, bind, Except.bind] at h
  | ok s =>
    cases ht : readTensors [] s.1 with
    | error f => simp [hs, ht, bind, Except.bind] at h
    | ok tensors =>
      cases ho : readOperations tensors [] s.2 with
      | error f => simp [hs, ht, ho, bind, Except.bind] at h
      | ok ops =>
        simp only [hs, ht, ho, bind, Except.bind] at h
        split at h
        · exact absurd h (by simp)
        · split at h
          · exact absurd h (by simp)
          · cases h
            exact readOperations_ids ho (by simp)

theorem read_wellFormed {doc : Json} {g : Graph} (h : read doc = .ok g) : g.WellFormed := by
  unfold read at h
  split at h
  · exact absurd h (by simp)
  · next g' hp =>
      split at h
      · exact absurd h (by simp)
      · next hd =>
          split at h
          · exact absurd h (by simp)
          · next ops ho =>
              obtain rfl : g' = g := by simpa using h
              obtain ⟨hops, hdecl, horig⟩ := Graph.defect_none hd
              obtain ⟨hdef, hin⟩ := Graph.declaredDefect_none hdecl
              have hperm := List.mergeSort_perm g'.operations fun a b => decide (a.id ≤ b.id)
              refine ⟨readParts_ids hp, (hperm.map _).nodup_iff.1 (Graph.outputs_nodup hops), ?_,
                hin, fun id => Graph.originDefect_none horig, ops, ho⟩
              intro id hid
              rcases Graph.mem_required.1 hid with hid | ⟨o, hmem, hio⟩
              · exact hdef id (by simp [hid])
              · obtain ⟨pre, post, hs⟩ := List.append_of_mem (hperm.mem_iff.2 hmem)
                have hd := Graph.operationsDefect_split hops hs
                exact (Graph.operationDefect_none hd).1 id (by simpa using hio)

end TensorAsm.Circuit

namespace TensorAsm.Shape

theorem foldlM_product {n k : Nat} {shape : List Nat} (hn : n < wordHalf)
    (h : shape.foldlM (fun n d => if n * d < wordHalf then some (n * d) else none) n = some k) :
    k = n * volume shape ∧ k < wordHalf := by
  induction shape generalizing n with
  | nil =>
    cases h
    simp [hn]
  | cons d shape ih =>
    rw [List.foldlM_cons] at h
    split at h
    · next hd =>
        obtain ⟨hk, hl⟩ := ih hd h
        exact ⟨by rw [hk, volume_cons, Nat.mul_assoc], hl⟩
    · exact absurd h (by simp)

theorem product_ofNat (shape : List Nat) : product (shape.map Int.ofNat) = volume shape := by
  have h (n : Nat) :
      (shape.map Int.ofNat).foldl (· * ·) (n : Int) = (shape.foldl (· * ·) n : Nat) := by
    induction shape generalizing n with
    | nil => rfl
    | cons d shape ih =>
      rw [List.map_cons, List.foldl_cons, List.foldl_cons, ← ih (n * d)]
      simp
  exact h 1

theorem leastWord_nonpos : leastWord ≤ 0 :=
  Int.neg_nonpos_of_nonneg (Int.natCast_nonneg wordHalf)

theorem isSigned_ofNat {d : Nat} (h : d < wordHalf) : isSigned (Int.ofNat d) = true := by
  have hl : leastWord ≤ Int.ofNat d := Int.le_trans leastWord_nonpos (Int.natCast_nonneg d)
  have hu : Int.ofNat d < (wordHalf : Int) := Int.ofNat_lt.2 h
  unfold isSigned
  rw [Bool.and_eq_true]
  exact ⟨decide_eq_true hl, decide_eq_true hu⟩

theorem wordSize_of_signed {dims : List Int} (h : ∀ d ∈ dims, isSigned d = true) :
    wordSize? dims = some (wrap (product dims)) := by
  rw [← List.all_eq_true] at h
  rw [wordSize?, h, Bool.true_or, if_pos rfl]

theorem wrap_eq {n : Nat} (h : n < wordHalf) : wrap n = n := by
  have hc : (wordCount : Int) = wordHalf * 2 := by norm_num [wordCount, wordHalf]
  have hi : (n : Int) < wordHalf := Int.ofNat_lt.2 h
  exact Int.bmod_eq_of_le_mul_two (by omega) (by omega)

/-- Where the product of the dimensions stays a word all the way, it is the size. -/
theorem wordSize_eq {shape : List Nat} {k : Nat} (hd : ∀ d ∈ shape, d < wordHalf)
    (h : wordProduct? shape = some k) :
    k = volume shape ∧ wordSize? (shape.map Int.ofNat) = some (volume shape : Int) := by
  obtain ⟨hk, hl⟩ := foldlM_product (by norm_num [wordHalf]) h
  rw [Nat.one_mul] at hk
  subst hk
  have hs : ∀ d ∈ shape.map Int.ofNat, isSigned d = true := by
    intro d hm
    obtain ⟨n, hn, he⟩ := List.mem_map.1 hm
    rw [← he]
    exact isSigned_ofNat (hd n hn)
  exact ⟨rfl, by rw [wordSize_of_signed hs, product_ofNat, wrap_eq hl]⟩

end TensorAsm.Shape

namespace TensorAsm.Circuit.Graph

/-- The size of a tensor in use is the number of places of its shape. -/
def Measured (g : Graph) : Prop :=
  ∀ id ∈ g.required, ∃ t, g.tensor? id = some t ∧ t.size? = .ok (Shape.volume t.shape : Int)

theorem Measured.size_eq {g : Graph} (h : g.Measured) {id : String} (hid : id ∈ g.required)
    {t : Tensor} (ht : g.tensor? id = some t) : t.size? = .ok (Shape.volume t.shape : Int) := by
  obtain ⟨u, hu, hs⟩ := h id hid
  rw [ht] at hu
  obtain rfl := Option.some.inj hu
  exact hs

end TensorAsm.Circuit.Graph

namespace TensorAsm.Witness

/-- An element of a tensor; zero where there is none. -/
def value (w : Witness) (tensor : String) (i : Nat) : Int :=
  ((w.values? tensor).bind (·[i]?)).getD 0

/-- The entry of a tensor has the shape of the tensor and as many values as that has places. -/
structure Entry.Fills (m : Int) (e : Entry) (t : Circuit.Tensor) : Prop where
  shape : e.shape = t.shape
  size : e.values.size = Shape.volume t.shape
  word : t.size? = .ok (Shape.volume t.shape : Int)
  fits : ∀ v ∈ e.values, Field.Fits m v

/-- There are values for every tensor in use. -/
def Complete (m : Int) (g : Circuit.Graph) (w : Witness) : Prop :=
  ∀ id ∈ g.required, ∃ t e, g.tensor? id = some t ∧ Ordered.get? id w = some e ∧ e.Fills m t

theorem readValue_fits {m : Int} {tensor : String} {leaf : Json} {v : Int}
    (h : readValue m tensor leaf = .ok v) : Field.Fits m v := by
  unfold readValue at h
  split at h
  · exact absurd h (by simp)
  · exact absurd h (by simp)
  · split at h
    · next hf =>
        cases h
        exact hf
    · exact absurd h (by simp)

theorem readEntry_fills [Platform] {m : Int} {t : Circuit.Tensor} {given : Json} {e : Entry}
    (h : readEntry m t given = .ok e) : e.Fills m t := by
  unfold readEntry at h
  dsimp only at h
  split at h
  · exact absurd h (by simp)
  · next size hsize =>
      split at h
      · exact absurd h (by simp)
      · next hcount =>
          split at h
          · exact absurd h (by simp)
          · next values hv =>
              split at h
              · exact absurd h (by simp)
              · next hr =>
                  cases h
                  unfold shapeRefusal? at hr
                  split at hr
                  · exact absurd hr (by simp)
                  split at hr
                  · exact absurd hr (by simp)
                  split at hr
                  · exact absurd hr (by simp)
                  next hdims hprod =>
                  obtain ⟨hk, hw⟩ := Shape.wordSize_eq (k := values.length)
                    (by simpa using hdims) (by simpa using hprod)
                  refine ⟨rfl, by simpa using hk, by rw [Circuit.Tensor.size?, hw], ?_⟩
                  intro v hm
                  obtain ⟨leaf, -, hl⟩ := Sequences.mapM_mem hv (by simpa using hm)
                  exact readValue_fits hl

theorem readEntries_complete [Platform] {m : Int} {g : Circuit.Graph} {given : List (String × Json)}
    {ids : List String} {w : Witness} (h : readEntries m g given ids = .ok w) :
    ∀ id ∈ ids, ∃ t e, g.tensor? id = some t ∧ Ordered.get? id w = some e ∧ e.Fills m t := by
  induction ids generalizing w with
  | nil => simp
  | cons id ids ih =>
    rw [readEntries] at h
    split at h
    · exact absurd h (by simp)
    · next t ht =>
        split at h
        · exact absurd h (by simp)
        · next j _ =>
            split at h
            · exact absurd h (by simp)
            · next e he =>
                cases hr : readEntries m g given ids with
                | error f => simp [hr, Except.map] at h
                | ok rest =>
                  simp only [hr, Except.map, Except.ok.injEq] at h
                  subst h
                  intro id' hid
                  by_cases heq : id' = id
                  · subst heq
                    exact ⟨t, e, ht, by simp [Ordered.get?], readEntry_fills he⟩
                  · obtain ⟨t', e', ht', hg, hf⟩ := ih hr id' (by simpa [heq] using hid)
                    refine ⟨t', e', ht', ?_, hf⟩
                    rw [Ordered.get?, List.lookup_cons, beq_false_of_ne heq]
                    exact hg

theorem read_complete [Platform] {m : Int} {g : Circuit.Graph} {given : Json} {w : Witness}
    (h : read m g given = .ok w) : w.Complete m g := by
  unfold read at h
  split at h
  · exact absurd h (by simp)
  · exact readEntries_complete h

theorem Complete.measured {m : Int} {g : Circuit.Graph} {w : Witness} (h : w.Complete m g) :
    g.Measured := by
  intro id hid
  obtain ⟨t, e, ht, -, hf⟩ := h id hid
  exact ⟨t, ht, hf.word⟩

end TensorAsm.Witness

/-! Circuits as documents, with every field written out. -/

namespace TensorAsm.Circuit

def Tensor.document (t : Tensor) : Json := .obj [
  ("id", .str t.id), ("shape", .arr (t.shape.map fun d => .int d)), ("scale", .int t.scale),
  ("visibility", .str t.visibility.name)]

def Operation.document (o : Operation) : Json := .obj [
  ("id", .int o.id), ("kind", .str o.kind), ("inputs", .arr (o.inputs.map .str)),
  ("output", .str o.output), ("scale", .int o.scale), ("params", .obj o.params)]

def Graph.document (g : Graph) : Json := .obj [
  ("tensors", .arr (g.tensors.map Tensor.document)),
  ("operations", .arr (g.operations.map Operation.document)),
  ("inputs", .arr (g.inputs.map .str)), ("outputs", .arr (g.outputs.map .str))]

end TensorAsm.Circuit
