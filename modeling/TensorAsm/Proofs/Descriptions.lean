import Mathlib
import TensorAsm.Proofs.Acyclicity
/-!
Which descriptions of circuits are read: those that give every part in its place, for a graph whose
references hold together.
-/

namespace TensorAsm

namespace Json

variable {j v : Json}

/-- Every integer in a value is short enough to be written. -/
def Legible (j : Json) : Prop := ∀ n ∈ j.numbers, Numeral.isWritable n = true

theorem numbersOf_eq (items : List Json) : numbersOf items = items.flatMap numbers := by
  induction items with
  | nil => rfl
  | cons j items ih => rw [numbersOf, ih, List.flatMap_cons]

theorem numbersIn_eq (fields : List (String × Json)) :
    numbersIn fields = fields.flatMap fun f => f.2.numbers := by
  induction fields with
  | nil => rfl
  | cons f fields ih => rw [numbersIn, ih, List.flatMap_cons]

theorem Legible.item {items : List Json} (h : (arr items).Legible) (hv : v ∈ items) :
    v.Legible := by
  intro n hn
  apply h
  rw [numbers, numbersOf_eq]
  exact List.mem_flatMap_of_mem hv hn

theorem Legible.get {key : String} (h : j.Legible) (hv : j.get? key = some v) : v.Legible := by
  cases j with
  | obj fields =>
    intro n hn
    apply h
    rw [numbers, numbersIn_eq]
    obtain ⟨pre, post, rfl, -⟩ := List.lookup_eq_some_iff.1 hv
    exact List.mem_flatMap.2 ⟨(key, v), by simp, hn⟩
  | _ => exact absurd hv (by simp [get?])

theorem Legible.getD {key : String} {default : Json} (h : j.Legible) (hd : default.Legible) :
    ((j.get? key).getD default).Legible := by
  cases hv : j.get? key with
  | none => exact hd
  | some v => exact h.get hv

theorem legible_int {n : Int} : (int n).Legible ↔ Numeral.isWritable n = true := by
  simp [Legible, numbers]

theorem legible_nil : (arr []).Legible := by
  simp [Legible, numbers, numbersOf]

theorem Legible.text_eq (h : j.Legible) : j.text? = .ok j.text := by
  rw [text?, written, if_pos (List.all_eq_true.2 h)]

theorem Legible.texts_eq {items : List Json} (h : ∀ j ∈ items, j.Legible) :
    items.mapM text? = .ok (items.map text) := by
  induction items with
  | nil => rfl
  | cons j items ih =>
    rw [List.mapM_cons, (h j (by simp)).text_eq, ih fun v hv => h v (by simp [hv])]
    rfl

theorem int_eq_some {n : Int} : j.int? = some n ↔ j = .int n := by
  cases j <;> simp [int?]

end Json

namespace Circuit

variable {entry doc : Json} {t : Tensor} {o : Operation} {g : Graph}

theorem dims_eq_some {items : List Json} {shape : List Nat} :
    dims? items = some shape ↔ items = shape.map fun (d : Nat) => .int d := by
  induction items generalizing shape with
  | nil => cases shape <;> simp [dims?]
  | cons j items ih =>
    cases j with
    | int n =>
      cases shape with
      | nil => simp [dims?]
      | cons d shape =>
        simp only [dims?, Option.ite_none_right_eq_some, Option.map_eq_some_iff, ih,
          List.map_cons, List.cons.injEq, Json.int.injEq]
        constructor
        · rintro ⟨hn, _, rfl, rfl, rfl⟩
          exact ⟨(Int.toNat_of_nonneg hn).symm, rfl⟩
        · rintro ⟨rfl, rfl⟩
          exact ⟨Int.natCast_nonneg d, shape, rfl, Int.toNat_natCast d, rfl⟩
    | _ => cases shape <;> simp [dims?]

theorem shape_eq_some {j : Json} {shape : List Nat} :
    shape? j = some shape ↔ j = .arr (shape.map fun (d : Nat) => .int d) := by
  cases j <;> simp [shape?, dims_eq_some]

theorem Visibility.ofName_eq_some {s : String} {v : Visibility} :
    Visibility.ofName? s = some v ↔ s = v.name := by
  constructor
  · unfold Visibility.ofName?
    split <;> simp +contextual [Visibility.name, eq_comm]
  · rintro rfl
    cases v <;> rfl

theorem visibility_eq_some {j : Json} {v : Visibility} :
    visibility? j = some v ↔ j = .str v.name := by
  cases j <;> simp [visibility?, Visibility.ofName_eq_some]

/-- An entry gives the fields of a tensor; all but the id may be left out. -/
structure TensorEntry (entry : Json) (t : Tensor) : Prop where
  id : ∃ j, entry.get? "id" = some j ∧ t.id = j.text
  shape : (entry.get? "shape").getD (.arr []) = .arr (t.shape.map fun (d : Nat) => .int d)
  scale : (entry.get? "scale").getD (.int 0) = .int t.scale
  visibility : (entry.get? "visibility").getD (.str "private") = .str t.visibility.name

/-- A list of ids under a key; it may be left out. -/
def Listed (entry : Json) (key : String) (ids : List String) : Prop :=
  ∃ items, (entry.get? key).getD (.arr []) = .arr items ∧ ids = items.map Json.text

/-- An entry gives the fields of an operation; inputs, scale and parameters may be left out, and a
scale that is given may be null. -/
structure OperationEntry (entry : Json) (o : Operation) : Prop where
  id : entry.get? "id" = some (.int o.id)
  kind : entry.get? "kind" = some (.str o.kind)
  inputs : Listed entry "inputs" o.inputs
  output : ∃ j, entry.get? "output" = some j ∧ o.output = j.text
  scale : ∀ j, entry.get? "scale" = some j → j = .null ∨ j = .int o.scale
  params : (entry.get? "params").getD (.obj []) = .obj o.params

structure Describes (doc : Json) (g : Graph) : Prop where
  tensors : ∃ entries, doc.get? "tensors" = some (.arr entries) ∧
    List.Forall₂ TensorEntry entries g.tensors
  operations : ∃ entries, doc.get? "operations" = some (.arr entries) ∧
    List.Forall₂ OperationEntry entries g.operations
  inputs : Listed doc "inputs" g.inputs
  outputs : Listed doc "outputs" g.outputs

/-- The references of a graph hold together, and no operation feeds itself. -/
structure Graph.Consistent (g : Graph) : Prop where
  tensorIds : (g.tensors.map (·.id)).Nodup
  nodeIds : (g.operations.map (·.id)).Nodup
  producers : (g.operations.map (·.output)).Nodup
  defined : ∀ o ∈ g.operations, ∀ id ∈ o.inputs ++ [o.output], id ∈ g.tensors.map (·.id)
  scales : ∀ o ∈ g.operations, ∀ t ∈ g.tensors, t.id = o.output → o.scale = t.scale
  declared : ∀ id ∈ g.inputs ++ g.outputs, id ∈ g.tensors.map (·.id)
  unproduced : ∀ id ∈ g.inputs, id ∉ g.operations.map (·.output)
  origin : ∀ id, (id ∈ g.outputs ∨ ∃ o ∈ g.operations, id ∈ o.inputs ∨ id = o.output) →
    id ∈ g.operations.map (·.output) ∨ id ∈ g.inputs ∨
      ∃ t ∈ g.tensors, t.id = id ∧ t.visibility = .fixed
  acyclic : g.Acyclic

namespace Graph

theorem tensor_eq_some (h : (g.tensors.map (·.id)).Nodup) {id : String} :
    g.tensor? id = some t ↔ t ∈ g.tensors ∧ t.id = id := by
  constructor
  · exact fun ht => ⟨List.mem_of_find?_eq_some ht, tensor_id ht⟩
  · rintro ⟨ht, rfl⟩
    have hs : (g.tensor? t.id).isSome := List.find?_isSome.2 ⟨t, ht, by simp⟩
    obtain ⟨u, hu⟩ := Option.isSome_iff_exists.1 hs
    rw [hu, List.inj_on_of_nodup_map h (List.mem_of_find?_eq_some hu) ht (tensor_id hu)]

theorem defines_iff_mem {id : String} : g.defines id = true ↔ id ∈ g.tensors.map (·.id) := by
  simp [defines, tensor?, List.find?_isSome]

theorem producer_eq_none_iff {id : String} :
    g.producer? id = none ↔ id ∉ g.operations.map (·.output) := by
  rw [producer_eq_none]
  simp

theorem operationDefect_none_iff {before : List Operation} :
    g.operationDefect? before o = none ↔
      (∀ id ∈ o.inputs ++ [o.output], id ∈ g.tensors.map (·.id)) ∧
      (∀ p ∈ before, p.output ≠ o.output) ∧
      ∀ t, g.tensor? o.output = some t → o.scale = t.scale := by
  have hdefined : (o.inputs ++ [o.output]).find? (fun t => !g.defines t) = none ↔
      ∀ id ∈ o.inputs ++ [o.output], id ∈ g.tensors.map (·.id) := by
    rw [List.find?_eq_none]
    exact forall₂_congr fun id _ => by rw [← defines_iff_mem]; simp
  have hbefore : before.find? (·.output == o.output) = none ↔
      ∀ p ∈ before, p.output ≠ o.output := by
    simp
  rw [operationDefect?, ← hdefined, ← hbefore]
  cases (o.inputs ++ [o.output]).find? fun t => !g.defines t with
  | some id => simp
  | none =>
    cases before.find? (·.output == o.output) with
    | some p => simp
    | none => cases g.tensor? o.output <;> simp

theorem operationsDefect_none_iff {before ops : List Operation} :
    g.operationsDefect? before ops = none ↔
      ∀ pre o post, ops = pre ++ o :: post → g.operationDefect? (before ++ pre) o = none := by
  refine ⟨fun h pre o post hs => operationsDefect_split h hs, fun h => ?_⟩
  induction ops generalizing before with
  | nil => rfl
  | cons o ops ih =>
    have ho := h [] o ops rfl
    rw [List.append_nil] at ho
    rw [operationsDefect?, ho]
    apply ih
    intro pre p post hs
    rw [List.append_assoc]
    exact h (o :: pre) p post (by rw [hs]; rfl)

theorem defect_none_iff : g.defect? = none ↔
    g.operationsDefect? [] (g.operations.mergeSort fun a b => decide (a.id ≤ b.id)) = none ∧
      g.declaredDefect? = none ∧ g.originDefect? = none := by
  refine ⟨defect_none, ?_⟩
  rintro ⟨ho, hd, hr⟩
  rw [defect?, ho, hd]
  exact hr

namespace Consistent

theorem operationsDefect (h : g.Consistent) {ops : List Operation} (hp : ops.Perm g.operations) :
    g.operationsDefect? [] ops = none := by
  rw [operationsDefect_none_iff]
  rintro pre o post rfl
  have ho : o ∈ g.operations := hp.mem_iff.1 (by simp)
  refine operationDefect_none_iff.2 ⟨h.defined o ho, ?_, ?_⟩
  · intro p hpre he
    have hn := (hp.map (·.output)).nodup_iff.2 h.producers
    rw [List.map_append, List.map_cons] at hn
    exact List.disjoint_of_nodup_append hn (List.mem_map.2 ⟨p, hpre, he⟩) (by simp)
  · intro t ht
    obtain ⟨hm, he⟩ := (tensor_eq_some h.tensorIds).1 ht
    exact h.scales o ho t hm he

theorem declaredDefect (h : g.Consistent) : g.declaredDefect? = none := by
  have hd : (g.inputs ++ g.outputs).find? (fun t => !g.defines t) = none := by
    rw [List.find?_eq_none]
    intro id hid
    simpa using defines_iff_mem.2 (h.declared id hid)
  rw [declaredDefect?, hd, List.findSome?_eq_none_iff]
  intro id hid
  rw [producer_eq_none_iff.2 (h.unproduced id hid), Option.map_none]

theorem originDefect (h : g.Consistent) : g.originDefect? = none := by
  rw [originDefect?, Option.map_eq_none_iff, List.find?_eq_none]
  intro id hid
  rcases h.origin id (mem_required.1 hid) with hp | hi | ⟨t, ht, rfl, hv⟩
  · have hs : (g.producer? id).isSome := by
      rw [Option.isSome_iff_ne_none, ne_eq, producer_eq_none_iff, not_not]
      exact hp
    simp [hasOrigin, hs]
  · simp [hasOrigin, hi]
  · simp [hasOrigin, (tensor_eq_some h.tensorIds).2 ⟨ht, rfl⟩, hv]

theorem defect (h : g.Consistent) : g.defect? = none :=
  defect_none_iff.2 ⟨h.operationsDefect (List.mergeSort_perm ..), h.declaredDefect, h.originDefect⟩

end Consistent

theorem consistent_of_defect (ht : (g.tensors.map (·.id)).Nodup)
    (ho : (g.operations.map (·.id)).Nodup) (hd : g.defect? = none) {ops : List Operation}
    (hops : g.order = .ok ops) : g.Consistent := by
  obtain ⟨hoper, hdecl, horig⟩ := defect_none_iff.1 hd
  obtain ⟨hdef, hin⟩ := declaredDefect_none hdecl
  have hperm := List.mergeSort_perm g.operations fun a b => decide (a.id ≤ b.id)
  have heach (o : Operation) (hmem : o ∈ g.operations) :
      (∀ id ∈ o.inputs ++ [o.output], id ∈ g.tensors.map (·.id)) ∧
        ∀ t, g.tensor? o.output = some t → o.scale = t.scale := by
    obtain ⟨pre, post, hs⟩ := List.append_of_mem (hperm.mem_iff.2 hmem)
    obtain ⟨h, -, hscale⟩ := operationDefect_none_iff.1 (operationsDefect_split hoper hs)
    exact ⟨h, hscale⟩
  refine ⟨ht, ho, (hperm.map _).nodup_iff.1 (outputs_nodup hoper), fun o hm => (heach o hm).1,
    fun o hm t htm he => (heach o hm).2 t ((tensor_eq_some ht).2 ⟨htm, he⟩), ?_, ?_, ?_,
    acyclic_of_order ho hops⟩
  · intro id hid
    exact defines_iff_mem.1 (defines_iff.2 (hdef id hid))
  · intro id hid
    exact producer_eq_none_iff.1 (hin id hid)
  · intro id hid
    rw [or_iff_not_imp_left, ← producer_eq_none_iff]
    intro hn
    rcases originDefect_none horig (mem_required.2 hid) hn with hi | ⟨t, htm, hv⟩
    · exact .inl hi
    · obtain ⟨hm, he⟩ := (tensor_eq_some ht).1 htm
      exact .inr ⟨t, hm, he, hv⟩

end Graph

section Distinct

variable {α κ : Type} [BEq κ] [LawfulBEq κ]

/-- Reads entries behind those that are there already and refuses a key that comes again. -/
def readDistinct (read : Json → Except Fault α) (key : α → κ) (twice : κ → CircuitDefect)
    (done : List α) : List Json → Except Fault (List α)
  | [] => .ok done
  | entry :: rest =>
    match read entry with
    | .error f => .error f
    | .ok a =>
      if done.any (key · == key a) then .error (refusal (twice (key a)))
      else readDistinct read key twice (done ++ [a]) rest

theorem readDistinct_ok_iff {read : Json → Except Fault α} {key : α → κ} {twice : κ → CircuitDefect}
    {done as : List α} {entries : List Json} (hd : (done.map key).Nodup) :
    readDistinct read key twice done entries = .ok as ↔ (as.map key).Nodup ∧
      ∃ new, as = done ++ new ∧ List.Forall₂ (fun e a => read e = .ok a) entries new := by
  induction entries generalizing done with
  | nil =>
    rw [readDistinct, Except.ok.injEq]
    constructor
    · rintro rfl
      exact ⟨hd, [], by simp⟩
    · rintro ⟨-, new, rfl, hn⟩
      rw [List.forall₂_nil_left_iff.1 hn, List.append_nil]
  | cons entry entries ih =>
    rw [readDistinct]
    cases hr : read entry with
    | error f =>
      constructor
      · intro h
        exact absurd h (by simp)
      · rintro ⟨-, new, -, hn⟩
        obtain ⟨a, rest, ha, -⟩ := List.forall₂_cons_left_iff.1 hn
        exact absurd (hr.symm.trans ha) (by simp)
    | ok a =>
      have hmem : done.any (key · == key a) = true ↔ key a ∈ done.map key := by simp
      dsimp only
      split
      · next hin =>
          constructor
          · intro h
            exact absurd h (by simp)
          · rintro ⟨hnodup, new, rfl, hn⟩
            obtain ⟨b, rest, hb, -, rfl⟩ := List.forall₂_cons_left_iff.1 hn
            obtain rfl : a = b := by simpa [hr] using hb
            rw [List.map_append, List.map_cons] at hnodup
            exact absurd (hmem.1 hin) fun h =>
              List.disjoint_of_nodup_append hnodup h (by simp)
      · next hout =>
          have hnext : ((done ++ [a]).map key).Nodup := by
            rw [List.map_append, List.nodup_append]
            refine ⟨hd, by simp, ?_⟩
            rintro k hk _ hs rfl
            obtain rfl : k = key a := by simpa using hs
            exact hout (hmem.2 hk)
          rw [ih hnext]
          apply and_congr_right
          intro _
          constructor
          · rintro ⟨new, rfl, hn⟩
            exact ⟨a :: new, by simp, .cons hr hn⟩
          · rintro ⟨new, rfl, hn⟩
            obtain ⟨b, rest, hb, hrest, rfl⟩ := List.forall₂_cons_left_iff.1 hn
            obtain rfl : a = b := by simpa [hr] using hb
            exact ⟨rest, by simp, hrest⟩

end Distinct

theorem readTensors_eq (done : List Tensor) (entries : List Json) :
    readTensors done entries = readDistinct readTensor (·.id) .tensorTwice done entries := by
  induction entries generalizing done with
  | nil => rfl
  | cons entry entries ih =>
    rw [readTensors, readDistinct]
    cases readTensor entry with
    | error f => rfl
    | ok t => simp only [ih]

theorem readOperations_eq (tensors : List Tensor) (done : List Operation) (entries : List Json) :
    readOperations tensors done entries =
      readDistinct (readOperation tensors) (·.id) .nodeTwice done entries := by
  induction entries generalizing done with
  | nil => rfl
  | cons entry entries ih =>
    rw [readOperations, readDistinct]
    cases readOperation tensors entry with
    | error f => rfl
    | ok o => simp only [ih]

/-- The parts of a description, each as it is read. -/
structure Parts (doc : Json) (g : Graph) : Prop where
  tensors : ∃ entries, doc.get? "tensors" = some (.arr entries) ∧
    List.Forall₂ (fun e t => readTensor e = .ok t) entries g.tensors
  operations : ∃ entries, doc.get? "operations" = some (.arr entries) ∧
    List.Forall₂ (fun e o => readOperation g.tensors e = .ok o) entries g.operations
  inputs : readIds doc "inputs" = .ok g.inputs
  outputs : readIds doc "outputs" = .ok g.outputs

theorem sections_ok_iff {entries entries' : List Json} :
    sections? doc = .ok (entries, entries') ↔
      doc.get? "tensors" = some (.arr entries) ∧ doc.get? "operations" = some (.arr entries') := by
  cases doc with
  | obj fields =>
    rw [sections?]
    constructor
    · intro h
      split at h
      · split at h
        · cases h
          exact ⟨‹_›, ‹_›⟩
        · exact absurd h (by simp)
      · exact absurd h (by simp)
    · rintro ⟨ht, ho⟩
      rw [ht, ho]
  | _ => simp [sections?, Json.get?]

theorem readParts_ok_iff : readParts doc = .ok g ↔
    Parts doc g ∧ (g.tensors.map (·.id)).Nodup ∧ (g.operations.map (·.id)).Nodup := by
  constructor
  · intro h
    obtain ⟨⟨es, es'⟩, hs, h⟩ := Sequences.bind_ok h
    obtain ⟨ts, ht, h⟩ := Sequences.bind_ok h
    obtain ⟨os, ho, h⟩ := Sequences.bind_ok h
    obtain ⟨is, hi, h⟩ := Sequences.bind_ok h
    obtain ⟨us, hu, h⟩ := Sequences.bind_ok h
    cases h
    obtain ⟨hst, hso⟩ := sections_ok_iff.1 hs
    rw [readTensors_eq, readDistinct_ok_iff (by simp)] at ht
    rw [readOperations_eq, readDistinct_ok_iff (by simp)] at ho
    obtain ⟨htn, _, rfl, hts⟩ := ht
    obtain ⟨hon, _, rfl, hos⟩ := ho
    exact ⟨⟨⟨es, hst, hts⟩, ⟨es', hso, hos⟩, hi, hu⟩, htn, hon⟩
  · rintro ⟨⟨⟨es, hst, hts⟩, ⟨es', hso, hos⟩, hi, hu⟩, htn, hon⟩
    have ht : readTensors [] es = .ok g.tensors := by
      rw [readTensors_eq, readDistinct_ok_iff (by simp)]
      exact ⟨htn, g.tensors, rfl, hts⟩
    have ho : readOperations g.tensors [] es' = .ok g.operations := by
      rw [readOperations_eq, readDistinct_ok_iff (by simp)]
      exact ⟨hon, g.operations, rfl, hos⟩
    simp only [readParts, sections_ok_iff.2 ⟨hst, hso⟩, ht, ho, hi, hu, bind, Except.bind, pure,
      Except.pure]

theorem read_ok_iff_parts : read doc = .ok g ↔ Parts doc g ∧ g.Consistent := by
  constructor
  · intro h
    unfold read at h
    split at h
    · exact absurd h (by simp)
    next hp =>
    split at h
    · exact absurd h (by simp)
    next hd =>
    split at h
    · exact absurd h (by simp)
    next ops ho =>
    cases h
    obtain ⟨hparts, ht, hn⟩ := readParts_ok_iff.1 hp
    exact ⟨hparts, Graph.consistent_of_defect ht hn hd ho⟩
  · rintro ⟨hp, hc⟩
    obtain ⟨ops, ho⟩ := Graph.order_of_acyclic hc.nodeIds hc.acyclic
    rw [read, readParts_ok_iff.2 ⟨hp, hc.tensorIds, hc.nodeIds⟩]
    simp only [hc.defect, ho]

section Legible

theorem readTensor_ok_iff (h : entry.Legible) : readTensor entry = .ok t ↔ TensorEntry entry t := by
  constructor
  · intro hr
    unfold readTensor at hr
    simp only [bind, Except.bind, pure, Except.pure, throw, throwThe, MonadExceptOf.throw] at hr
    split at hr
    · exact absurd hr (by simp)
    next j hj =>
    rw [(h.get hj).text_eq] at hr
    dsimp only at hr
    split at hr
    case h_2 => exact absurd hr (by simp)
    next dims hs =>
    split at hr
    case h_2 => exact absurd hr (by simp)
    next scale hscale =>
    split at hr
    case h_2 => exact absurd hr (by simp)
    next v hv =>
    cases hr
    exact ⟨⟨j, hj, rfl⟩, shape_eq_some.1 hs, Json.int_eq_some.1 hscale, visibility_eq_some.1 hv⟩
  · rintro ⟨⟨j, hj, hid⟩, hs, hscale, hv⟩
    rw [readTensor, hj]
    simp only [bind, Except.bind, pure, Except.pure, (h.get hj).text_eq,
      shape_eq_some.2 hs, Json.int_eq_some.2 hscale, visibility_eq_some.2 hv,
      ← hid]

theorem mapM_text_ok_iff {key : String} {ids : List String} (h : entry.Legible) :
    (∃ items, (entry.get? key).getD (.arr []) = .arr items ∧ items.mapM Json.text? = .ok ids) ↔
      Listed entry key ids := by
  have hitems {items : List Json} (hi : (entry.get? key).getD (.arr []) = .arr items) :
      items.mapM Json.text? = .ok (items.map Json.text) := by
    have hl : (Json.arr items).Legible := hi ▸ h.getD Json.legible_nil
    exact Json.Legible.texts_eq fun j hj => hl.item hj
  constructor
  · rintro ⟨items, hi, hm⟩
    exact ⟨items, hi, by simpa [hitems hi] using hm.symm⟩
  · rintro ⟨items, hi, rfl⟩
    exact ⟨items, hi, hitems hi⟩

theorem readIds_ok_iff {key : String} {ids : List String} (h : doc.Legible) :
    readIds doc key = .ok ids ↔ Listed doc key ids := by
  rw [← mapM_text_ok_iff h, readIds]
  cases (doc.get? key).getD (.arr []) <;> simp

def defaultScale (tensors : List Tensor) (output : String) : Int :=
  ((tensors.find? (·.id == output)).map (·.scale)).getD 0

theorem readScale_ok_iff {tensors : List Tensor} {node s : Int} {output : String}
    {given : Option Json} : readScale tensors node output given = .ok s ↔
      (∀ j, given = some j → j = .null ∨ j = .int s) ∧
        (given.getD .null = .null → s = defaultScale tensors output) := by
  rw [defaultScale]
  cases given with
  | none => simp [readScale, eq_comm]
  | some j => cases j <;> simp [readScale, Json.int?, eq_comm]

theorem readOperation_ok_iff {tensors : List Tensor} (h : entry.Legible) :
    readOperation tensors entry = .ok o ↔ OperationEntry entry o ∧
      ((entry.get? "scale").getD .null = .null → o.scale = defaultScale tensors o.output) := by
  constructor
  · intro hr
    unfold readOperation at hr
    simp only [bind, Except.bind, pure, Except.pure, throw, throwThe, MonadExceptOf.throw] at hr
    split at hr
    case h_2 => exact absurd hr (by simp)
    next node hid =>
    split at hr
    case h_2 => exact absurd hr (by simp)
    next kind hk =>
    split at hr
    case h_2 => exact absurd hr (by simp)
    next items hi =>
    split at hr
    case h_2 => exact absurd hr (by simp)
    next j hj =>
    rw [(h.get hj).text_eq] at hr
    dsimp only at hr
    split at hr
    · exact absurd hr (by simp)
    next scale hs =>
    split at hr
    case h_2 => exact absurd hr (by simp)
    next params hp =>
    split at hr
    · exact absurd hr (by simp)
    next ids hm =>
    cases hr
    obtain ⟨k, hki, hkn⟩ := Option.bind_eq_some_iff.1 hid
    rw [Json.int_eq_some.1 hkn] at hki
    obtain ⟨hgiven, hdefault⟩ := readScale_ok_iff.1 hs
    exact ⟨⟨hki, hk, (mapM_text_ok_iff h).1 ⟨items, hi, hm⟩, ⟨j, hj, rfl⟩, hgiven, hp⟩, hdefault⟩
  · rintro ⟨⟨hid, hk, hi, ⟨j, hj, ho⟩, hs, hp⟩, hd⟩
    obtain ⟨items, hi, hm⟩ := (mapM_text_ok_iff h).2 hi
    have hscale : readScale tensors o.id o.output (entry.get? "scale") = .ok o.scale :=
      readScale_ok_iff.2 ⟨hs, hd⟩
    rw [readOperation]
    simp only [bind, Except.bind, pure, Except.pure, hid, hk, hi, hj, (h.get hj).text_eq, ← ho,
      hscale, hp, hm, Option.bind, Json.int?]

end Legible

theorem Graph.Consistent.scale_eq (hc : g.Consistent) (ho : o ∈ g.operations) :
    o.scale = defaultScale g.tensors o.output := by
  obtain ⟨t, ht, he⟩ := List.mem_map.1 (hc.defined o ho o.output (by simp))
  have hfind : g.tensors.find? (·.id == o.output) = some t :=
    (Graph.tensor_eq_some hc.tensorIds).2 ⟨ht, he⟩
  rw [defaultScale, hfind]
  exact hc.scales o ho t ht he

theorem parts_iff_describes (h : doc.Legible) (hc : g.Consistent) :
    Parts doc g ↔ Describes doc g := by
  have htensors (entries : List Json) (hd : doc.get? "tensors" = some (.arr entries)) :
      List.Forall₂ (fun e t => readTensor e = .ok t) entries g.tensors ↔
        List.Forall₂ TensorEntry entries g.tensors :=
    Sequences.forall₂_congr_mem fun e he t _ => readTensor_ok_iff ((h.get hd).item he)
  have hoperations (entries : List Json) (hd : doc.get? "operations" = some (.arr entries)) :
      List.Forall₂ (fun e o => readOperation g.tensors e = .ok o) entries g.operations ↔
        List.Forall₂ OperationEntry entries g.operations := by
    apply Sequences.forall₂_congr_mem
    intro e he o ho
    rw [readOperation_ok_iff ((h.get hd).item he)]
    exact and_iff_left fun _ => hc.scale_eq ho
  constructor
  · rintro ⟨⟨es, hes, hts⟩, ⟨es', hes', hos⟩, hi, ho⟩
    exact ⟨⟨es, hes, (htensors es hes).1 hts⟩, ⟨es', hes', (hoperations es' hes').1 hos⟩,
      (readIds_ok_iff h).1 hi, (readIds_ok_iff h).1 ho⟩
  · rintro ⟨⟨es, hes, hts⟩, ⟨es', hes', hos⟩, hi, ho⟩
    exact ⟨⟨es, hes, (htensors es hes).2 hts⟩, ⟨es', hes', (hoperations es' hes').2 hos⟩,
      (readIds_ok_iff h).2 hi, (readIds_ok_iff h).2 ho⟩

/-- A description is read exactly when it gives the parts of a consistent graph, and as that
graph. -/
theorem read_ok_iff_describes (h : doc.Legible) :
    read doc = .ok g ↔ Describes doc g ∧ g.Consistent := by
  rw [read_ok_iff_parts]
  exact and_congr_left (parts_iff_describes h)

namespace Described

/-- Ids that are no strings, a scale that is null, an unknown kind, a tensor out of use. -/
def circuit : Json := .obj [
  ("outputs", .arr [.str "z"]),
  ("inputs", .arr [.bool false]),
  ("operations", .arr [
    .obj [("id", .int 9), ("kind", .str "none such"), ("inputs", .arr [.str "y", .str "y"]),
      ("output", .str "z"), ("scale", .null), ("params", .obj [("axis", .int 0)])],
    .obj [("id", .int (-2)), ("kind", .str "add"),
      ("inputs", .arr [.str "False", .arr [.null, .bool true]]), ("output", .str "y"),
      ("scale", .int 4)]]),
  ("tensors", .arr [
    .obj [("id", .bool false), ("shape", .arr [.int 2, .int 0]), ("visibility", .str "public")],
    .obj [("id", .arr [.null, .bool true]), ("visibility", .str "fixed")],
    .obj [("id", .str "y"), ("scale", .int 4)],
    .obj [("id", .str "z"), ("scale", .int (-1))],
    .obj [("id", .null)]])]

def graph : Graph :=
  ⟨[⟨"False", [2, 0], 0, .pub⟩, ⟨"[None, True]", [], 0, .fixed⟩, ⟨"y", [], 4, .priv⟩,
      ⟨"z", [], -1, .priv⟩, ⟨"None", [], 0, .priv⟩],
    [⟨9, "none such", ["y", "y"], "z", -1, [("axis", .int 0)]⟩,
      ⟨-2, "add", ["False", "[None, True]"], "y", 4, []⟩],
    ["False"], ["z"]⟩

theorem legible : circuit.Legible := List.all_eq_true.1 (by decide +kernel)

theorem consistent : graph.Consistent where
  tensorIds := by decide
  nodeIds := by decide
  producers := by decide
  defined := by decide
  scales := by decide
  declared := by decide
  unproduced := by decide
  origin := by
    intro id hid
    simp [graph] at hid ⊢
    grind
  acyclic := by
    have ho : graph.order = .ok graph.operations.reverse := rfl
    exact Graph.acyclic_of_order (by decide) ho

theorem describes : Describes circuit graph := by
  have hr : readParts circuit = .ok graph := by cbv
  exact (parts_iff_describes legible consistent).1 (readParts_ok_iff.1 hr).1

end Described

theorem described_is_read : Described.circuit.Legible ∧
    read Described.circuit = .ok Described.graph ∧
    Describes Described.circuit Described.graph ∧ Described.graph.Consistent := by
  have hd := And.intro Described.describes Described.consistent
  exact ⟨Described.legible, (read_ok_iff_describes Described.legible).2 hd, hd⟩

end Circuit

end TensorAsm
