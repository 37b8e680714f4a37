import Mathlib
import TensorAsm.Proofs.Rearrangement
/-!
Renamed circuits. Other names for the tensors of a circuit, no two alike, keep it consistent, keep
the order in which its operations are lowered, and keep what is read as its witness.
-/

namespace TensorAsm.Circuit

variable (f : String → String)

def Tensor.rename (t : Tensor) : Tensor := { t with id := f t.id }

def Operation.rename (o : Operation) : Operation :=
  { o with inputs := o.inputs.map f, output := f o.output }

def Graph.rename (g : Graph) : Graph :=
  ⟨g.tensors.map (·.rename f), g.operations.map (·.rename f), g.inputs.map f, g.outputs.map f⟩

def Graph.names (g : Graph) : Set String := {id | id ∈ g.tensors.map (·.id)}

variable {f}

theorem Tensor.rename_size (t : Tensor) : (t.rename f).size? = t.size? := rfl

theorem Tensor.rename_shape (t : Tensor) : (t.rename f).shape = t.shape := rfl

theorem Operation.rename_inputs (o : Operation) : (o.rename f).inputs = o.inputs.map f := rfl

theorem beq_rename {N : Set String} (hf : Set.InjOn f N) {a b : String} (ha : a ∈ N)
    (hb : b ∈ N) : (f a == f b) = (a == b) := by
  rw [Bool.eq_iff_iff, beq_iff_eq, beq_iff_eq]
  exact hf.eq_iff ha hb

/-- A traversal goes by ids of operations, whatever their tensors are called. -/
theorem Traversal.run_rename (ops : List Operation) (users : List (Int × List Int)) (n : Nat)
    (t : Traversal) : run (ops.map (·.rename f)) users n t =
      ((run ops users n t).1.map (·.rename f), (run ops users n t).2) := by
  induction n generalizing t with
  | zero => rfl
  | succ n ih =>
    rw [run, run]
    cases t.ready with
    | nil => rfl
    | cons id ready =>
      have hfind : (ops.map (·.rename f)).find? (·.id = id) =
          (ops.find? (·.id = id)).map (·.rename f) := List.find?_map ..
      simp only [hfind, ih, List.map_append, Option.toList_map]

namespace Graph

variable {g : Graph} {id : String} {o : Operation}

theorem Consistent.required_subset (hc : g.Consistent) (h : id ∈ g.required) : id ∈ g.names := by
  rcases mem_required.1 h with hout | ⟨o, ho, hin | rfl⟩
  · exact hc.declared id (by simp [hout])
  · exact hc.defined o ho id (by simp [hin])
  · exact hc.defined o ho o.output (by simp)

theorem Consistent.output_names (hc : g.Consistent) :
    ∀ id ∈ g.operations.map (·.output), id ∈ g.names := by
  intro id hid
  obtain ⟨o, ho, rfl⟩ := List.mem_map.1 hid
  exact hc.defined o ho o.output (by simp)

theorem names_rename (g : Graph) :
    (g.rename f).tensors.map (·.id) = (g.tensors.map (·.id)).map f := by
  rw [rename, List.map_map, List.map_map]
  rfl

theorem nodeIds_rename (g : Graph) :
    (g.rename f).operations.map (·.id) = g.operations.map (·.id) := by
  rw [rename, List.map_map]
  rfl

theorem outputs_rename (g : Graph) :
    (g.rename f).operations.map (·.output) = (g.operations.map (·.output)).map f := by
  rw [rename, List.map_map, List.map_map]
  rfl

theorem mem_required_rename {id' : String} :
    id' ∈ (g.rename f).required ↔ ∃ id ∈ g.required, f id = id' := by
  simp only [mem_required, rename, Operation.rename, List.mem_map]
  constructor
  · rintro (⟨id, hid, rfl⟩ | ⟨_, ⟨o, ho, rfl⟩, hio⟩)
    · exact ⟨id, .inl hid, rfl⟩
    · rcases hio with hin | rfl
      · obtain ⟨id, hid, rfl⟩ := List.mem_map.1 hin
        exact ⟨id, .inr ⟨o, ho, .inl hid⟩, rfl⟩
      · exact ⟨o.output, .inr ⟨o, ho, .inr rfl⟩, rfl⟩
  · rintro ⟨id, hid | ⟨o, ho, hin | rfl⟩, rfl⟩
    · exact .inl ⟨id, hid, rfl⟩
    · exact .inr ⟨_, ⟨o, ho, rfl⟩, .inl (List.mem_map_of_mem hin)⟩
    · exact .inr ⟨_, ⟨o, ho, rfl⟩, .inr rfl⟩

section

variable (hf : Set.InjOn f g.names)

include hf

theorem mem_map_rename {ids : List String} (hids : ∀ a ∈ ids, a ∈ g.names) (hid : id ∈ g.names) :
    f id ∈ ids.map f ↔ id ∈ ids := by
  rw [List.mem_map]
  constructor
  · rintro ⟨a, ha, he⟩
    rwa [← hf (hids a ha) hid he]
  · exact fun h => ⟨id, h, rfl⟩

theorem tensor?_rename (hid : id ∈ g.names) :
    (g.rename f).tensor? (f id) = (g.tensor? id).map (·.rename f) := by
  rw [tensor?, rename, List.find?_map, tensor?]
  congr 1
  apply List.find?_congr
  exact fun t ht => beq_rename hf (List.mem_map_of_mem ht) hid

variable (hc : g.Consistent)

include hc

theorem producer?_rename (hid : id ∈ g.names) :
    (g.rename f).producer? (f id) = (g.producer? id).map (·.rename f) := by
  rw [producer?, rename, ← List.map_reverse, List.find?_map, producer?]
  congr 1
  apply List.find?_congr
  intro o ho
  exact beq_rename hf (hc.defined o (List.mem_reverse.1 ho) o.output (by simp)) hid

theorem dependencies_rename (ho : o ∈ g.operations) :
    (g.rename f).dependencies (o.rename f) = g.dependencies o := by
  rw [dependencies, dependencies]
  congr 1
  rw [Operation.rename_inputs, List.filterMap_map]
  apply List.filterMap_congr
  intro id hid
  simp only [Function.comp_apply]
  rw [producer?_rename hf hc (hc.defined o ho id (by simp [hid])), Option.map_map]
  rfl

theorem waits_rename : (g.rename f).operations.map
      (fun o => (o.id, (g.rename f).dependencies o)) =
    g.operations.map fun o => (o.id, g.dependencies o) := by
  rw [rename, List.map_map]
  apply List.map_congr_left
  intro o ho
  exact congrArg (Prod.mk o.id) (dependencies_rename hf hc ho)

theorem users_rename : (g.rename f).users = g.users := by
  rw [users, users, waits_rename hf hc, rename, List.map_map]
  rfl

theorem start_rename : (g.rename f).start = g.start := by
  have hcounts := congrArg (List.map fun e => (e.1, e.2.length)) (waits_rename hf hc)
  rw [List.map_map, List.map_map] at hcounts
  exact congrArg (fun counts : List (Int × Nat) => Traversal.mk counts
    (((counts.filter (·.2 = 0)).map (·.1)).foldr Traversal.enqueue [])) hcounts

theorem order_rename {ops : List Operation} (h : g.order = .ok ops) :
    (g.rename f).order = .ok (ops.map (·.rename f)) := by
  have hlen : (g.rename f).operations.length = g.operations.length := List.length_map _
  have hrun : Traversal.run (g.rename f).operations g.users g.operations.length g.start = _ :=
    Traversal.run_rename ..
  rw [order, users_rename hf hc, start_rename hf hc, hlen, hrun]
  rw [order] at h
  generalize Traversal.run g.operations g.users g.operations.length g.start = out at h ⊢
  dsimp only at h ⊢
  rw [List.length_map]
  split at h
  · next hdone => rw [if_pos hdone, Except.ok.inj h]
  · exact absurd h (by simp)

theorem consistent_rename : (g.rename f).Consistent where
  tensorIds := by
    rw [names_rename]
    exact hc.tensorIds.map_on fun a ha b hb => hf ha hb
  nodeIds := by
    rw [nodeIds_rename]
    exact hc.nodeIds
  producers := by
    rw [outputs_rename]
    exact hc.producers.map_on fun a ha b hb => hf (hc.output_names a ha) (hc.output_names b hb)
  defined := by
    rintro _ ho' _ hid'
    obtain ⟨o, ho, rfl⟩ := List.mem_map.1 ho'
    rw [names_rename]
    have hall : (o.rename f).inputs ++ [(o.rename f).output] = (o.inputs ++ [o.output]).map f := by
      simp [Operation.rename]
    rw [hall] at hid'
    obtain ⟨id, hid, rfl⟩ := List.mem_map.1 hid'
    exact List.mem_map_of_mem (hc.defined o ho id hid)
  scales := by
    rintro _ ho' _ ht' he
    obtain ⟨o, ho, rfl⟩ := List.mem_map.1 ho'
    obtain ⟨t, ht, rfl⟩ := List.mem_map.1 ht'
    exact hc.scales o ho t ht
      (hf (List.mem_map_of_mem ht) (hc.defined o ho o.output (by simp)) he)
  declared := by
    intro id' hid'
    rw [names_rename]
    have hall : (g.rename f).inputs ++ (g.rename f).outputs = (g.inputs ++ g.outputs).map f :=
      List.map_append.symm
    rw [hall] at hid'
    obtain ⟨id, hid, rfl⟩ := List.mem_map.1 hid'
    exact List.mem_map_of_mem (hc.declared id hid)
  unproduced := by
    intro id' hid'
    obtain ⟨id, hid, rfl⟩ := List.mem_map.1 hid'
    rw [outputs_rename, mem_map_rename hf hc.output_names (hc.declared id (by simp [hid]))]
    exact hc.unproduced id hid
  origin := by
    intro id' hid'
    obtain ⟨id, hid, rfl⟩ := mem_required_rename.1 (mem_required.2 hid')
    have hn := hc.required_subset hid
    rw [outputs_rename, mem_map_rename hf hc.output_names hn]
    rcases hc.origin id (mem_required.1 hid) with hp | hi | ⟨t, ht, rfl, hv⟩
    · exact .inl hp
    · exact .inr (.inl (List.mem_map_of_mem hi))
    · exact .inr (.inr ⟨t.rename f, List.mem_map_of_mem ht, rfl, hv⟩)
  acyclic := by
    obtain ⟨ops, ho⟩ := order_of_acyclic hc.nodeIds hc.acyclic
    apply acyclic_of_order _ (order_rename hf hc ho)
    rw [nodeIds_rename]
    exact hc.nodeIds

end

end Graph

end TensorAsm.Circuit

namespace TensorAsm.Witness

variable {m : Int} {f : String → String} {g : Circuit.Graph} {fs : List (String × Json)}

/-- A witness with the values of the tensors in use under their new names. -/
def Renames (f : String → String) (g : Circuit.Graph) (given given' : Json) : Prop :=
  ∃ fs fs', fields? given = some fs ∧ fields? given' = some fs' ∧
    ∀ id ∈ g.required, Ordered.get? (f id) fs' = Ordered.get? id fs

def Reads [Platform] (m : Int) (g : Circuit.Graph) (fs : List (String × Json)) (id : String)
    (e : Entry) : Prop :=
  ∃ t j, g.tensor? id = some t ∧ Ordered.get? id fs = some j ∧ readEntry m t j = .ok e

theorem Reads.unique [Platform] {id : String} {e e' : Entry} (h : Reads m g fs id e)
    (h' : Reads m g fs id e') : e = e' := by
  obtain ⟨t, j, ht, hj, he⟩ := h
  obtain ⟨t', j', ht', hj', he'⟩ := h'
  obtain rfl := Option.some.inj (ht.symm.trans ht')
  obtain rfl := Option.some.inj (hj.symm.trans hj')
  exact Except.ok.inj (he.symm.trans he')

theorem readEntries_cons [Platform] {id : String} {ids : List String} {w : Witness} :
    readEntries m g fs (id :: ids) = .ok w ↔
      ∃ e rest, Reads m g fs id e ∧ readEntries m g fs ids = .ok rest ∧ w = (id, e) :: rest := by
  rw [readEntries]
  constructor
  · intro h
    split at h
    · exact absurd h (by simp)
    next t ht =>
    split at h
    · exact absurd h (by simp)
    next j hj =>
    split at h
    · exact absurd h (by simp)
    next e he =>
    obtain ⟨rest, hr, hw⟩ := Sequences.map_ok h
    exact ⟨e, rest, ⟨t, j, ht, hj, he⟩, hr, hw.symm⟩
  · rintro ⟨e, rest, ⟨t, j, ht, hj, he⟩, hr, rfl⟩
    simp only [ht, hj, he, hr]
    rfl

theorem readEntries_ok_iff [Platform] {ids : List String} :
    (∃ w, readEntries m g fs ids = .ok w) ↔ ∀ id ∈ ids, ∃ e, Reads m g fs id e := by
  induction ids with
  | nil => simp [readEntries]
  | cons id ids ih =>
    simp only [readEntries_cons, List.forall_mem_cons, ← ih]
    constructor
    · rintro ⟨_, e, rest, he, hr, -⟩
      exact ⟨⟨e, he⟩, rest, hr⟩
    · rintro ⟨⟨e, he⟩, rest, hr⟩
      exact ⟨_, e, rest, he, hr, rfl⟩

theorem readEntries_get [Platform] {ids : List String} {w : Witness}
    (h : readEntries m g fs ids = .ok w) {id : String} (hid : id ∈ ids) :
    ∃ e, Ordered.get? id w = some e ∧ Reads m g fs id e := by
  induction ids generalizing w with
  | nil => simp at hid
  | cons first ids ih =>
    obtain ⟨e, rest, he, hr, rfl⟩ := readEntries_cons.1 h
    rw [Ordered.get?, List.lookup_cons]
    by_cases heq : id = first
    · subst heq
      exact ⟨e, by simp, he⟩
    · rw [beq_false_of_ne heq]
      exact ih hr (by simpa [heq] using hid)

theorem readEntries_absent [Platform] {ids : List String} {w : Witness}
    (h : readEntries m g fs ids = .ok w) {id : String} (hid : id ∉ ids) :
    Ordered.get? id w = none := by
  induction ids generalizing w with
  | nil =>
    cases h
    rfl
  | cons first ids ih =>
    obtain ⟨e, rest, -, hr, rfl⟩ := readEntries_cons.1 h
    obtain ⟨hne, hrest⟩ := not_or.1 (mt List.mem_cons.2 hid)
    rw [Ordered.get?, List.lookup_cons, beq_false_of_ne hne]
    exact ih hr hrest

theorem readValue_rename {a b : String} {leaf : Json} {v : Int} (h : readValue m a leaf = .ok v) :
    readValue m b leaf = .ok v := by
  unfold readValue at h ⊢
  cases hp : Field.parse m leaf with
  | error fault => cases fault <;> simp [hp] at h
  | ok n =>
    simp only [hp] at h ⊢
    by_cases hn : Field.Fits m n
    · simpa [hn] using h
    · simp [hn] at h

theorem readEntry_rename [Platform] {t : Circuit.Tensor} {j : Json} {e : Entry}
    (h : readEntry m t j = .ok e) : readEntry m (t.rename f) j = .ok e := by
  unfold readEntry at h ⊢
  rw [Circuit.Tensor.rename_size, Circuit.Tensor.rename_shape]
  cases hs : t.size? with
  | error fault => simp [hs] at h
  | ok size =>
    simp only [hs] at h ⊢
    split at h
    · exact absurd h (by simp)
    next hcount =>
    rw [if_neg hcount]
    cases hv : readValues m t.id j.leaves with
    | error fault => simp [hv] at h
    | ok values =>
      have hv' : readValues m (t.rename f).id j.leaves = .ok values :=
        Sequences.mapM_of_forall₂ ((Sequences.mapM_ok hv).imp fun _ _ => readValue_rename)
      simpa only [hv, hv'] using h

theorem Reads.rename [Platform] (hf : Set.InjOn f g.names) {fs' : List (String × Json)}
    {id : String} {e : Entry} (hid : id ∈ g.names)
    (hfs : Ordered.get? (f id) fs' = Ordered.get? id fs) (h : Reads m g fs id e) :
    Reads m (g.rename f) fs' (f id) e := by
  obtain ⟨t, j, ht, hj, he⟩ := h
  exact ⟨t.rename f, j, by rw [Circuit.Graph.tensor?_rename hf hid, ht]; rfl, hfs.trans hj,
    readEntry_rename he⟩

/-- The witness of a renamed circuit has under a new name what was there under the old one. -/
theorem read_renames [Platform] (hf : Set.InjOn f g.names) (hc : g.Consistent) {given given' : Json}
    (hr : Renames f g given given') {w : Witness} (h : read m g given = .ok w) :
    ∃ w', read m (g.rename f) given' = .ok w' ∧
      ∀ id ∈ g.names, Ordered.get? (f id) w' = Ordered.get? id w := by
  obtain ⟨fs, fs', hfs, hfs', hget⟩ := hr
  rw [read, hfs] at h
  simp only [read, hfs']
  have hreads {id : String} {e : Entry} (hid : id ∈ g.required) (he : Reads m g fs id e) :
      Reads m (g.rename f) fs' (f id) e :=
    he.rename hf (hc.required_subset hid) (hget id hid)
  have hall : ∀ id' ∈ (g.rename f).required, ∃ e, Reads m (g.rename f) fs' id' e := by
    intro id' hid'
    obtain ⟨id, hid, rfl⟩ := Circuit.Graph.mem_required_rename.1 hid'
    obtain ⟨e, he⟩ := readEntries_ok_iff.1 ⟨w, h⟩ id hid
    exact ⟨e, hreads hid he⟩
  obtain ⟨w', hw'⟩ := readEntries_ok_iff.2 hall
  refine ⟨w', hw', ?_⟩
  intro id hn
  by_cases hid : id ∈ g.required
  · obtain ⟨e, he, hre⟩ := readEntries_get h hid
    obtain ⟨e', he', hre'⟩ :=
      readEntries_get hw' (Circuit.Graph.mem_required_rename.2 ⟨id, hid, rfl⟩)
    rw [he, he', hre'.unique (hreads hid hre)]
  · -- the new name is that of no other tensor in use
    have hid' : f id ∉ (g.rename f).required := by
      intro hmem
      obtain ⟨other, hother, he⟩ := Circuit.Graph.mem_required_rename.1 hmem
      exact hid (hf (hc.required_subset hother) hn he ▸ hother)
    rw [readEntries_absent h hid, readEntries_absent hw' hid']

end TensorAsm.Witness
