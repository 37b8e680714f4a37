import Mathlib
import TensorAsm.Proofs.Descriptions
/-!
Rearranged descriptions. Tensors, operations and declared inputs may be given in any order, and so
may the fields of a witness. They are read alike, and the operations are lowered in the same order.
-/

namespace TensorAsm

namespace Ordered

variable {α β : Type} [BEq α] [LawfulBEq α] {fs fs' : List (α × β)}

theorem get?_eq_some (hn : (fs.map (·.1)).Nodup) {key : α} {b : β} :
    get? key fs = some b ↔ (key, b) ∈ fs := by
  rw [get?, List.lookup_eq_some_iff]
  constructor
  · rintro ⟨pre, post, rfl, -⟩
    simp
  · intro hmem
    obtain ⟨pre, post, rfl⟩ := List.append_of_mem hmem
    refine ⟨pre, post, rfl, ?_⟩
    intro p hp
    rw [List.map_append, List.map_cons] at hn
    have hne : key ≠ p.1 := by
      rintro rfl
      exact List.disjoint_of_nodup_append hn (List.mem_map_of_mem hp) (by simp)
    exact bne_iff_ne.2 hne

theorem get?_perm (hn : (fs.map (·.1)).Nodup) (h : fs.Perm fs') (key : α) :
    get? key fs = get? key fs' := by
  ext b
  rw [get?_eq_some hn, get?_eq_some ((h.map _).nodup_iff.1 hn), h.mem_iff]

end Ordered

namespace Text

theorem le_iff {a b : String} : le a b = true ↔ rank a ≤ rank b := by
  rw [le, Bool.not_eq_true', ← Bool.not_eq_true, List.lex_eq_true_iff_lt, not_lt]

theorem rank_injective : Function.Injective rank := by
  intro a b h
  have hzero (s : String) : 0 ∉ (codes s.toList).map (· + 1) := by simp
  -- the first zero ends the code points
  obtain ⟨us, hus, hrest⟩ := Sequences.split_right h (hzero a)
  cases us with
  | nil =>
    have hchars := (List.cons.inj hrest).2
    exact String.toList_inj.1 (List.map_injective_iff.2 (fun c d => Char.toNat_inj.1) hchars)
  | cons n us =>
    obtain ⟨rfl, -⟩ := List.cons.inj hrest
    exact absurd (by rw [hus]; simp) (hzero b)

theorem eq_of_le {a b : String} (h : le a b = true) (h' : le b a = true) : a = b :=
  rank_injective ((le_iff.1 h).antisymm (le_iff.1 h'))

end Text

namespace Circuit

theorem sortedNames_congr {names names' : List String} (h : ∀ id, id ∈ names ↔ id ∈ names') :
    sortedNames names = sortedNames names' := by
  have hsorted (l : List String) : (l.mergeSort Text.le).Pairwise (Text.le · · = true) := by
    apply List.pairwise_mergeSort
    · intro a b c hab hbc
      exact Text.le_iff.2 ((Text.le_iff.1 hab).trans (Text.le_iff.1 hbc))
    · intro a b
      rw [Bool.or_eq_true, Text.le_iff, Text.le_iff]
      exact le_total _ _
  have hperm : names.eraseDups.Perm names'.eraseDups := by
    apply (List.perm_ext_iff_of_nodup (Sequences.eraseDups_nodup names)
      (Sequences.eraseDups_nodup names')).2
    intro id
    rw [List.mem_eraseDups, List.mem_eraseDups, h]
  apply List.Perm.eq_of_pairwise (fun a b _ _ => Text.eq_of_le) (hsorted _) (hsorted _)
  exact ((List.mergeSort_perm _ _).trans hperm).trans (List.mergeSort_perm _ _).symm

namespace Graph

/-- The same tensors, operations and inputs in any order. The order of outputs is that of the lines
about them and is kept. -/
structure Rearranged (g g' : Graph) : Prop where
  tensors : g.tensors.Perm g'.tensors
  operations : g.operations.Perm g'.operations
  inputs : ∀ id, id ∈ g.inputs ↔ id ∈ g'.inputs
  outputs : g.outputs = g'.outputs

variable {g g' : Graph}

theorem find?_tensor_perm {ts ts' : List Tensor} (hn : (ts.map (·.id)).Nodup) (h : ts.Perm ts')
    (id : String) : ts.find? (·.id == id) = ts'.find? (·.id == id) := by
  apply List.find?_eq_find?_of_perm h
  rintro t ⟨ht, hid⟩ u ⟨hu, hid'⟩
  exact List.inj_on_of_nodup_map hn ht hu ((beq_iff_eq.1 hid).trans (beq_iff_eq.1 hid').symm)

namespace Rearranged

theorem tensor_eq (h : g.Rearranged g') (hc : g.Consistent) : g.tensor? = g'.tensor? := by
  funext id
  exact find?_tensor_perm hc.tensorIds h.tensors id

theorem producer_eq (h : g.Rearranged g') (hc : g.Consistent) : g.producer? = g'.producer? := by
  funext id
  have hr := (List.reverse_perm g.operations).trans
    (h.operations.trans (List.reverse_perm g'.operations).symm)
  apply List.find?_eq_find?_of_perm hr
  rintro o ⟨ho, hid⟩ p ⟨hp, hid'⟩
  exact List.inj_on_of_nodup_map hc.producers (List.mem_reverse.1 ho) (List.mem_reverse.1 hp)
    ((beq_iff_eq.1 hid).trans (beq_iff_eq.1 hid').symm)

theorem required_eq (h : g.Rearranged g') : g.required = g'.required := by
  apply sortedNames_congr
  intro id
  simp only [List.mem_append, List.mem_flatMap, h.outputs, h.operations.mem_iff]

theorem dependencies_eq (h : g.Rearranged g') (hc : g.Consistent) :
    g.dependencies = g'.dependencies := by
  funext o
  rw [dependencies, dependencies, h.producer_eq hc]

theorem ready_iff (h : g.Rearranged g') (hc : g.Consistent) {gone : List Int} {o : Operation} :
    g.Ready gone o ↔ g'.Ready gone o := by
  rw [ready_def, ready_def, mem_left, mem_left, h.operations.mem_iff, h.dependencies_eq hc]

theorem takes (h : g.Rearranged g') (hc : g.Consistent) {gone all : List Int}
    {ops : List Operation} (ht : g.Takes gone ops all) : g'.Takes gone ops all := by
  induction ht with
  | stop hnone => exact .stop fun o hr => hnone o ((h.ready_iff hc).2 hr)
  | next hr hle _ ih =>
    exact .next ((h.ready_iff hc).1 hr) (fun p hp => hle p ((h.ready_iff hc).2 hp)) ih

theorem order_eq (h : g.Rearranged g') (hc : g.Consistent) {ops : List Operation}
    (ho : g.order = .ok ops) : g'.order = .ok ops := by
  obtain ⟨all, htakes, hl⟩ := takes_of_order hc.nodeIds ho
  have hids := (h.operations.map Operation.id).nodup_iff.1 hc.nodeIds
  have hleft : (g.left all).Perm (g'.left all) := h.operations.filter _
  exact order_of_takes hids (h.takes hc htakes) (List.nil_perm.1 (hl ▸ hleft))

theorem feeds_eq (h : g.Rearranged g') (hc : g.Consistent) : g.Feeds = g'.Feeds := by
  funext p o
  rw [Feeds, Feeds, h.producer_eq hc, h.operations.mem_iff]

theorem consistent (h : g.Rearranged g') (hc : g.Consistent) : g'.Consistent where
  tensorIds := (h.tensors.map _).nodup_iff.1 hc.tensorIds
  nodeIds := (h.operations.map _).nodup_iff.1 hc.nodeIds
  producers := (h.operations.map _).nodup_iff.1 hc.producers
  defined o ho id hid := by
    rw [← (h.tensors.map _).mem_iff]
    exact hc.defined o (h.operations.mem_iff.2 ho) id hid
  scales o ho t ht := hc.scales o (h.operations.mem_iff.2 ho) t (h.tensors.mem_iff.2 ht)
  declared id hid := by
    rw [List.mem_append, ← h.inputs, ← h.outputs, ← List.mem_append] at hid
    exact (h.tensors.map _).mem_iff.1 (hc.declared id hid)
  unproduced id hid := by
    rw [← (h.operations.map (·.output)).mem_iff]
    exact hc.unproduced id ((h.inputs id).2 hid)
  origin id hid := by
    simp only [← h.outputs, ← h.operations.mem_iff] at hid
    simpa only [(h.operations.map _).mem_iff, h.inputs, h.tensors.mem_iff] using hc.origin id hid
  acyclic := by
    rw [Acyclic, ← h.feeds_eq hc]
    exact hc.acyclic

end Rearranged

end Graph

/-- Descriptions with the same tensors, operations and inputs in any order. Inputs may be declared
more than once. -/
structure Rearranged (doc doc' : Json) : Prop where
  tensors : ∃ entries entries', doc.get? "tensors" = some (.arr entries) ∧
    doc'.get? "tensors" = some (.arr entries') ∧ entries.Perm entries'
  operations : ∃ entries entries', doc.get? "operations" = some (.arr entries) ∧
    doc'.get? "operations" = some (.arr entries') ∧ entries.Perm entries'
  inputs : ∃ items items', (doc.get? "inputs").getD (.arr []) = .arr items ∧
    (doc'.get? "inputs").getD (.arr []) = .arr items' ∧ ∀ j, j ∈ items ↔ j ∈ items'
  outputs : doc.get? "outputs" = doc'.get? "outputs"

theorem readOperation_perm {ts ts' : List Tensor} (hn : (ts.map (·.id)).Nodup) (h : ts.Perm ts') :
    readOperation ts = readOperation ts' := by
  have hs : readScale ts = readScale ts' := by
    funext node output given
    unfold readScale
    rw [Graph.find?_tensor_perm hn h]
  funext entry
  rw [readOperation, readOperation, hs]

theorem texts_congr {items items' : List Json} {ids : List String}
    (h : ∀ j, j ∈ items ↔ j ∈ items') (hr : items.mapM Json.text? = .ok ids) :
    ∃ ids', items'.mapM Json.text? = .ok ids' ∧ ∀ id, id ∈ ids ↔ id ∈ ids' := by
  have hall : ∀ j ∈ items', ∃ id, j.text? = .ok id := by
    intro j hj
    obtain ⟨id, -, hid⟩ := Sequences.mapM_of_mem hr ((h j).2 hj)
    exact ⟨id, hid⟩
  obtain ⟨ids', hr'⟩ := Sequences.mapM_ok_of_forall hall
  refine ⟨ids', hr', ?_⟩
  have hsub {js js' : List Json} {is is' : List String} (hsub : ∀ j, j ∈ js → j ∈ js')
      (hj : js.mapM Json.text? = .ok is) (hj' : js'.mapM Json.text? = .ok is') :
      ∀ id, id ∈ is → id ∈ is' := by
    intro id hid
    obtain ⟨j, hmem, hjid⟩ := Sequences.mapM_mem hj hid
    obtain ⟨id', hid', hjid'⟩ := Sequences.mapM_of_mem hj' (hsub j hmem)
    rwa [Except.ok.inj (hjid.symm.trans hjid')]
  intro id
  exact ⟨hsub (fun j => (h j).1) hr hr' id, hsub (fun j => (h j).2) hr' hr id⟩

theorem read_rearranged {doc doc' : Json} {g : Graph} (h : Rearranged doc doc')
    (hg : read doc = .ok g) : ∃ g', read doc' = .ok g' ∧ g.Rearranged g' := by
  obtain ⟨⟨⟨es, hes, hts⟩, ⟨os, hos, hops⟩, hin, hout⟩, hc⟩ := read_ok_iff_parts.1 hg
  obtain ⟨_, es', he, hes', hperm⟩ := h.tensors
  obtain rfl : es = _ := by simpa [hes] using he
  obtain ⟨_, os', ho, hos', hperm'⟩ := h.operations
  obtain rfl : os = _ := by simpa [hos] using ho
  obtain ⟨items, items', hi, hi', hmem⟩ := h.inputs
  obtain ⟨ts, hts', htp⟩ := List.perm_comp_forall₂ hperm.symm hts
  obtain ⟨ops, hops', hop⟩ := List.perm_comp_forall₂ hperm'.symm hops
  rw [readIds, hi] at hin
  obtain ⟨ins, hin', hins⟩ := texts_congr hmem hin
  have hr : g.Rearranged ⟨ts, ops, ins, g.outputs⟩ := ⟨htp.symm, hop.symm, hins, rfl⟩
  refine ⟨_, read_ok_iff_parts.2 ⟨⟨⟨es', hes', hts'⟩, ⟨os', hos', ?_⟩, ?_, ?_⟩,
    hr.consistent hc⟩, hr⟩
  · rw [← readOperation_perm hc.tensorIds hr.tensors]
    exact hops'
  · rw [readIds, hi']
    exact hin'
  · rw [readIds, ← h.outputs, ← readIds]
    exact hout

end Circuit

namespace Witness

/-- Witnesses with the same fields in any order, at the top or under the key for values. -/
inductive Rearranged : Json → Json → Prop
  | fields {fs fs' : List (String × Json)} (hn : (fs.map (·.1)).Nodup) (h : fs.Perm fs') :
      Rearranged (.obj fs) (.obj fs')
  | values {fs fs' vs vs' : List (String × Json)} (hv : Ordered.get? "values" fs = some (.obj vs))
      (hv' : Ordered.get? "values" fs' = some (.obj vs')) (hn : (vs.map (·.1)).Nodup)
      (h : vs.Perm vs') : Rearranged (.obj fs) (.obj fs')

theorem Rearranged.fields_eq {given given' : Json} (h : Rearranged given given') :
    ∃ fs fs', fields? given = some fs ∧ fields? given' = some fs' ∧
      ∀ key, Ordered.get? key fs = Ordered.get? key fs' := by
  cases h with
  | @fields fs fs' hn h =>
    have hget := Ordered.get?_perm hn h
    rw [fields?, fields?, ← hget "values"]
    split
    · next inner _ => exact ⟨inner, inner, rfl, rfl, fun _ => rfl⟩
    · exact ⟨fs, fs', rfl, rfl, hget⟩
  | @values fs fs' vs vs' hv hv' hn h =>
    refine ⟨vs, vs', ?_, ?_, Ordered.get?_perm hn h⟩
    · rw [fields?, hv]
    · rw [fields?, hv']

variable {m : Int} {g g' : Circuit.Graph}

theorem readEntries_congr [Platform] {fs fs' : List (String × Json)} (ht : g.tensor? = g'.tensor?)
    (hf : ∀ key, Ordered.get? key fs = Ordered.get? key fs') (ids : List String) :
    readEntries m g fs ids = readEntries m g' fs' ids := by
  induction ids with
  | nil => rfl
  | cons id ids ih => rw [readEntries, readEntries, ht, hf, ih]

theorem read_rearranged [Platform] {given given' : Json} (hg : g.Rearranged g') (hc : g.Consistent)
    (h : Rearranged given given') : read m g given = read m g' given' := by
  obtain ⟨fs, fs', hfs, hfs', hget⟩ := h.fields_eq
  rw [read, read, hfs, hfs', hg.required_eq]
  exact readEntries_congr (hg.tensor_eq hc) hget g'.required

end Witness

end TensorAsm
