import Mathlib
import TensorAsm.Proofs.Acyclicity
/-!
What a report of a cycle names: the operations on cycles and those that cycles feed. Both wait in
vain, and the report does not tell them apart.
-/

namespace TensorAsm.Circuit

namespace Graph

variable {g : Graph} {o : Operation} {ops : List Operation} {all : List Int}

/-- An operation feeds itself, at once or through others. -/
def OnCycle (g : Graph) (o : Operation) : Prop := Relation.TransGen g.Feeds o o

/-- An operation is on a cycle, or a cycle feeds it. -/
def Stalled (g : Graph) (o : Operation) : Prop :=
  ∃ c, g.OnCycle c ∧ Relation.ReflTransGen g.Feeds c o

theorem OnCycle.stalled (h : g.OnCycle o) : g.Stalled o := ⟨o, h, .refl⟩

theorem OnCycle.mem (h : g.OnCycle o) : o ∈ g.operations := by
  obtain ⟨p, -, hf⟩ := Relation.TransGen.tail'_iff.1 h
  exact hf.1

theorem Stalled.mem (h : g.Stalled o) : o ∈ g.operations := by
  obtain ⟨c, hc, hr⟩ := h
  rcases Relation.ReflTransGen.cases_tail hr with rfl | ⟨p, -, hf⟩
  · exact hc.mem
  · exact hf.1

theorem Stalled.onCycle (hclosed : ∀ c o, g.OnCycle c → g.Feeds c o → g.OnCycle o)
    (h : g.Stalled o) : g.OnCycle o := by
  obtain ⟨c, hc, hr⟩ := h
  induction hr with
  | refl => exact hc
  | tail _ hf ih => exact hclosed _ _ ih hf

theorem Stalled.notMem_taken (hids : (g.operations.map (·.id)).Nodup)
    (htakes : g.Takes [] ops all) (h : g.Stalled o) : o ∉ ops := by
  obtain ⟨c, hc, hr⟩ := h
  intro ho
  have hct : c ∈ ops := by
    rcases Relation.reflTransGen_iff_eq_or_transGen.1 hr with rfl | ht
    · exact ho
    · exact (htakes.transGen hids ho ht).1
  exact (htakes.transGen hids hct hc).2.false

/-- Whoever is left over waits for one that is left over; going back so, one comes to a cycle. -/
theorem Takes.stalled (h : g.Takes [] ops all) (ho : o ∈ g.left all) : g.Stalled o := by
  classical
  let behind := (g.left all).filter fun p => Relation.ReflTransGen g.Feeds p o
  have hmem {p : Operation} :
      p ∈ behind ↔ p ∈ g.left all ∧ Relation.ReflTransGen g.Feeds p o := by
    simp [behind]
  by_contra hs
  have hfree : ∀ p ∈ behind, ¬Relation.TransGen g.Feeds p p :=
    fun p hp hc => hs ⟨p, hc, (hmem.1 hp).2⟩
  have hne : behind ≠ [] := List.ne_nil_of_mem (hmem.2 ⟨ho, .refl⟩)
  obtain ⟨p, hp, hsource⟩ := exists_source hne hfree
  obtain ⟨hpl, hpo⟩ := hmem.1 hp
  obtain ⟨q, hq, hf⟩ := h.left_fed hpl
  exact hsource q (hmem.2 ⟨hq, .head hf hpo⟩) hf

theorem Takes.mem_left_iff (hids : (g.operations.map (·.id)).Nodup) (h : g.Takes [] ops all) :
    o ∈ g.left all ↔ g.Stalled o := by
  refine ⟨h.stalled, fun hs => ?_⟩
  have hm := (h.perm_operations hids).mem_iff.2 hs.mem
  exact (List.mem_append.1 hm).resolve_left (hs.notMem_taken hids h)

theorem left_sorted (hids : (g.operations.map (·.id)).Nodup) (all : List Int) :
    (((g.left all).map (·.id)).mergeSort fun a b => decide (a ≤ b)).Pairwise (· < ·) := by
  have hnodup : ((g.left all).map (·.id)).Nodup := hids.sublist (List.filter_sublist.map _)
  have hle : (((g.left all).map (·.id)).mergeSort fun a b => decide (a ≤ b)).Pairwise
      fun a b => decide (a ≤ b) = true :=
    List.pairwise_mergeSort (fun a b c => by simpa using Int.le_trans)
      (fun a b => by simpa using Int.le_total a b) _
  exact (hle.and ((List.mergeSort_perm _ _).nodup_iff.2 hnodup)).imp fun h =>
    (of_decide_eq_true h.1).lt_of_ne h.2

/-- A report names those that are stalled, in the order of their ids, and is about the first. It
names the cycles alone just when they feed no others. -/
theorem order_error_stalled (hids : (g.operations.map (·.id)).Nodup) {d : CircuitDefect}
    (h : g.order = .error d) :
    ∃ nodes, d = .cycle nodes ∧ nodes.Pairwise (· < ·) ∧
      (∀ n, n ∈ nodes ↔ ∃ o, g.Stalled o ∧ o.id = n) ∧
      (∃ o, g.OnCycle o ∧ o.id ∈ nodes) ∧
      (∃ n ∈ nodes, d.entity = some (nodeText n) ∧ ∀ k ∈ nodes, n ≤ k) ∧
      ((∀ n, n ∈ nodes ↔ ∃ o, g.OnCycle o ∧ o.id = n) ↔
        ∀ c o, g.OnCycle c → g.Feeds c o → g.OnCycle o) := by
  obtain ⟨ops, all, htakes, horder⟩ := order_takes hids
  rw [horder] at h
  split at h
  · exact absurd h (by simp)
  next hne =>
  obtain rfl := (Except.error.inj h).symm
  have hsorted := left_sorted hids all
  have hmem (n : Int) : n ∈ ((g.left all).map (·.id)).mergeSort (fun a b => decide (a ≤ b)) ↔
      ∃ o, g.Stalled o ∧ o.id = n := by
    rw [List.mem_mergeSort, List.mem_map]
    exact exists_congr fun o => and_congr_left fun _ => htakes.mem_left_iff hids
  obtain ⟨o, ho⟩ := List.exists_mem_of_ne_nil _ hne
  obtain ⟨c, hc, -⟩ := htakes.stalled ho
  have hcm := (hmem c.id).2 ⟨c, hc.stalled, rfl⟩
  generalize ((g.left all).map (·.id)).mergeSort (fun a b => decide (a ≤ b)) = nodes
    at hsorted hmem hcm
  refine ⟨nodes, rfl, hsorted, hmem, ⟨c, hc, hcm⟩, ?_, ?_, ?_⟩
  · cases nodes with
    | nil => simp at hcm
    | cons n nodes =>
      refine ⟨n, by simp, rfl, ?_⟩
      intro k hk
      rcases List.mem_cons.1 hk with rfl | hk
      · exact le_rfl
      · exact (List.rel_of_pairwise_cons hsorted hk).le
  · intro hexact c o hc hf
    obtain ⟨p, hp, hid⟩ := (hexact o.id).1 ((hmem o.id).2 ⟨o, ⟨c, hc, .single hf⟩, rfl⟩)
    rwa [← List.inj_on_of_nodup_map hids hp.mem hf.1 hid]
  · intro hclosed n
    rw [hmem]
    exact exists_congr fun o => and_congr_left fun _ =>
      ⟨Stalled.onCycle hclosed, OnCycle.stalled⟩

end Graph

namespace TailedCycle

def graph : Graph :=
  ⟨[], [⟨5, "add", ["b", "x"], "a", 0, []⟩, ⟨6, "add", ["a", "x"], "b", 0, []⟩,
    ⟨1, "add", ["b", "x"], "c", 0, []⟩], ["x"], []⟩

theorem ids : (graph.operations.map (·.id)).Nodup := by
  decide

theorem order : graph.order = .error (.cycle [1, 5, 6]) := by
  cbv

theorem feeder {p o : Operation} (h : graph.Feeds p o) : p.id = 5 ∨ p.id = 6 := by
  have hall : ∀ o ∈ graph.operations, ∀ id ∈ o.inputs, ∀ p ∈ graph.producer? id,
      p.id = 5 ∨ p.id = 6 := by
    decide
  obtain ⟨ho, id, hid, hp⟩ := h
  exact hall o ho id hid p hp

end TailedCycle

theorem Graph.tailed_cycle_stalled :
    (TailedCycle.graph.operations.map (·.id)).Nodup ∧
    TailedCycle.graph.order = .error (.cycle [1, 5, 6]) ∧
    ∀ n, n ∈ [1, 5, 6] ↔ ∃ o, TailedCycle.graph.Stalled o ∧ o.id = n := by
  obtain ⟨nodes, hd, -, hmem, -⟩ := order_error_stalled TailedCycle.ids TailedCycle.order
  obtain rfl := (CircuitDefect.cycle.inj hd).symm
  exact ⟨TailedCycle.ids, TailedCycle.order, hmem⟩

/-- A report is about an operation that is on no cycle. -/
theorem Graph.tail_named_as_cycle :
    TailedCycle.graph.order = .error (.cycle [1, 5, 6]) ∧
    (CircuitDefect.cycle [1, 5, 6]).entity = some "node 1" ∧
    ¬∃ o, TailedCycle.graph.OnCycle o ∧ o.id = 1 := by
  refine ⟨TailedCycle.order, by cbv, ?_⟩
  rintro ⟨o, hc, hid⟩
  obtain ⟨p, hf, -⟩ := Relation.TransGen.head'_iff.1 hc
  have := TailedCycle.feeder hf
  omega

end TensorAsm.Circuit
