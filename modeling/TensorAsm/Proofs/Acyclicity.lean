import Mathlib.Data.Fintype.Card
import Mathlib.Data.Set.Finite.Basic
import Mathlib.Logic.Relation
import TensorAsm.Proofs.Order
/-!
An order of lowering exists exactly when no operation feeds itself.
-/

namespace TensorAsm.Circuit

namespace Graph

/-- An operation reads what another one produces. -/
def Feeds (g : Graph) (p o : Operation) : Prop :=
  o ∈ g.operations ∧ ∃ id ∈ o.inputs, g.producer? id = some p

def Acyclic (g : Graph) : Prop := ∀ o, ¬Relation.TransGen g.Feeds o o

theorem Feeds.producer_mem {g : Graph} {p o : Operation} (h : g.Feeds p o) : p ∈ g.operations := by
  obtain ⟨-, id, -, hp⟩ := h
  exact (producer_output hp).1

theorem mem_dependencies {g : Graph} {o : Operation} (ho : o ∈ g.operations) {n : Int} :
    n ∈ g.dependencies o ↔ ∃ p, g.Feeds p o ∧ p.id = n := by
  rw [dependencies, List.mem_eraseDups, List.mem_filterMap]
  constructor
  · rintro ⟨id, hid, hn⟩
    obtain ⟨p, hp, rfl⟩ := Option.map_eq_some_iff.1 hn
    exact ⟨p, ⟨ho, id, hid, hp⟩, rfl⟩
  · rintro ⟨p, ⟨-, id, hid, hp⟩, rfl⟩
    exact ⟨id, hid, by rw [hp]; rfl⟩

variable {g : Graph} {ops : List Operation} {all : List Int}

theorem Takes.behind_feeding (hids : (g.operations.map (·.id)).Nodup) (h : g.Takes [] ops all)
    {pre post : List Operation} {p o : Operation} (hs : ops = pre ++ o :: post)
    (hf : g.Feeds p o) : p ∈ pre := by
  have hdep : p.id ∈ g.dependencies o := (mem_dependencies hf.1).2 ⟨p, hf, rfl⟩
  obtain ⟨r, hr, hid⟩ := List.mem_map.1 ((h.behind hs hdep).resolve_left (by simp))
  have hrm : r ∈ g.operations := (h.perm_operations hids).mem_iff.1 (by simp [hs, hr])
  rwa [← List.inj_on_of_nodup_map hids hrm hf.producer_mem hid]

theorem Takes.feeds (hids : (g.operations.map (·.id)).Nodup) (h : g.Takes [] ops all)
    {p o : Operation} (ho : o ∈ ops) (hf : g.Feeds p o) :
    p ∈ ops ∧ (ops.map (·.id)).idxOf p.id < (ops.map (·.id)).idxOf o.id := by
  obtain ⟨pre, post, hs⟩ := List.append_of_mem ho
  have hp := h.behind_feeding hids hs hf
  refine ⟨by simp [hs, hp], ?_⟩
  have hnodup := ((h.perm_operations hids).map Operation.id).nodup_iff.2 hids
  rw [hs, List.map_append, List.map_append, List.map_cons] at hnodup
  have hpre : p.id ∈ pre.map (·.id) := List.mem_map_of_mem hp
  have hnot : o.id ∉ pre.map (·.id) := fun hm =>
    List.disjoint_of_nodup_append hnodup.of_append_left hm (by simp)
  rw [hs, List.map_append, List.map_cons, List.idxOf_append_of_mem hpre,
    List.idxOf_append_of_notMem hnot]
  exact Nat.lt_add_right _ (List.idxOf_lt_length_iff.2 hpre)

/-- What is taken has nothing before it but what is taken earlier, so it is not before itself. -/
theorem Takes.transGen (hids : (g.operations.map (·.id)).Nodup) (h : g.Takes [] ops all)
    {p o : Operation} (ho : o ∈ ops) (hf : Relation.TransGen g.Feeds p o) :
    p ∈ ops ∧ (ops.map (·.id)).idxOf p.id < (ops.map (·.id)).idxOf o.id := by
  induction hf with
  | single hf => exact h.feeds hids ho hf
  | tail _ hf ih =>
    obtain ⟨hq, hlt⟩ := h.feeds hids ho hf
    exact ⟨(ih hq).1, (ih hq).2.trans hlt⟩

theorem acyclic_of_order (hids : (g.operations.map (·.id)).Nodup) (h : g.order = .ok ops) :
    g.Acyclic := by
  intro o ho
  obtain ⟨all, htakes, -⟩ := takes_of_order hids h
  obtain ⟨p, -, hf⟩ := Relation.TransGen.tail'_iff.1 ho
  exact (htakes.transGen hids ((order_perm hids h).mem_iff.2 hf.1) ho).2.false

theorem exists_source {left : List Operation} (hne : left ≠ [])
    (h : ∀ o ∈ left, ¬Relation.TransGen g.Feeds o o) : ∃ o ∈ left, ∀ p ∈ left, ¬g.Feeds p o := by
  let below : {o // o ∈ left} → {o // o ∈ left} → Prop :=
    fun p o => Relation.TransGen g.Feeds p.1 o.1
  have htrans : IsTrans {o // o ∈ left} below := ⟨fun _ _ _ => Relation.TransGen.trans⟩
  have hirrefl : Std.Irrefl below := ⟨fun o => h o.1 o.2⟩
  have hfin : Finite {o // o ∈ left} := (List.finite_toSet left).to_subtype
  obtain ⟨o, -, ho⟩ := (Finite.wellFounded_of_trans_of_irrefl below).has_min Set.univ
    ⟨⟨left.head hne, List.head_mem hne⟩, trivial⟩
  exact ⟨o.1, o.2, fun p hp hf => ho ⟨p, hp⟩ trivial (.single hf)⟩

theorem Takes.left_fed (h : g.Takes [] ops all) {o : Operation} (ho : o ∈ g.left all) :
    ∃ p ∈ g.left all, g.Feeds p o := by
  by_contra hnone
  refine h.stuck o ⟨ho, fun d hd => ?_⟩
  obtain ⟨p, hf, rfl⟩ := (mem_dependencies (mem_left.1 ho).1).1 hd
  by_contra hid
  exact hnone ⟨p, mem_left.2 ⟨hf.producer_mem, hid⟩, hf⟩

theorem order_of_acyclic (hids : (g.operations.map (·.id)).Nodup) (h : g.Acyclic) :
    ∃ ops, g.order = .ok ops := by
  obtain ⟨ops, all, htakes, ho⟩ := order_takes hids
  rw [ho]
  split
  · exact ⟨ops, rfl⟩
  next hne =>
  obtain ⟨o, ho, hsource⟩ := exists_source hne fun o _ => h o
  obtain ⟨p, hp, hf⟩ := htakes.left_fed ho
  exact absurd hf (hsource p hp)

theorem order_ok_iff (hids : (g.operations.map (·.id)).Nodup) :
    (∃ ops, g.order = .ok ops) ↔ g.Acyclic :=
  ⟨fun ⟨_, h⟩ => acyclic_of_order hids h, order_of_acyclic hids⟩

end Graph

end TensorAsm.Circuit
