import Mathlib
import TensorAsm.Proofs.Contents
import TensorAsm.Proofs.RenamedPlans
import TensorAsm.Proofs.SingleAssignment
/-!
Names of tensors are labels. A program and its memory table do not depend on what the tensors of the
circuit are called, also where a name is one that the compiler uses for cells of its own.
-/

namespace TensorAsm

variable {f : String → String} {N : Set String}

/-- A witness that has under the new names what the other one has under the old ones. -/
def Witness.Renamed (f : String → String) (N : Set String) (w w' : Witness) : Prop :=
  ∀ id ∈ N, Ordered.get? (f id) w' = Ordered.get? id w

theorem Witness.Complete.renamed {m : Int} {g : Circuit.Graph} {w w' : Witness}
    (h : w.Complete m g) (hf : Set.InjOn f g.names) (hc : g.Consistent)
    (hw : w.Renamed f g.names w') : w'.Complete m (g.rename f) := by
  intro id' hid'
  obtain ⟨id, hid, rfl⟩ := Circuit.Graph.mem_required_rename.1 hid'
  obtain ⟨t, e, ht, he, hfill⟩ := h id hid
  have hn := hc.required_subset hid
  refine ⟨t.rename f, e, ?_, (hw id hn).trans he, ?_⟩
  · rw [Circuit.Graph.tensor?_rename hf hn, ht, Option.map_some]
  · exact ⟨hfill.shape, hfill.size, hfill.word, hfill.fits⟩

namespace Program.Values

open Lowering

variable [Platform] {m : Int} {w w' : Witness}

theorem step_bare {node : Int} {s s' : Step} (h : s'.bare = s.bare) (v : Values) :
    step m node v s' = step m node v s := by
  obtain ⟨hi, hd⟩ := Prod.mk.inj h
  rw [step, step, hi, hd]

theorem foldlM_bare {node : Int} {ss ss' : List Step} (h : bare ss' = bare ss) (v : Values) :
    ss'.foldlM (step m node) v = ss.foldlM (step m node) v := by
  induction ss generalizing ss' v with
  | nil => rw [List.map_eq_nil_iff.1 h]
  | cons s ss ih =>
    obtain ⟨s', ss', rfl, hs, hss⟩ := List.map_eq_cons_iff.1 h
    rw [List.foldlM_cons, List.foldlM_cons, step_bare hs]
    exact congrArg _ (funext fun v => ih hss v)

theorem advance_other {b : Allocation} (hk : b.kind ≠ .tensor) (v : Values) :
    advance m w v (.allocated b) = .ok v := by
  rw [advance]
  split
  · next hkind _ => exact absurd hkind hk
  · rfl

variable (hw : w.Renamed f N w')

include hw

theorem advance_renamed {ev ev' : Event} (h : ev.Renamed f N ev') (v : Values) :
    advance m w' v ev' = advance m w v ev := by
  cases h with
  | @allocated b hn =>
    by_cases hk : b.kind = .tensor
    · have hv : w'.values? (b.rename f).name = w.values? b.name := by
        rw [Witness.values?, Witness.values?, Allocation.rename_name_tensor hk, hw _ (hn hk)]
      rw [advance, advance, hv, Allocation.rename_kind, Allocation.rename_address]
    · rw [Allocation.rename, if_neg hk, advance_other hk, advance_other hk]
  | folded t => rfl
  | emitted node h => exact foldlM_bare h v
  | @dropped s s' h =>
    have hi : s'.instruction = s.instruction := congrArg Prod.fst h
    rw [advance, advance, hi]
  | lowered b b' => rfl

theorem follow_renamed {j j' : List Event} (h : List.Forall₂ (Event.Renamed f N) j j')
    (v : Values) :
    (follow m w' v j').1 = (follow m w v j).1 ∧ (follow m w' v j').2.2 = (follow m w v j).2.2 := by
  induction h generalizing v with
  | nil => exact ⟨rfl, rfl⟩
  | @cons ev ev' j j' hev _ ih =>
    rw [follow, follow, advance_renamed hw hev]
    cases advance m w v ev with
    | error fault => exact ⟨rfl, rfl⟩
    | ok next => exact ih next

end Program.Values

namespace Allocator

theorem owners_renamed {a a' : Allocator} (h : a.Renamed f N a') (x : Int) :
    (a.owners[x]? = none ∧ a'.owners[x]? = none) ∨
      ∃ b ∈ a.allocations, ∃ i, a.owners[x]? = some ⟨b, i⟩ ∧
        a'.owners[x]? = some ⟨b.rename f, i⟩ := by
  have key (bs : List Allocation) :
      ((bs.foldl claim ∅)[x]? = none ∧ ((bs.map (·.rename f)).foldl claim ∅)[x]? = none) ∨
        ∃ b ∈ bs, ∃ i, (bs.foldl claim ∅)[x]? = some ⟨b, i⟩ ∧
          ((bs.map (·.rename f)).foldl claim ∅)[x]? = some ⟨b.rename f, i⟩ := by
    induction bs using List.reverseRecOn with
    | nil => exact .inl ⟨rfl, rfl⟩
    | append_singleton bs c ih =>
      have hcells : (c.rename f).cells = c.cells := by
        rw [Allocation.cells, Allocation.cells, Allocation.rename_size, Allocation.rename_address]
      rw [List.map_append, List.foldl_append, List.foldl_append]
      simp only [List.map_cons, List.map_nil, List.foldl_cons, List.foldl_nil, get_claim, hcells,
        Allocation.rename_address]
      by_cases hx : x ∈ c.cells
      · exact .inr ⟨c, by simp, _, if_pos hx, if_pos hx⟩
      · rw [if_neg hx, if_neg hx]
        refine ih.imp id ?_
        rintro ⟨b, hb, hrest⟩
        exact ⟨b, by simp [hb], hrest⟩
  rw [owners, owners, h.blocks]
  exact key a.allocations

end Allocator

/-- Programs that are the same but for the names of tensors and the comments. -/
structure Program.Relabelled (f : String → String) (N : Set String) (p q : Program) : Prop where
  allocator : p.plan.allocator.Renamed f N q.plan.allocator
  blocks : q.plan.blocks.map (Lowering.bare ·.steps) = p.plan.blocks.map (Lowering.bare ·.steps)
  tables : q.plan.tables = p.plan.tables
  derived : q.derived = p.derived
  modulus : q.modulus = p.modulus
  witness : p.witness.Renamed f N q.witness

namespace MemoryTable

variable {p q : Program} (h : p.Relabelled f N q)

include h

theorem resolve_relabelled [Platform] {b : Allocation} (hb : b ∈ p.plan.allocator.allocations)
    (x : Int) (i : Nat) (v : Int) :
    resolve q x ⟨b.rename f, i⟩ = .ok v ↔ resolve p x ⟨b, i⟩ = .ok v := by
  by_cases hk : b.kind = .tensor
  · have hentry := h.witness b.name (h.allocator.known b hb hk)
    simp only [resolve, Allocation.rename_kind, hk, Allocation.rename_name_tensor hk, hentry]
    cases Ordered.get? b.name p.witness with
    | none => simp
    | some e =>
      cases he : e.get? i with
      | error fault => simp [he]
      | ok value => cases value <;> simp [he]
  · rw [Allocation.rename, if_neg hk, resolve, resolve, h.tables, h.derived]
    cases hkind : b.kind with
    | tensor => exact absurd hkind hk
    | table | scratch | control => rfl

theorem cell_relabelled [Platform] (x : Int) (c : Cell) :
    cell q q.plan.allocator.owners x = .ok c ↔ cell p p.plan.allocator.owners x = .ok c := by
  rcases Allocator.owners_renamed h.allocator x with ⟨hn, hn'⟩ | ⟨b, hb, i, ho, ho'⟩
  · simp only [cell, hn, hn', h.modulus]
  · have hr := resolve_relabelled h hb x i
    simp only [cell, ho, ho', h.modulus]
    cases hp : resolve p x ⟨b, i⟩ with
    | ok v => rw [(hr v).2 hp]
    | error fault =>
      cases hq : resolve q x ⟨b.rename f, i⟩ with
      | ok v => exact absurd ((hr v).1 hq) (by simp [hp])
      | error fault' => simp

theorem addresses_relabelled (r : Region) :
    addresses q.plan.allocator r = addresses p.plan.allocator r := by
  rw [addresses, addresses, h.allocator.layout, h.allocator.used]

theorem write_relabelled [Platform] (cells : List Cell) :
    (write q).1 = .ok cells ↔ (write p).1 = .ok cells := by
  have hcell := cell_relabelled h
  rw [write, write, writeRegions_eq, writeRegions_eq, funext (addresses_relabelled h)]
  constructor
  · intro hc
    exact Sequences.mapM_of_forall₂ ((Sequences.mapM_ok hc).imp fun x c => (hcell x c).1)
  · intro hc
    exact Sequences.mapM_of_forall₂ ((Sequences.mapM_ok hc).imp fun x c => (hcell x c).2)

end MemoryTable

namespace Program

open Circuit Lowering

variable {g : Graph} {w w' : Witness} {layout : Layout} {lookupBits : Json} {m : Int}

theorem Relabelled.instructions {p q : Program} (h : p.Relabelled f N q) :
    q.instructions = p.instructions := by
  have hall (p : Program) :
      p.instructions = (p.plan.blocks.map (bare ·.steps)).flatten.map Prod.fst := by
    rw [Program.instructions, Plan.instructions, Plan.steps, List.map_flatten, List.map_map,
      List.map_flatMap, List.flatMap_def]
    congr 2
    funext b
    change _ = (b.steps.map Step.bare).map Prod.fst
    rw [List.map_map]
    rfl
  rw [hall, hall, h.blocks]

theorem lower_of_plan [Platform] {plan : Plan} {journal : List Event}
    (hp : Lowering.plan g layout lookupBits = (.ok plan, journal))
    (hc : w.Complete m g) (hs : (Values.follow m w ⟨∅, ∅⟩ journal).2.2 = none) (name : String) :
    (lower name g w layout lookupBits m).1 =
      .ok ⟨name, g, w, plan, (Values.follow m w ⟨∅, ∅⟩ journal).1.derived, m, []⟩ := by
  rcases hv : Values.follow m w ⟨∅, ∅⟩ journal with ⟨values, done, stop⟩
  rw [hv] at hs
  obtain rfl : stop = none := hs
  simp only [lower_eq_outlined hc, outlined, hp, hv]

theorem lower_renamed [Platform] (hf : Set.InjOn f g.names) (hc : g.Consistent)
    (hw : w.Renamed f g.names w') (hfull : w.Complete m g) (name : String) (layout : Layout)
    (lookupBits : Json) :
    ((∀ p, (lower name g w layout lookupBits m).1 ≠ .ok p) ∧
      ∀ q, (lower name (g.rename f) w' layout lookupBits m).1 ≠ .ok q) ∨
    ∃ p q, (lower name g w layout lookupBits m).1 = .ok p ∧
      (lower name (g.rename f) w' layout lookupBits m).1 = .ok q ∧ p.Relabelled f g.names q := by
  have hfull' := hfull.renamed hf hc hw
  rcases plan_renamed hf hc layout lookupBits with ⟨hno, hno'⟩ | ⟨z, d, d', hd, hp, hp'⟩
  · left
    constructor
    · intro p h
      obtain ⟨plan, journal, _, _, hplan, -⟩ := lower_eq_ok hfull h
      exact hno plan journal hplan
    · intro q h
      obtain ⟨plan, journal, _, _, hplan, -⟩ := lower_eq_ok hfull' h
      exact hno' plan journal hplan
  obtain ⟨hvalues, hstop⟩ := Values.follow_renamed (m := m) hw hd.journal ⟨∅, ∅⟩
  cases hs : (Values.follow m w ⟨∅, ∅⟩ d.journal).2.2 with
  | none =>
    refine .inr ⟨_, _, lower_of_plan hp hfull hs name,
      lower_of_plan hp' hfull' (hstop.trans hs) name, ?_⟩
    exact ⟨hd.allocator, hd.blocks, hd.tables, congrArg Values.derived hvalues, rfl, hw⟩
  | some fault =>
    left
    constructor
    · intro p h
      obtain ⟨plan, journal, _, _, hplan, hfollow, -⟩ := lower_eq_ok hfull h
      obtain ⟨-, rfl⟩ := Prod.mk.inj (hp.symm.trans hplan)
      simp [hfollow] at hs
    · intro q h
      obtain ⟨plan, journal, _, _, hplan, hfollow, -⟩ := lower_eq_ok hfull' h
      obtain ⟨-, rfl⟩ := Prod.mk.inj (hp'.symm.trans hplan)
      rw [hs] at hstop
      simp [hfollow] at hstop

/-- Names are labels. A circuit that is read is also read under other names for its tensors, no two
alike, and so is its witness. It is lowered exactly when the renamed one is, to the same
instructions and tables, with the same derived values and the same memory table. -/
theorem lower_labels [Platform] {doc given : Json} (hg : Circuit.read doc = .ok g)
    (hw : Witness.read m g given = .ok w) (hf : Set.InjOn f g.names) :
    (∀ doc', Circuit.Parts doc' (g.rename f) → Circuit.read doc' = .ok (g.rename f)) ∧
    (∀ given', Witness.Renames f g given given' →
      ∃ w', Witness.read m (g.rename f) given' = .ok w' ∧ w.Renamed f g.names w') ∧
    ∀ w', w.Renamed f g.names w' → ∀ name layout lookupBits,
      ((∃ p, (lower name g w layout lookupBits m).1 = .ok p) ↔
        ∃ q, (lower name (g.rename f) w' layout lookupBits m).1 = .ok q) ∧
      ∀ p q, (lower name g w layout lookupBits m).1 = .ok p →
        (lower name (g.rename f) w' layout lookupBits m).1 = .ok q →
        q.instructions = p.instructions ∧ q.plan.tables = p.plan.tables ∧ q.derived = p.derived ∧
          ∀ cells, (MemoryTable.write q).1 = .ok cells ↔ (MemoryTable.write p).1 = .ok cells := by
  have hc := (Circuit.read_ok_iff_parts.1 hg).2
  have hfull := Witness.read_complete hw
  refine ⟨?_, fun given' hr => Witness.read_renames hf hc hr hw, ?_⟩
  · exact fun doc' hd => Circuit.read_ok_iff_parts.2 ⟨hd, Graph.consistent_rename hf hc⟩
  intro w' hw' name layout lookupBits
  rcases lower_renamed hf hc hw' hfull name layout lookupBits with ⟨hno, hno'⟩ | ⟨p, q, hp, hq, hpq⟩
  · refine ⟨⟨?_, ?_⟩, ?_⟩
    · exact fun ⟨p, hp⟩ => absurd hp (hno p)
    · exact fun ⟨q, hq⟩ => absurd hq (hno' q)
    · exact fun p _ hp => absurd hp (hno p)
  · refine ⟨⟨fun _ => ⟨q, hq⟩, fun _ => ⟨p, hp⟩⟩, ?_⟩
    intro p' q' hp' hq'
    obtain rfl := Except.ok.inj (hp.symm.trans hp')
    obtain rfl := Except.ok.inj (hq.symm.trans hq')
    exact ⟨hpq.instructions, hpq.tables, hpq.derived, MemoryTable.write_relabelled hpq⟩

end Program

namespace Sample

/-- Names that the compiler has for cells of its own. -/
def adversary : String → String
  | "x" => "zero"
  | "k" => "table.relu#2"
  | "y" => "n1.product#1"
  | id => id

theorem adversary_injOn : Set.InjOn adversary graph.names := by
  have hnodup : ((graph.tensors.map (·.id)).map adversary).Nodup := by decide
  exact fun a ha b hb => List.inj_on_of_nodup_map hnodup ha hb

def adverseWitness : Witness :=
  [("n1.product#1", ⟨[1], #[3]⟩), ("table.relu#2", ⟨[1], #[3]⟩), ("z", ⟨[1], #[3]⟩),
    ("zero", ⟨[1], #[2]⟩)]

theorem witness_adverse : witness.Renamed adversary graph.names adverseWitness := by
  intro id hid
  have hid' : id = "x" ∨ id = "k" ∨ id = "y" ∨ id = "z" := by
    simpa [Circuit.Graph.names, graph] using hid
  rcases hid' with rfl | rfl | rfl | rfl <;> rfl

end Sample

theorem Program.sample_labels :
    Set.InjOn Sample.adversary Sample.graph.names ∧
    ∃ p q,
      (lower "sample" Sample.graph Sample.witness default (.int 3) Field.defaultModulus).1
        = .ok p ∧
      (lower "sample" (Sample.graph.rename Sample.adversary) Sample.adverseWitness default (.int 3)
        Field.defaultModulus).1 = .ok q ∧
      q.instructions = p.instructions ∧
      ∀ cells, (MemoryTable.write q).1 = .ok cells ↔ (MemoryTable.write p).1 = .ok cells := by
  obtain ⟨-, -, h⟩ := lower_labels Sample.read_circuit Sample.read_values Sample.adversary_injOn
  obtain ⟨hiff, hsame⟩ :=
    h Sample.adverseWitness Sample.witness_adverse "sample" default (.int 3)
  obtain ⟨p, hp⟩ := Sample.lowers
  obtain ⟨q, hq⟩ := hiff.1 ⟨p, hp⟩
  obtain ⟨hi, -, -, hm⟩ := hsame p q hp hq
  exact ⟨Sample.adversary_injOn, p, q, hp, hq, hi, hm⟩

end TensorAsm
