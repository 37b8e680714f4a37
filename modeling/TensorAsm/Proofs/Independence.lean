import TensorAsm.Assembly
import TensorAsm.Proofs.Image
/-!
What a program tells about its witness. Two programs for one graph have the same blocks, tables and
text whatever their witnesses are. Only the values in the cells of tensors and scratch blocks can
tell the witnesses apart.
-/

namespace TensorAsm

namespace Sequences

variable {α β γ ε : Type} {xs : List α}

theorem map_mapM (f : α → Except ε β) (key : β → γ) (xs : List α) :
    (xs.mapM f).map (List.map key) = xs.mapM fun x => (f x).map key := by
  induction xs with
  | nil => rfl
  | cons x xs ih =>
    rw [List.mapM_cons, List.mapM_cons, ← ih]
    cases f x with
    | error e => rfl
    | ok y => cases xs.mapM f <;> rfl

theorem mapM_map_congr {f g : α → Except ε β} {key : β → γ}
    (h : ∀ x ∈ xs, (f x).map key = (g x).map key) :
    (xs.mapM f).map (List.map key) = (xs.mapM g).map (List.map key) := by
  rw [map_mapM, map_mapM]
  induction xs with
  | nil => rfl
  | cons x xs ih =>
    rw [List.mapM_cons, List.mapM_cons, h x (by simp), ih fun y hy => h y (by simp [hy])]

end Sequences

namespace Program.Values

open Lowering

variable [Platform] {m node : Int} {w : Witness} {v v' : Values} {c : Int}

theorem step_derived {s : Step} (h : step m node v s = .ok v') :
    c ∈ v'.derived ↔ c ∈ v.derived ∨ c ∈ dests true [s] := by
  rcases step_cases h with ⟨hn, rfl⟩ | ⟨d, value, hd, hi, -, -, rfl⟩
  · simp [hn]
  · have hs : dests true [s] = [d] := by simp [dests_cons, hd, hi]
    rw [hs, List.mem_singleton, record, Std.TreeMap.mem_insert, compare_eq_iff_eq, or_comm,
      eq_comm]

theorem steps_derived {ss : List Step} (h : ss.foldlM (step m node) v = .ok v') :
    c ∈ v'.derived ↔ c ∈ v.derived ∨ c ∈ dests true ss := by
  induction ss generalizing v with
  | nil =>
    obtain rfl := Except.ok.inj h
    simp
  | cons s ss ih =>
    rw [List.foldlM_cons] at h
    cases hs : step m node v s with
    | error f => simp [hs, bind, Except.bind] at h
    | ok u =>
      rw [hs] at h
      rw [ih h, step_derived hs, or_assoc, ← List.mem_append, ← dests_append,
        List.singleton_append]

theorem advance_derived {e : Event} (h : v.advance m w e = .ok v') :
    c ∈ v'.derived ↔ c ∈ v.derived ∨ c ∈ dests true e.steps := by
  cases e with
  | allocated b =>
    have hv : v'.derived = v.derived := by
      rw [advance] at h
      split at h <;> obtain rfl := Except.ok.inj h <;> rfl
    simp [hv, Event.steps]
  | emitted node ss => exact steps_derived h
  | dropped s =>
    obtain rfl := advance_dropped h
    simp [Event.steps]
  | folded | lowered =>
    obtain rfl := Except.ok.inj h
    simp [Event.steps]

theorem follows_derived {evs : List Event} (h : Follows m w v evs v') :
    c ∈ v'.derived ↔ c ∈ v.derived ∨ c ∈ dests true (stepsOf evs) := by
  induction evs generalizing v with
  | nil =>
    obtain rfl := follows_nil.1 h
    simp
  | cons e evs ih =>
    obtain ⟨u, hu, hrest⟩ := follows_cons.1 h
    rw [ih hrest, advance_derived hu, stepsOf_cons, dests_append, List.mem_append, or_assoc]

end Program.Values

theorem keys_congr {t u : Std.TreeMap Int Int} (h : ∀ c, c ∈ t ↔ c ∈ u) : t.keys = u.keys := by
  have hsort (t : Std.TreeMap Int Int) : t.keys.Pairwise (· < ·) :=
    (Std.TreeMap.ordered_keys (t := t)).imp fun hlt => compare_lt_iff_lt.1 hlt
  refine List.Perm.eq_of_pairwise (fun a b _ _ hab hba => absurd hab (by omega)) (hsort t)
    (hsort u) ?_
  refine (List.perm_ext_iff_of_nodup ?_ ?_).2 fun c => by simp [h c]
  exacts [(hsort t).imp fun hlt => by omega, (hsort u).imp fun hlt => by omega]

namespace MemoryTable

variable [Platform] {p q : Program}

def blot (t : Except Fault (List Cell) × List Log.Entry) :
    Except Fault (List Int) × List Log.Entry :=
  (t.1.map (List.map Cell.address), t.2)

/-- What can be seen of a memory table when its values are blotted out: the addresses, or why there
is no table, and the log. -/
def outline (p : Program) : Except Fault (List Int) × List Log.Entry := blot (write p)

theorem blot_writeRegions (p : Program) (owners : Std.TreeMap Int Allocator.Owner) (r : Region)
    (rs : List Region) :
    blot (writeRegions p owners (r :: rs)) =
      match ((addresses p.plan.allocator r).mapM (cell p owners)).map (List.map Cell.address) with
      | .error f => (.error f, [])
      | .ok xs => ((blot (writeRegions p owners rs)).1.map (xs ++ ·),
          regionEntry p.plan.allocator r :: (blot (writeRegions p owners rs)).2) := by
  rw [writeRegions]
  cases (addresses p.plan.allocator r).mapM (cell p owners) with
  | error f => rfl
  | ok cells =>
    rcases writeRegions p owners rs with ⟨more, log⟩
    cases more with
    | error f => rfl
    | ok more => simp [blot, Except.map]

theorem blot_congr (hplan : p.plan = q.plan) {owners : Std.TreeMap Int Allocator.Owner}
    {rs : List Region} (h : ∀ x ∈ rs.flatMap (addresses p.plan.allocator),
      (cell p owners x).map Cell.address = (cell q owners x).map Cell.address) :
    blot (writeRegions p owners rs) = blot (writeRegions q owners rs) := by
  induction rs with
  | nil => rfl
  | cons r rs ih =>
    rw [List.flatMap_cons] at h
    have hr := Sequences.mapM_map_congr fun x hx => h x (List.mem_append_left _ hx)
    rw [blot_writeRegions, blot_writeRegions, ← hplan, hr,
      ih fun x hx => h x (List.mem_append_right _ hx)]

theorem outline_congr (hplan : p.plan = q.plan)
    (h : ∀ x ∈ Region.all.flatMap (addresses p.plan.allocator),
      (cell p p.plan.allocator.owners x).map Cell.address =
        (cell q p.plan.allocator.owners x).map Cell.address) :
    outline p = outline q := by
  have hq : outline q = blot (writeRegions q p.plan.allocator.owners Region.all) := by
    rw [hplan]
    rfl
  rw [hq, ← blot_congr hplan h]
  rfl

/-- Without an owner, or with one that is a table or the zero cell, the value of a cell does not
depend on the witness. -/
theorem cell_congr (hplan : p.plan = q.plan) (hm : p.modulus = q.modulus)
    {owners : Std.TreeMap Int Allocator.Owner} {x : Int}
    (h : ∀ o, owners[x]? = some o → o.block.kind ≠ .tensor ∧ o.block.kind ≠ .scratch) :
    cell p owners x = cell q owners x := by
  unfold cell
  cases ho : owners[x]? with
  | none => rw [hm]
  | some o =>
    obtain ⟨ht, hs⟩ := h o ho
    have hr : resolve p x o = resolve q x o := by
      cases hk : o.block.kind with
      | tensor => exact absurd hk ht
      | scratch => exact absurd hk hs
      | control => simp only [resolve, hk]
      | table => simp only [resolve, hk, hplan]
    simp only [hr, hm]

theorem cell_outline (hm : p.modulus = q.modulus) {owners : Std.TreeMap Int Allocator.Owner}
    {x : Int} {o : Allocator.Owner} (ho : owners[x]? = some o)
    (h : (resolve p x o).map (fun _ => x) = (resolve q x o).map fun _ => x) :
    (cell p owners x).map Cell.address = (cell q owners x).map Cell.address := by
  unfold cell
  simp only [ho, hm]
  generalize resolve p x o = a at h ⊢
  generalize resolve q x o = b at h ⊢
  by_cases hz : q.modulus = 0 <;> cases a <;> cases b <;>
    simp_all [Except.map, Field.encode?, Field.nonzero]

end MemoryTable

/-- Two programs that only the values of their tensors and scratch cells can tell apart. -/
structure Program.Alike [Platform] (p q : Program) : Prop where
  blocks : p.plan.blocks = q.plan.blocks
  tables : p.plan.tables = q.plan.tables
  allocator : p.plan.allocator = q.plan.allocator
  zero : p.plan.zero = q.plan.zero
  text : ∀ skeleton, Assembly.render? p skeleton = Assembly.render? q skeleton
  derived : p.derived.keys = q.derived.keys
  addresses : ∀ cells cells', (MemoryTable.write p).1 = .ok cells →
    (MemoryTable.write q).1 = .ok cells' → cells.map (·.address) = cells'.map (·.address)
  values : ∀ cells cells', (MemoryTable.write p).1 = .ok cells →
    (MemoryTable.write q).1 = .ok cells' → ∀ c ∈ cells, c ∉ cells' →
      ∃ o, p.plan.allocator.owners[c.address]? = some o ∧
        (o.block.kind = .tensor ∨ o.block.kind = .scratch)

namespace Program

variable {name : String} {g : Circuit.Graph} {w w' : Witness} {layout : Layout} {lookupBits : Json}
  {m : Int} {p q : Program}

theorem render_congr (hname : p.name = q.name) (hgraph : p.graph = q.graph)
    (hplan : p.plan = q.plan) (skeleton : List Skeleton.Segment) :
    Assembly.render? p skeleton = Assembly.render? q skeleton := by
  rcases p with ⟨name, graph, w, plan, derived, m, cells⟩
  rcases q with ⟨name', graph', w', plan', derived', m', cells'⟩
  dsimp only at hname hgraph hplan
  subst hname hgraph hplan
  rfl

theorem alike_of_plan [Platform] (hname : p.name = q.name) (hgraph : p.graph = q.graph)
    (hplan : p.plan = q.plan) (hm : p.modulus = q.modulus)
    (hd : ∀ c, c ∈ p.derived ↔ c ∈ q.derived) : Alike p q where
  blocks := by rw [hplan]
  tables := by rw [hplan]
  allocator := by rw [hplan]
  zero := by rw [hplan]
  text := render_congr hname hgraph hplan
  derived := keys_congr hd
  addresses := by
    intro cells cells' hp hq
    rw [MemoryTable.write_addresses hp, MemoryTable.write_addresses hq, hplan]
  values := by
    intro cells cells' hp hq c hc hne
    by_contra hno
    rw [MemoryTable.write, MemoryTable.writeRegions_eq] at hp hq
    obtain ⟨x, hx, hcell⟩ := Sequences.mapM_mem hp hc
    rw [← hplan] at hq
    obtain ⟨d, hd, hcell'⟩ := Sequences.mapM_of_mem hq hx
    obtain ⟨v, rfl⟩ := MemoryTable.cell_eq hcell
    rw [MemoryTable.cell_congr hplan hm fun o ho => ?_, hcell'] at hcell
    · obtain rfl := Except.ok.inj hcell
      exact hne hd
    · exact ⟨fun hk => hno ⟨o, ho, .inl hk⟩, fun hk => hno ⟨o, ho, .inr hk⟩⟩

theorem Lowered.cell_alike [Platform] {values values' : Values}
    (hp : Lowered g w lookupBits m p values) (hq : Lowered g w' lookupBits m q values')
    (hplan : p.plan = q.plan) {x : Int}
    (hx : x ∈ Region.all.flatMap (MemoryTable.addresses p.plan.allocator)) :
    (MemoryTable.cell p p.plan.allocator.owners x).map Cell.address =
      (MemoryTable.cell q p.plan.allocator.owners x).map Cell.address := by
  obtain ⟨b, hb, i, hi, rfl, ho⟩ := hp.owner_of_address hx
  have hmod : p.modulus = q.modulus := hp.modulus.trans hq.modulus.symm
  have hb' : b ∈ q.plan.allocator.allocations := by rwa [← hplan]
  cases hk : b.kind with
  | control | table =>
    rw [MemoryTable.cell_congr hplan hmod fun o ho' => ?_]
    obtain rfl := Option.some.inj (ho.symm.trans ho')
    simp [hk]
  | scratch =>
    apply MemoryTable.cell_outline hmod ho
    rw [hp.resolve_scratch hb hk hi, hq.resolve_scratch hb' hk hi]
    rfl
  | tensor =>
    obtain ⟨-, t, ht, -⟩ := hp.sound.tensor b hb hk
    apply MemoryTable.cell_outline hmod ho
    rw [hp.resolve_tensor hb hk hi ht, hq.resolve_tensor hb' hk hi ht]
    split <;> rfl

/-- A program does not depend on its witness but for the values of tensors and scratch cells, and
neither does its log. For a circuit that was read from a document, its memory table has the same
outline too. -/
theorem lower_alike [Platform] (hw : w.Complete m g) (hw' : w'.Complete m g)
    (hp : (lower name g w layout lookupBits m).1 = .ok p)
    (hq : (lower name g w' layout lookupBits m).1 = .ok q) :
    Alike p q ∧
    (lower name g w layout lookupBits m).2 = (lower name g w' layout lookupBits m).2 ∧
    ∀ doc, Circuit.read doc = .ok g → MemoryTable.outline p = MemoryTable.outline q := by
  obtain ⟨plan, journal, values, done, hplan, hf, rfl⟩ := lower_eq_ok hw hp
  obtain ⟨plan', journal', values', done', hplan', hf', rfl⟩ := lower_eq_ok hw' hq
  rw [hplan, Prod.mk.injEq, Except.ok.injEq] at hplan'
  obtain ⟨rfl, rfl⟩ := hplan'
  refine ⟨alike_of_plan rfl rfl rfl rfl fun c => ?_, ?_, ?_⟩
  · rw [Values.follows_derived ⟨done, hf⟩, Values.follows_derived ⟨done', hf'⟩]
  · obtain rfl := Values.follow_done hf
    obtain rfl := Values.follow_done hf'
    simp only [lower_eq_outlined hw, lower_eq_outlined hw', outlined, hplan, hf, hf']
  · intro doc hg
    have hwf := Circuit.read_wellFormed hg
    obtain ⟨values, hl⟩ := Lowered.of_complete hwf hw hp
    obtain ⟨values', hl'⟩ := Lowered.of_complete hwf hw' hq
    exact MemoryTable.outline_congr rfl fun x hx => hl.cell_alike hl' rfl hx

end Program

namespace Sample

def otherValues : Json := .obj [
  ("x", .arr [.int (-4)]), ("k", .arr [.int 3]), ("y", .arr [.int (-6)]), ("z", .arr [.int 0])]

def otherWitness : Witness :=
  [("k", ⟨[1], #[3]⟩), ("x", ⟨[1], #[-4]⟩), ("y", ⟨[1], #[-6]⟩), ("z", ⟨[1], #[0]⟩)]

theorem read_otherValues :
    Witness.read Field.defaultModulus graph otherValues = .ok otherWitness := by
  cbv

theorem lowers_other :
    ∃ p, (Program.lower "sample" graph otherWitness default (.int 3) Field.defaultModulus).1
      = .ok p :=
  exists_ok (by decide +kernel)

end Sample

theorem Program.sample_alike :
    ∃ p q,
      (lower "sample" Sample.graph Sample.witness default (.int 3) Field.defaultModulus).1
        = .ok p ∧
      (lower "sample" Sample.graph Sample.otherWitness default (.int 3) Field.defaultModulus).1
        = .ok q ∧
      p.witness ≠ q.witness ∧ Alike p q ∧ MemoryTable.outline p = MemoryTable.outline q := by
  obtain ⟨p, hp⟩ := Sample.lowers
  obtain ⟨q, hq⟩ := Sample.lowers_other
  obtain ⟨halike, -, hout⟩ := lower_alike (Witness.read_complete Sample.read_values)
    (Witness.read_complete Sample.read_otherValues) hp hq
  have hne : p.witness ≠ q.witness := by
    obtain ⟨plan, derived, rfl⟩ := lower_keeps hp
    obtain ⟨plan', derived', rfl⟩ := lower_keeps hq
    simp [Sample.witness, Sample.otherWitness]
  exact ⟨p, q, hp, hq, hne, halike, hout _ Sample.read_circuit⟩

end TensorAsm
