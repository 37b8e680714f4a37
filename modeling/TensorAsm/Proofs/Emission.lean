import TensorAsm.Proofs.Addresses
import TensorAsm.Proofs.Loading
import TensorAsm.Proofs.Outline
import TensorAsm.Proofs.Stateful
import TensorAsm.Proofs.Tables
/-!
Runs of the lowering that succeed. All that a run does shows in the events it adds to the journal,
and blocks and tables stay sound.
-/

namespace TensorAsm.Lowering

open Stateful

namespace Emit

variable {d d' : Draft}

theorem yields_request {ask : Allocator → Allocator.Reply} {address : Address}
    (h : (request ask).Yields d address d') :
    ∃ a, ask d.allocator = (.ok address, a) ∧
      d' = { d with
        allocator := a
        journal := d.journal ++
          (a.allocations.drop d.allocator.allocations.length).map Event.allocated } := by
  unfold request at h
  simp only [yields_bind, yields_get, yields_set] at h
  obtain ⟨_, _, ⟨rfl, rfl⟩, _, _, rfl, h⟩ := h
  generalize ask d.allocator = out at h
  obtain ⟨reply, a⟩ := out
  cases reply with
  | error f => exact absurd h yields_throw.1
  | ok b =>
    obtain ⟨rfl, rfl⟩ := yields_pure.1 h
    exact ⟨a, rfl, rfl⟩

end Emit

namespace Event

@[simp] def block? : Event → Option Allocation
  | .allocated b => some b
  | _ => none

@[simp] def table? : Event → Option FoldedTable
  | .folded t => some t
  | _ => none

@[simp] def closed? : Event → Option Block
  | .lowered b => some b
  | _ => none

@[simp] def steps : Event → List Step
  | .emitted _ steps => steps
  | _ => []

end Event

/-- The blocks, tables, operations and steps that events bring. -/
def blocksOf (evs : List Event) : List Allocation := evs.filterMap Event.block?

@[inherit_doc blocksOf]
def tablesOf (evs : List Event) : List FoldedTable := evs.filterMap Event.table?

@[inherit_doc blocksOf]
def closedOf (evs : List Event) : List Block := evs.filterMap Event.closed?

@[inherit_doc blocksOf]
def stepsOf (evs : List Event) : List Step := evs.flatMap Event.steps

def ofKind (kind : BlockKind) (bs : List Allocation) : List Allocation :=
  bs.filter (·.kind == kind)

@[simp] theorem blocksOf_nil : blocksOf [] = [] := rfl

@[simp] theorem tablesOf_nil : tablesOf [] = [] := rfl

@[simp] theorem closedOf_nil : closedOf [] = [] := rfl

@[simp] theorem stepsOf_nil : stepsOf [] = [] := rfl

section

variable (e : Event) (xs ys : List Event)

@[simp] theorem blocksOf_cons : blocksOf (e :: xs) = e.block?.toList ++ blocksOf xs := by
  cases e <;> rfl

@[simp] theorem tablesOf_cons : tablesOf (e :: xs) = e.table?.toList ++ tablesOf xs := by
  cases e <;> rfl

@[simp] theorem closedOf_cons : closedOf (e :: xs) = e.closed?.toList ++ closedOf xs := by
  cases e <;> rfl

@[simp] theorem stepsOf_cons : stepsOf (e :: xs) = e.steps ++ stepsOf xs := rfl

@[simp] theorem blocksOf_append : blocksOf (xs ++ ys) = blocksOf xs ++ blocksOf ys :=
  List.filterMap_append

@[simp] theorem tablesOf_append : tablesOf (xs ++ ys) = tablesOf xs ++ tablesOf ys :=
  List.filterMap_append

@[simp] theorem closedOf_append : closedOf (xs ++ ys) = closedOf xs ++ closedOf ys :=
  List.filterMap_append

@[simp] theorem stepsOf_append : stepsOf (xs ++ ys) = stepsOf xs ++ stepsOf ys :=
  List.flatMap_append

end

@[simp] theorem ofKind_append (kind : BlockKind) (bs cs : List Allocation) :
    ofKind kind (bs ++ cs) = ofKind kind bs ++ ofKind kind cs :=
  List.filter_append _ _

theorem mem_ofKind {kind : BlockKind} {bs : List Allocation} {b : Allocation} :
    b ∈ ofKind kind bs ↔ b ∈ bs ∧ b.kind = kind := by
  simp [ofKind]

/-- What holds of the blocks and tables all along. -/
structure Sound [Platform] (g : Circuit.Graph) (a : Allocator) (ts : List FoldedTable) : Prop where
  coherent : a.Coherent
  tiles : Tiles a.layout a.allocations
  tensor : ∀ b ∈ a.allocations, b.kind = .tensor → b.name ∈ g.required ∧
    ∃ t, g.tensor? b.name = some t ∧ b.size = Shape.volume t.shape ∧
      b.address.region = a.regionOf b.name t.visibility
  found : ∀ b ∈ a.allocations, b.kind = .tensor ∨ b.kind = .control →
    a.bound? b.kind b.name = some b
  control : ∀ b ∈ a.allocations, b.kind = .control →
    b.name = zeroName ∧ b.size = 1 ∧ b.address.region = .control
  table : ∀ t ∈ ts, Table.fold t.spec = .ok t.rows.toList ∧
    ∃ b ∈ a.allocations, b.kind = .table ∧ b.address = t.address ∧ b.size = 2 * t.rows.size
  folded : ∀ b ∈ a.allocations, b.kind = .table →
    b.address.region = .fixed ∧ ∃ t ∈ ts, b.address = t.address
  single : ∀ t ∈ ts, ∀ u ∈ ts, t.address.absolute = u.address.absolute → t = u

namespace Sound

variable [Platform] {g : Circuit.Graph} {a : Allocator} {ts : List FoldedTable}

theorem eq_of_name (h : Sound g a ts) {b b' : Allocation} (hb : b ∈ a.allocations)
    (hb' : b' ∈ a.allocations) (hk : b.kind = .tensor ∨ b.kind = .control)
    (hkind : b'.kind = b.kind) (hname : b'.name = b.name) : b' = b := by
  have hfound := h.found b' hb' (hkind ▸ hk)
  rw [hkind, hname, h.found b hb hk] at hfound
  exact (Option.some.inj hfound).symm

theorem table_apart (h : Sound g a ts) {b : Allocation}
    (hb : Tiles a.layout (a.allocations ++ [b])) {t u : FoldedTable} (ht : t ∈ ts)
    (hfold : Table.fold u.spec = .ok u.rows.toList) (ha : b.address = u.address)
    (hs : b.size = 2 * u.rows.size) : t.address.absolute ≠ u.address.absolute := by
  intro he
  obtain ⟨hfold', c, hc, -, hadr, hsz⟩ := h.table t ht
  have hpos : 0 < t.rows.size := by simpa using Table.fold_pos hfold'
  have hpos' : 0 < u.rows.size := by simpa using Table.fold_pos hfold
  have hd := hb.cells_nodup
  rw [List.flatMap_append, List.flatMap_singleton] at hd
  refine (List.nodup_append.1 hd).2.2 t.address.absolute (List.mem_flatMap.2 ⟨c, hc, ?_⟩)
    t.address.absolute ?_ rfl
  · rw [Allocation.mem_cells, hadr, hsz]
    omega
  · rw [Allocation.mem_cells, ha, he, hs]
    omega

theorem snoc (h : Sound g a ts) (new : List FoldedTable) {a' : Allocator} {r : Region} {size : Int}
    {name : String} {kind : BlockKind} (hg : a.Grows (a.next r size name kind) a') (hs : 0 ≤ size)
    (hr : a.used r + size ≤ a.layout.size r)
    (ht : kind = .tensor → name ∈ g.required ∧
      ∃ t, g.tensor? name = some t ∧ size = Shape.volume t.shape ∧ r = a.regionOf name t.visibility)
    (hf : kind = .tensor ∨ kind = .control → a.bound? kind name = none ∧
      a'.bound? kind name = some (a.next r size name kind))
    (hc : kind = .control → name = zeroName ∧ size = 1 ∧ r = .control)
    (hn : ∀ t ∈ new, kind = .table ∧ Table.fold t.spec = .ok t.rows.toList ∧
      (a.next r size name kind).address = t.address ∧ size = 2 * t.rows.size)
    (hk : kind = .table → r = .fixed ∧ new ≠ []) (hone : ∀ t ∈ new, ∀ u ∈ new, t = u) :
    Sound g a' (ts ++ new) where
  coherent := hg.coherent h.coherent
  tiles := hg.tiles h.coherent h.tiles rfl hs hr
  tensor := by
    intro b hb hk
    rw [hg.allocations] at hb
    simp only [hg.regionOf_eq]
    rcases List.mem_append.1 hb with hb | hb
    · exact h.tensor b hb hk
    · obtain rfl := List.mem_singleton.1 hb
      exact ht hk
  found := by
    intro b hb hk
    rw [hg.allocations] at hb
    rcases List.mem_append.1 hb with hb | hb
    · have hold := h.found b hb hk
      rcases hg.bound b.kind b.name with he | ⟨hkind, hname, -⟩
      · rw [he, hold]
      · -- the name of the new block was free
        rw [hkind] at hk
        rw [hkind, hname] at hold
        exact absurd (hold.symm.trans (hf hk).1) (by simp)
    · obtain rfl := List.mem_singleton.1 hb
      exact (hf hk).2
  control := by
    intro b hb hk
    rw [hg.allocations] at hb
    rcases List.mem_append.1 hb with hb | hb
    · exact h.control b hb hk
    · obtain rfl := List.mem_singleton.1 hb
      exact hc hk
  table := by
    intro t hm
    rcases List.mem_append.1 hm with hm | hm
    · obtain ⟨hfold, b, hb, hrest⟩ := h.table t hm
      exact ⟨hfold, b, by simp [hg.allocations, hb], hrest⟩
    · obtain ⟨hk, hfold, ha, hs⟩ := hn t hm
      exact ⟨hfold, _, by rw [hg.allocations]; simp, hk, ha, hs⟩
  folded := by
    intro b hb hkind
    rw [hg.allocations] at hb
    rcases List.mem_append.1 hb with hb | hb
    · obtain ⟨hr, t, ht, he⟩ := h.folded b hb hkind
      exact ⟨hr, t, by simp [ht], he⟩
    · obtain rfl := List.mem_singleton.1 hb
      obtain ⟨hr, hne⟩ := hk hkind
      obtain ⟨t, hm⟩ := List.exists_mem_of_ne_nil new hne
      exact ⟨hr, t, by simp [hm], (hn t hm).2.2.1⟩
  single := by
    have hold : ∀ t ∈ ts, ∀ u ∈ new, t.address.absolute ≠ u.address.absolute := by
      intro t ht u hu
      obtain ⟨-, hfold, ha, hsz⟩ := hn u hu
      have hall := hg.tiles h.coherent h.tiles rfl hs hr
      rw [hg.layout, hg.allocations] at hall
      exact h.table_apart hall ht hfold ha hsz
    intro t ht u hu he
    rcases List.mem_append.1 ht with ht | ht <;> rcases List.mem_append.1 hu with hu | hu
    · exact h.single t ht u hu he
    · exact absurd he (hold t ht u hu)
    · exact absurd he.symm (hold u hu t ht)
    · exact hone t ht u hu

theorem add (h : Sound g a ts) {a' : Allocator} {r : Region} {size : Int} {name : String}
    {kind : BlockKind} (hg : a.Grows (a.next r size name kind) a') (hk : kind ≠ .table)
    (hs : 0 ≤ size) (hr : a.used r + size ≤ a.layout.size r)
    (ht : kind = .tensor → name ∈ g.required ∧
      ∃ t, g.tensor? name = some t ∧ size = Shape.volume t.shape ∧ r = a.regionOf name t.visibility)
    (hf : kind = .tensor ∨ kind = .control → a.bound? kind name = none ∧
      a'.bound? kind name = some (a.next r size name kind))
    (hc : kind = .control → name = zeroName ∧ size = 1 ∧ r = .control) : Sound g a' ts := by
  have := h.snoc [] hg hs hr ht hf hc (by simp) (by simp [hk]) (by simp)
  rwa [List.append_nil] at this

end Sound

/-- A draft that has grown by events, none of which is a dropped step. -/
structure Extends [Platform] (g : Circuit.Graph) (d : Draft) (evs : List Event) (d' : Draft) :
    Prop where
  layout : d'.allocator.layout = d.allocator.layout
  inputs : d'.allocator.inputs = d.allocator.inputs
  outputs : d'.allocator.outputs = d.allocator.outputs
  allocations : d'.allocator.allocations = d.allocator.allocations ++ blocksOf evs
  retains : d.allocator.Retains d'.allocator
  tables : d'.tables = d.tables ++ tablesOf evs
  blocks : d'.blocks = d.blocks ++ closedOf evs
  journal : d'.journal = d.journal ++ evs
  kept : ∀ e ∈ evs, ∀ s, e ≠ .dropped s
  sound : Sound g d.allocator d.tables → Sound g d'.allocator d'.tables

/-- Here the operation at hand goes on: the steps of the events stand behind those it has. -/
structure Writes [Platform] (g : Circuit.Graph) (d : Draft) (evs : List Event) (d' : Draft) : Prop
    extends Extends g d evs d' where
  current : d'.current = d.current ++ stepsOf evs
  unclosed : closedOf evs = []

section

variable [Platform] {g : Circuit.Graph} {d d' e : Draft} {xs ys : List Event}

theorem Extends.refl : Extends g d [] d :=
  ⟨rfl, rfl, rfl, by simp, fun _ _ _ hb => hb, by simp, by simp, by simp, by simp, id⟩

theorem Extends.trans (h : Extends g d xs e) (k : Extends g e ys d') :
    Extends g d (xs ++ ys) d' where
  layout := k.layout.trans h.layout
  inputs := k.inputs.trans h.inputs
  outputs := k.outputs.trans h.outputs
  allocations := by rw [k.allocations, h.allocations, blocksOf_append, List.append_assoc]
  retains := fun _ _ _ hb => k.retains (h.retains hb)
  tables := by rw [k.tables, h.tables, tablesOf_append, List.append_assoc]
  blocks := by rw [k.blocks, h.blocks, closedOf_append, List.append_assoc]
  journal := by rw [k.journal, h.journal, List.append_assoc]
  kept := fun x hx => (List.mem_append.1 hx).elim (h.kept x) (k.kept x)
  sound := fun hs => k.sound (h.sound hs)

theorem Writes.refl : Writes g d [] d := ⟨.refl, by simp, rfl⟩

theorem Writes.trans (h : Writes g d xs e) (k : Writes g e ys d') : Writes g d (xs ++ ys) d' :=
  ⟨h.toExtends.trans k.toExtends,
    by rw [k.current, h.current, stepsOf_append, List.append_assoc],
    by rw [closedOf_append, h.unclosed, k.unclosed, List.append_nil]⟩

theorem Extends.mem_tables (h : Extends g d xs d') {t : FoldedTable} (ht : t ∈ d.tables) :
    t ∈ d'.tables := by
  rw [h.tables]
  exact List.mem_append_left _ ht

end

def Placements (evs : List Event) : Prop := ∀ e ∈ evs, ∃ b, e = .allocated b ∧ b.kind = .tensor

namespace Placements

variable {xs ys : List Event}

theorem nil : Placements [] := by simp [Placements]

theorem append (h : Placements xs) (k : Placements ys) : Placements (xs ++ ys) :=
  fun e he => (List.mem_append.1 he).elim (h e) (k e)

@[simp] theorem steps (h : Placements xs) : stepsOf xs = [] := by
  rw [stepsOf, List.flatMap_eq_nil_iff]
  intro e he
  obtain ⟨b, rfl, -⟩ := h e he
  rfl

@[simp] theorem scratch (h : Placements xs) : ofKind .scratch (blocksOf xs) = [] := by
  rw [ofKind, List.filter_eq_nil_iff]
  intro b hb
  obtain ⟨e, he, hb⟩ := List.mem_filterMap.1 hb
  obtain ⟨c, rfl, hc⟩ := h e he
  obtain rfl : c = b := Option.some.inj hb
  simp [hc]

end Placements

/-- A block of an operation for derived values. -/
structure Owned (o : Circuit.Operation) (size : Int) (b : Allocation) : Prop where
  kind : b.kind = .scratch
  region : b.address.region = .intermediate
  size : b.size = size
  name : ∃ purpose k, b.name = "n" ++ Numeral.write o.id ++ "." ++ purpose ++ "#" ++ natText k

theorem Owned.scratch {o : Circuit.Operation} {size : Int} {b : Allocation} (h : Owned o size b) :
    ofKind .scratch [b] = [b] := by
  simp [ofKind, h.kind]

section

variable [Platform] {g : Circuit.Graph} {d d' : Draft}

theorem grows_writes {a : Allocator} {b : Allocation} (hg : d.allocator.Grows b a)
    (hfree : d.allocator.bound? b.kind b.name = none)
    (hs : Sound g d.allocator d.tables → Sound g a d.tables) :
    Writes g d [.allocated b] { d with
      allocator := a
      journal := d.journal ++
        (a.allocations.drop d.allocator.allocations.length).map Event.allocated } where
  layout := hg.layout
  inputs := hg.inputs
  outputs := hg.outputs
  allocations := hg.allocations
  retains := hg.retains hfree
  tables := by simp
  blocks := by simp
  journal := by simp [hg.allocations]
  kept := by simp
  sound := hs
  current := by simp
  unclosed := rfl

theorem tensor_writes (hg : g.Measured) {id : String} (hid : id ∈ g.required) {t : Circuit.Tensor}
    (ht : g.tensor? id = some t) {address : Address} (h : (Emit.tensor t).Yields d address d') :
    ∃ evs b, Writes g d evs d' ∧ Placements evs ∧
      d'.allocator.bound? .tensor id = some b ∧ b.address = address := by
  obtain ⟨a, ha, rfl⟩ := Emit.yields_request h
  have hn := Circuit.Graph.tensor_id ht
  unfold Allocator.allocate Allocator.allocateSized at ha
  rw [hg.size_eq hid ht, hn] at ha
  cases hl : d.allocator.lookup? id with
  | some found =>
    simp only [hl, Prod.mk.injEq, Except.ok.injEq] at ha
    obtain ⟨rfl, rfl⟩ := ha
    obtain ⟨b, hb, he⟩ := Option.map_eq_some_iff.1 hl
    exact ⟨[], b, by simpa using Writes.refl, .nil, hb, he⟩
  | none =>
    simp only [hl] at ha
    obtain ⟨hr, rfl, rfl⟩ := Allocator.place_eq_ok ha
    have hb : d.allocator.bound? .tensor id = none := Option.map_eq_none_iff.1 hl
    have hgrow := Allocator.Grows.of_binder (a := d.allocator) (b := d.allocator.next
      (d.allocator.regionOf id t.visibility) (Shape.volume t.shape) id .tensor) .tensor
      d.allocator.scratchCount
    have hfound := (Allocator.bound_bindTensor (d.allocator.push (d.allocator.next
      (d.allocator.regionOf id t.visibility) (Shape.volume t.shape) id .tensor)) (d.allocator.next
      (d.allocator.regionOf id t.visibility) (Shape.volume t.shape) id .tensor) .tensor id).trans
      (if_pos ⟨rfl, rfl⟩)
    refine ⟨[.allocated _], _, grows_writes hgrow hb ?_, ?_, hfound, rfl⟩
    · intro hs
      exact hs.add hgrow (by simp) (Int.natCast_nonneg _) hr (fun _ => ⟨hid, t, ht, rfl, rfl⟩)
        (fun _ => ⟨hb, hfound⟩) (by simp)
    · simp [Placements, Allocator.next]

theorem scratch_writes {o : Circuit.Operation} {purpose : String} {size base : Int}
    (hs : 0 ≤ size) (h : (Emit.scratch o purpose size).Yields d base d') :
    ∃ b, Owned o size b ∧ b.address.absolute = base ∧ Writes g d [.allocated b] d' := by
  unfold Emit.scratch at h
  simp only [yields_bind, yields_checkWritten, yields_pure] at h
  obtain ⟨_, _, ⟨-, rfl⟩, address, _, h, rfl, rfl⟩ := h
  obtain ⟨a, ha, rfl⟩ := Emit.yields_request h
  obtain ⟨hr, b, rfl, rfl, hgrow⟩ := Allocator.Grows.of_scratch ha
  refine ⟨_, ⟨rfl, rfl, rfl, purpose, _, rfl⟩, rfl, grows_writes hgrow rfl fun hsound => ?_⟩
  exact hsound.add hgrow (by simp) hs hr (by simp) (by simp) (by simp)

theorem table_writes (hs : Sound g d.allocator d.tables) {s : Table.Spec} {t : FoldedTable}
    (h : (Emit.table s).Yields d t d') :
    t ∈ d'.tables ∧ Table.fold s = .ok t.rows.toList ∧ ∃ evs, Writes g d evs d' ∧
      stepsOf evs = [] ∧ ofKind .scratch (blocksOf evs) = [] := by
  unfold Emit.table at h
  simp only [yields_bind, yields_get] at h
  obtain ⟨_, _, ⟨rfl, rfl⟩, h⟩ := h
  split at h
  · next u hu =>
      obtain ⟨rfl, rfl⟩ := yields_pure.1 h
      have hm := List.mem_of_find?_eq_some hu
      have hsame := List.find?_some (p := fun t : FoldedTable => t.spec.same s) hu
      refine ⟨hm, ?_, [], .refl, rfl, rfl⟩
      rw [← Table.fold_eq_of_same hsame]
      exact (hs.table u hm).1
  · simp only [yields_bind, yields_ofExcept, yields_modify,
      yields_checkWritten, Emit.note, yields_pure] at h
    obtain ⟨rows, _, ⟨hf, rfl⟩, address, _, h, _, _, rfl, _, _, ⟨-, rfl⟩, _, _, rfl, rfl, rfl⟩ := h
    obtain ⟨a, ha, rfl⟩ := Emit.yields_request h
    obtain ⟨hr, b, rfl, rfl, hgrow⟩ := Allocator.Grows.of_scratch ha
    refine ⟨by simp, by simpa using hf, [.allocated _, .folded _],
      ⟨⟨hgrow.layout, hgrow.inputs, hgrow.outputs, hgrow.allocations, hgrow.retains rfl, rfl,
          by simp, ?_, by simp, ?_⟩,
        by simp, rfl⟩, rfl, rfl⟩
    · simp [hgrow.allocations]
    · intro _
      refine hs.snoc _ hgrow (by omega) hr (by simp) (by simp) (by simp) ?_ (by simp) (by simp)
      intro t ht
      obtain rfl := List.mem_singleton.1 ht
      exact ⟨rfl, by simpa using hf, rfl, by simp⟩

theorem commented_writes {o : Circuit.Operation} {ns : List Int} {steps : List Step}
    (h : (Emit.commented o ns steps).Yields d () d') :
    (steps ≠ [] → (o.id :: ns).all Numeral.isWritable = true) ∧
      Writes g d [.emitted o.id steps] d' := by
  have hw {e : Draft} (h : (Emit.steps o steps).Yields e () d') :
      Writes g e [.emitted o.id steps] d' := by
    simp only [Emit.steps, Emit.note, yields_bind, yields_modify] at h
    obtain ⟨_, _, rfl, rfl⟩ := h
    exact ⟨⟨rfl, rfl, rfl, by simp, fun _ _ _ hb => hb, by simp, by simp, rfl, by simp, id⟩,
      by simp,
      rfl⟩
  unfold Emit.commented at h
  simp only [yields_bind, yields_ite, yields_checkWritten] at h
  rcases h with ⟨-, _, _, ⟨hn, rfl⟩, h⟩ | ⟨he, h⟩
  · exact ⟨fun _ => hn, hw h⟩
  · exact ⟨fun hne => absurd (by simpa using he) hne, hw h⟩

theorem control_writes {address : Address} (hb : d.allocator.bound? .control zeroName = none)
    (h : (Emit.request (·.control zeroName)).Yields d address d') :
    ∃ b, b.kind = .control ∧ b.address = address ∧ b.size = 1 ∧ Writes g d [.allocated b] d' := by
  obtain ⟨a, ha, rfl⟩ := Emit.yields_request h
  rw [Allocator.control, hb] at ha
  obtain ⟨hr, rfl, rfl⟩ := Allocator.place_eq_ok ha
  have hgrow := Allocator.Grows.of_binder (a := d.allocator) (b := d.allocator.next .control 1
    zeroName .control) .control d.allocator.scratchCount
  have hfound := (Allocator.bound_bindControl (d.allocator.push (d.allocator.next .control 1
    zeroName .control)) (d.allocator.next .control 1 zeroName .control) .control zeroName).trans
    (if_pos ⟨rfl, rfl⟩)
  refine ⟨_, rfl, rfl, rfl, grows_writes hgrow hb fun hsound => ?_⟩
  exact hsound.add hgrow (by simp) (by simp) hr (by simp) (fun _ => ⟨hb, hfound⟩) (by simp)

end

end TensorAsm.Lowering
