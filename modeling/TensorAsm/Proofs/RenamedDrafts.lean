import TensorAsm.Proofs.Allocations
import TensorAsm.Proofs.Renaming
import TensorAsm.Proofs.TwinPlans
/-!
Two lowerings side by side, of a circuit and of the same circuit under other names. They fail
together, and where they succeed only the names of tensors and the comments differ.
-/

namespace TensorAsm

open Stateful

variable (f : String → String)

/-- A block of a tensor bears the new name of the tensor. The compiler's own blocks keep theirs. -/
def Allocation.rename (b : Allocation) : Allocation :=
  if b.kind = .tensor then { b with name := f b.name } else b

variable {f}

namespace Allocation

@[simp] theorem rename_kind (b : Allocation) : (b.rename f).kind = b.kind := by
  unfold rename
  split <;> rfl

@[simp] theorem rename_address (b : Allocation) : (b.rename f).address = b.address := by
  unfold rename
  split <;> rfl

@[simp] theorem rename_size (b : Allocation) : (b.rename f).size = b.size := by
  unfold rename
  split <;> rfl

theorem rename_name_tensor {b : Allocation} (h : b.kind = .tensor) :
    (b.rename f).name = f b.name := by
  rw [rename, if_pos h]

theorem rename_name {b : Allocation} (h : b.kind ≠ .tensor) : (b.rename f).name = b.name := by
  rw [rename, if_neg h]

end Allocation

namespace Allocator

/-- Allocators of a circuit and of the same circuit under other names for the tensors of `N`. -/
structure Renamed (f : String → String) (N : Set String) (a a' : Allocator) : Prop where
  layout : a'.layout = a.layout
  count : a'.scratchCount = a.scratchCount
  inputs : ∀ id ∈ N, a'.inputs (f id) = a.inputs id
  outputs : ∀ id ∈ N, a'.outputs (f id) = a.outputs id
  used : ∀ r, a'.used r = a.used r
  blocks : a'.allocations = a.allocations.map (·.rename f)
  known : ∀ b ∈ a.allocations, b.kind = .tensor → b.name ∈ N
  tensors : ∀ id ∈ N, a'.bound? .tensor (f id) = (a.bound? .tensor id).map (·.rename f)
  controls : ∀ name, a'.bound? .control name = (a.bound? .control name).map (·.rename f)

/-- Two requests are refused, or are given one address. -/
def Answers (f : String → String) (N : Set String) (r r' : Reply) : Prop :=
  (∃ e e', r.1 = .error e ∧ r'.1 = .error e') ∨
    ∃ x b b', r = (.ok x, b) ∧ r' = (.ok x, b') ∧ Renamed f N b b'

namespace Renamed

variable {N : Set String} {a a' : Allocator} (h : Renamed f N a a')

include h

theorem recount {n n' : Nat} (hn : n' = n) :
    Renamed f N { a with scratchCount := n } { a' with scratchCount := n' } :=
  ⟨h.layout, hn, h.inputs, h.outputs, h.used, h.blocks, h.known, h.tensors, h.controls⟩

theorem push {b : Allocation} (hb : b.kind = .tensor → Set.InjOn f N ∧ b.name ∈ N)
    {bind : Allocator → Allocation → Allocator} (hbind : Binder b.kind bind) :
    Renamed f N (bind (a.push b) b) (bind (a'.push (b.rename f)) (b.rename f)) := by
  obtain ⟨takes, hbound⟩ := hbind.bound
  obtain ⟨hl, hi, ho, hu, hm, hc⟩ := hbind.same (a.push b) b
  obtain ⟨hl', hi', ho', hu', hm', hc'⟩ := hbind.same (a'.push (b.rename f)) (b.rename f)
  refine ⟨?_, ?_, ?_, ?_, ?_, ?_, ?_, ?_, ?_⟩
  · rw [hl, hl']
    exact h.layout
  · rw [hc, hc']
    exact h.count
  · rw [hi, hi']
    exact h.inputs
  · rw [ho, ho']
    exact h.outputs
  · intro r
    rw [hu, hu']
    simp [Allocator.push, h.used r]
  · rw [hm, hm']
    simp [Allocator.push, h.blocks]
  · intro c hc hk
    rw [hm] at hc
    rcases List.mem_append.1 hc with hc | hc
    · exact h.known c hc hk
    · obtain rfl := List.mem_singleton.1 hc
      exact (hb hk).2
  · intro id hid
    rw [hbound _ b _ _ rfl, hbound _ (b.rename f) _ _ (Allocation.rename_kind b), h.tensors id hid]
    by_cases hk : b.kind = .tensor
    · have hname : (b.rename f).name = f id ↔ b.name = id := by
        rw [Allocation.rename_name_tensor hk]
        exact (hb hk).1.eq_iff (hb hk).2 hid
      simp only [hname]
      split <;> rfl
    · rw [if_neg fun hc => hk hc.2.1.symm, if_neg fun hc => hk hc.2.1.symm]
  · intro name
    rw [hbound _ b _ _ rfl, hbound _ (b.rename f) _ _ (Allocation.rename_kind b), h.controls name]
    by_cases hk : b.kind = .control
    · rw [Allocation.rename_name (f := f) (b := b) (by simp [hk])]
      split <;> rfl
    · rw [if_neg fun hc => hk hc.2.1.symm, if_neg fun hc => hk hc.2.1.symm]

theorem place {r : Region} {size : Int} {name name' : String} {kind : BlockKind}
    {bind : Allocator → Allocation → Allocator} (hbind : Binder kind bind)
    (hn : name' = if kind = .tensor then f name else name)
    (hk : kind = .tensor → Set.InjOn f N ∧ name ∈ N) :
    Answers f N (a.place r size name kind bind) (a'.place r size name' kind bind) := by
  by_cases hl : a.layout.size r < a.used r + size
  · have hl' : a'.layout.size r < a'.used r + size := by rwa [h.layout, h.used]
    rw [Allocator.place, Allocator.place, bump, bump, if_pos hl, if_pos hl']
    exact .inl ⟨_, _, rfl, rfl⟩
  · have hl' : ¬a'.layout.size r < a'.used r + size := by rwa [h.layout, h.used]
    have hnext : a'.next r size name' kind = (a.next r size name kind).rename f := by
      rw [next, next, h.layout, h.used, hn, Allocation.rename]
      split <;> rfl
    rw [Allocator.place, Allocator.place, bump, bump, if_neg hl, if_neg hl', hnext]
    refine .inr ⟨_, _, _, rfl, ?_, h.push (b := a.next r size name kind) hk hbind⟩
    dsimp only
    rw [Allocation.rename_address]

theorem regionOf {id : String} (hid : id ∈ N) (visibility : Circuit.Visibility) :
    a'.regionOf (f id) visibility = a.regionOf id visibility := by
  rw [Allocator.regionOf, Allocator.regionOf, h.inputs id hid, h.outputs id hid]

theorem allocate (hf : Set.InjOn f N) {t : Circuit.Tensor} (ht : t.id ∈ N) :
    Answers f N (a.allocate t) (a'.allocate (t.rename f)) := by
  have hb : a'.bound? .tensor (t.rename f).id = (a.bound? .tensor t.id).map (·.rename f) :=
    h.tensors t.id ht
  have hr : a'.regionOf (t.rename f).id (t.rename f).visibility = a.regionOf t.id t.visibility :=
    h.regionOf ht t.visibility
  unfold Allocator.allocate allocateSized lookup?
  rw [hb, Circuit.Tensor.rename_size, hr]
  cases a.bound? .tensor t.id with
  | some b => exact .inr ⟨_, _, _, rfl, by simp, h⟩
  | none =>
    cases t.size? with
    | error e => exact .inl ⟨_, _, rfl, rfl⟩
    | ok n => exact h.place .tensor rfl fun _ => ⟨hf, ht⟩

theorem scratch (name : String) (size : Int) (r : Region) {kind : BlockKind}
    (hk : kind ≠ .tensor) :
    Answers f N (a.scratch name size r kind) (a'.scratch name size r kind) := by
  rw [Allocator.scratch, Allocator.scratch]
  dsimp only
  rw [h.count]
  exact (h.recount rfl).place .unbound (if_neg hk).symm fun he => absurd he hk

theorem control (name : String) : Answers f N (a.control name) (a'.control name) := by
  rw [Allocator.control, Allocator.control, h.controls]
  cases a.bound? .control name with
  | some b => exact .inr ⟨_, _, _, rfl, by rw [Option.map_some]; simp, h⟩
  | none => exact h.place .control rfl (by simp)

end Renamed

end Allocator

namespace Lowering

/-- A step but for its comment. -/
def Step.bare (s : Step) : Instruction × Bool := (s.instruction, s.derived)

def bare (ss : List Step) : List (Instruction × Bool) := ss.map Step.bare

@[simp] theorem bare_append (ss ts : List Step) : bare (ss ++ ts) = bare ss ++ bare ts :=
  List.map_append

theorem bare_map {α : Type} {step step' : α → Step} (h : ∀ x, (step' x).bare = (step x).bare)
    (xs : List α) : bare (xs.map step') = bare (xs.map step) := by
  rw [bare, bare, List.map_map, List.map_map]
  exact List.map_congr_left fun x _ => h x

/-- Events of two lowerings that go together. -/
inductive Event.Renamed (f : String → String) (N : Set String) : Event → Event → Prop
  | allocated {b : Allocation} (h : b.kind = .tensor → b.name ∈ N) :
      Event.Renamed f N (.allocated b) (.allocated (b.rename f))
  | folded (t : FoldedTable) : Event.Renamed f N (.folded t) (.folded t)
  | emitted (node : Int) {ss ss' : List Step} (h : bare ss' = bare ss) :
      Event.Renamed f N (.emitted node ss) (.emitted node ss')
  | dropped {s s' : Step} (h : s'.bare = s.bare) : Event.Renamed f N (.dropped s) (.dropped s')
  | lowered (b b' : Block) : Event.Renamed f N (.lowered b) (.lowered b')

/-- Drafts of two lowerings that have come equally far. -/
structure Draft.Renamed (f : String → String) (N : Set String) (d d' : Draft) : Prop where
  allocator : d.allocator.Renamed f N d'.allocator
  tables : d'.tables = d.tables
  blocks : d'.blocks.map (bare ·.steps) = d.blocks.map (bare ·.steps)
  current : bare d'.current = bare d.current
  journal : List.Forall₂ (Event.Renamed f N) d.journal d'.journal

/-- Two lowerings that fail together, or succeed together with related results. -/
def Parallel {α β : Type} (f : String → String) (N : Set String) (x : Emit α) (x' : Emit β)
    (Q : α → β → Prop) : Prop :=
  ∀ ⦃d d' : Draft⦄, d.Renamed f N d' →
    ((∀ a e, ¬x.Yields d a e) ∧ ∀ b e, ¬x'.Yields d' b e) ∨
      ∃ a b e e', x.Yields d a e ∧ x'.Yields d' b e' ∧ e.Renamed f N e' ∧ Q a b

namespace Parallel

variable {α β γ δ : Type} {N : Set String} {x : Emit α} {x' : Emit β} {Q : α → β → Prop}

theorem bind {k : α → Emit γ} {k' : β → Emit δ} {R : γ → δ → Prop} (hx : Parallel f N x x' Q)
    (hk : ∀ a b, Q a b → Parallel f N (k a) (k' b) R) :
    Parallel f N (x >>= k) (x' >>= k') R := by
  intro d d' hd
  rcases hx hd with ⟨hno, hno'⟩ | ⟨a, b, e, e', ha, hb, he, hq⟩
  · left
    constructor
    · intro c u h
      obtain ⟨a, e, ha, -⟩ := yields_bind.1 h
      exact hno a e ha
    · intro c u h
      obtain ⟨b, e, hb, -⟩ := yields_bind.1 h
      exact hno' b e hb
  · rcases hk a b hq he with ⟨hno, hno'⟩ | ⟨c, c', u, u', hc, hc', hu, hr⟩
    · -- the first part has one result, so a run of the whole goes on from there
      left
      constructor
      · intro c u h
        obtain ⟨a₁, e₁, ha₁, hc⟩ := yields_bind.1 h
        obtain ⟨rfl, rfl⟩ := ha.unique ha₁
        exact hno c u hc
      · intro c u h
        obtain ⟨b₁, e₁, hb₁, hc⟩ := yields_bind.1 h
        obtain ⟨rfl, rfl⟩ := hb.unique hb₁
        exact hno' c u hc
    · exact .inr ⟨c, c', u, u', yields_bind.2 ⟨a, e, ha, hc⟩,
        yields_bind.2 ⟨b, e', hb, hc'⟩, hu, hr⟩

theorem pure {a : α} {b : β} (h : Q a b) : Parallel f N (pure a) (pure b) Q := by
  intro d d' hd
  exact .inr ⟨a, b, d, d', yields_pure.2 ⟨rfl, rfl⟩, yields_pure.2 ⟨rfl, rfl⟩, hd, h⟩

theorem imp {R : α → β → Prop} (hx : Parallel f N x x' Q) (h : ∀ a b, Q a b → R a b) :
    Parallel f N x x' R := by
  intro d d' hd
  refine (hx hd).imp id ?_
  rintro ⟨a, b, e, e', ha, hb, he, hq⟩
  exact ⟨a, b, e, e', ha, hb, he, h a b hq⟩

theorem of_fails (h : ∀ d a e, ¬x.Yields d a e) (h' : ∀ d b e, ¬x'.Yields d b e) :
    Parallel f N x x' Q :=
  fun d d' _ => .inl ⟨h d, h' d'⟩

theorem fails_bind {k : α → Emit γ} {k' : β → Emit δ} {R : γ → δ → Prop}
    (h : ∀ d a e, ¬x.Yields d a e) (h' : ∀ d b e, ¬x'.Yields d b e) :
    Parallel f N (x >>= k) (x' >>= k') R :=
  (of_fails (Q := fun _ _ => False) h h').bind fun _ _ hq => hq.elim

theorem reads {P : α → Prop} {P' : β → Prop} (hx : ∀ d a e, x.Yields d a e ↔ P a ∧ d = e)
    (hx' : ∀ d b e, x'.Yields d b e ↔ P' b ∧ d = e) (h : ∀ a, P a → ∃ b, P' b ∧ Q a b)
    (h' : ∀ b, P' b → ∃ a, P a) : Parallel f N x x' Q := by
  intro d d' hd
  by_cases hp : ∃ a, P a
  · obtain ⟨a, ha⟩ := hp
    obtain ⟨b, hb, hq⟩ := h a ha
    exact .inr ⟨a, b, d, d', (hx ..).2 ⟨ha, rfl⟩, (hx' ..).2 ⟨hb, rfl⟩, hd, hq⟩
  · refine .inl ⟨fun a e ha => hp ⟨a, ((hx ..).1 ha).1⟩, fun b e hb => hp ?_⟩
    exact h' b ((hx' ..).1 hb).1

theorem same {x : Emit α} {P : α → Prop} (hx : ∀ d a e, x.Yields d a e ↔ P a ∧ d = e) :
    Parallel f N x x Eq :=
  reads hx hx (fun a ha => ⟨a, ha, rfl⟩) fun a ha => ⟨a, ha⟩

theorem ite {c : Prop} [Decidable c] {y : Emit α} {y' : Emit β} (h : c → Parallel f N x x' Q)
    (h' : ¬c → Parallel f N y y' Q) :
    Parallel f N (if c then x else y) (if c then x' else y') Q := by
  by_cases hc : c
  · rw [if_pos hc, if_pos hc]
    exact h hc
  · rw [if_neg hc, if_neg hc]
    exact h' hc

theorem ite_bind {c : Prop} [Decidable c] {y : Emit α} {y' : Emit β} {k : α → Emit γ}
    {k' : β → Emit δ} {R : γ → δ → Prop}
    (h : Parallel f N (if c then x else y) (if c then x' else y') Q)
    (hk : ∀ a b, Q a b → Parallel f N (k a) (k' b) R) :
    Parallel f N (if c then x >>= k else y >>= k) (if c then x' >>= k' else y' >>= k') R := by
  by_cases hc : c
  · rw [if_pos hc, if_pos hc] at h ⊢
    exact h.bind hk
  · rw [if_neg hc, if_neg hc] at h ⊢
    exact h.bind hk

theorem ofExcept (r : Except Fault α) :
    Parallel f N (MonadExcept.ofExcept r) (MonadExcept.ofExcept r) Eq :=
  same (P := fun a => r = .ok a) fun _ _ _ => yields_ofExcept

end Parallel

section

variable {N : Set String} {o : Circuit.Operation}

/-- Nothing is asked of the results. -/
abbrev Done : Unit → Unit → Prop := fun _ _ => True

theorem yields_request_of {ask : Allocator → Allocator.Reply} {d : Draft} {x : Address}
    {a : Allocator} (h : ask d.allocator = (.ok x, a)) :
    (Emit.request ask).Yields d x { d with
      allocator := a
      journal := d.journal ++
        (a.allocations.drop d.allocator.allocations.length).map Event.allocated } := by
  unfold Emit.request
  simp only [yields_bind, yields_get, yields_set]
  refine ⟨d, d, ⟨rfl, rfl⟩, (), _, rfl, ?_⟩
  rw [h]
  exact yields_pure.2 ⟨rfl, rfl⟩

theorem request_parallel {ask ask' : Allocator → Allocator.Reply}
    (h : ∀ a a', a.Renamed f N a' → Allocator.Answers f N (ask a) (ask' a')) :
    Parallel f N (Emit.request ask) (Emit.request ask') Eq := by
  intro d d' hd
  rcases h _ _ hd.allocator with ⟨e, e', he, he'⟩ | ⟨x, b, b', hb, hb', hr⟩
  · left
    constructor
    · intro x u hx
      obtain ⟨a, ha, -⟩ := Emit.yields_request hx
      simp [ha] at he
    · intro x u hx
      obtain ⟨a, ha, -⟩ := Emit.yields_request hx
      simp [ha] at he'
  · refine .inr ⟨x, x, _, _, yields_request_of hb, yields_request_of hb', ?_, rfl⟩
    refine ⟨hr, hd.tables, hd.blocks, hd.current, List.rel_append hd.journal ?_⟩
    rw [hr.blocks, hd.allocator.blocks, List.length_map, ← List.map_drop, List.map_map,
      List.forall₂_map_right_iff, List.forall₂_map_left_iff, List.forall₂_same]
    intro c hc
    exact .allocated (hr.known c (List.mem_of_mem_drop hc))

theorem modify_parallel {u u' : Draft → Draft}
    (h : ∀ d d', d.Renamed f N d' → (u d).Renamed f N (u' d')) :
    Parallel f N (modify u) (modify u') Done := by
  intro d d' hd
  exact .inr ⟨(), (), _, _, yields_modify.2 rfl, yields_modify.2 rfl, h d d' hd, trivial⟩

theorem note_parallel {ev ev' : Event} (h : ev.Renamed f N ev') :
    Parallel f N (Emit.note ev) (Emit.note ev') Done :=
  modify_parallel fun _ _ hd => ⟨hd.allocator, hd.tables, hd.blocks, hd.current,
    List.rel_append hd.journal (.cons h .nil)⟩

theorem checkWritten_parallel (ns : List Int) :
    Parallel f N (checkWritten ns) (checkWritten ns) Eq :=
  .same fun _ _ _ => yields_checkWritten

theorem scratch_parallel (purpose : String) (size : Int) :
    Parallel f N (Emit.scratch o purpose size) (Emit.scratch (o.rename f) purpose size) Eq := by
  apply (checkWritten_parallel _).bind
  rintro _ _ rfl
  apply (request_parallel fun _ _ h => h.scratch _ _ _ (by simp)).bind
  rintro x _ rfl
  exact .pure rfl

theorem get_parallel : Parallel f N get get fun d d' => d.Renamed f N d' := by
  intro d d' hd
  exact .inr ⟨d, d', d, d', yields_get.2 ⟨rfl, rfl⟩, yields_get.2 ⟨rfl, rfl⟩, hd, hd⟩

theorem table_parallel [Platform] (s : Table.Spec) :
    Parallel f N (Emit.table s) (Emit.table s) Eq := by
  rw [Emit.table]
  apply get_parallel.bind
  intro d d' hd
  rw [hd.tables]
  cases d.tables.find? (·.spec.same s) with
  | some t => exact .pure rfl
  | none =>
    apply (Parallel.ofExcept _).bind
    rintro rows _ rfl
    apply (request_parallel fun _ _ h => h.scratch _ _ _ (by simp)).bind
    rintro x _ rfl
    refine Parallel.bind (Q := Done) (modify_parallel ?_) fun _ _ _ => ?_
    · intro e e' he
      exact ⟨he.allocator, congrArg (· ++ [_]) he.tables, he.blocks, he.current, he.journal⟩
    apply (checkWritten_parallel _).bind
    rintro _ _ rfl
    apply (note_parallel (.folded _)).bind
    exact fun _ _ _ => .pure rfl

theorem steps_parallel {ss ss' : List Step} (h : bare ss' = bare ss) :
    Parallel f N (Emit.steps o ss) (Emit.steps (o.rename f) ss') Done := by
  refine Parallel.bind (Q := Done) (modify_parallel ?_) fun _ _ _ => note_parallel (.emitted _ h)
  intro d d' hd
  refine ⟨hd.allocator, hd.tables, hd.blocks, ?_, hd.journal⟩
  rw [bare_append, bare_append, hd.current, h]

theorem finish_parallel : Parallel f N (Emit.finish o) (Emit.finish (o.rename f)) Done := by
  apply get_parallel.bind
  intro d d' hd
  refine Parallel.bind (Q := Done) (modify_parallel ?_) fun _ _ _ => note_parallel (.lowered _ _)
  intro e e' he
  refine ⟨he.allocator, he.tables, ?_, he.current, he.journal⟩
  rw [List.map_append, List.map_append, he.blocks]
  exact congrArg (_ ++ [·]) hd.current

theorem isEmpty_eq_of_bare {ss ss' : List Step} (h : bare ss' = bare ss) :
    ss'.isEmpty = ss.isEmpty := by
  have hlen := congrArg List.length h
  rw [bare, bare, List.length_map, List.length_map] at hlen
  rw [Bool.eq_iff_iff, List.isEmpty_iff_length_eq_zero, List.isEmpty_iff_length_eq_zero, hlen]

theorem commented_parallel (ns : List Int) {ss ss' : List Step} (h : bare ss' = bare ss) :
    Parallel f N (Emit.commented o ns ss) (Emit.commented (o.rename f) ns ss') Done := by
  rw [Emit.commented, Emit.commented, isEmpty_eq_of_bare h]
  apply Parallel.ite
  · intro _
    apply (checkWritten_parallel _).bind
    exact fun _ _ _ => steps_parallel h
  · exact fun _ => steps_parallel h

theorem breakOff_parallel (t : Target) {ss ss' : List Step} (h : bare ss' = bare ss) :
    Parallel f N (breakOff o t ss) (breakOff (o.rename f) t ss') Done := by
  rw [breakOff, breakOff, isEmpty_eq_of_bare h]
  apply (commented_parallel [] h).bind
  intro _ _ _
  apply Parallel.ite
  · exact fun _ => (checkWritten_parallel _).imp fun _ _ _ => trivial
  · exact fun _ => .pure trivial

theorem settle_parallel (t : Target) {ss ss' start start' : List Step} (h : bare ss' = bare ss)
    (hs : bare start' = bare start) :
    Parallel f N (if t.isWritten then Emit.commented o [] ss else breakOff o t start)
      (if t.isWritten then Emit.commented (o.rename f) [] ss' else breakOff (o.rename f) t start')
      Done := by
  apply Parallel.ite
  · exact fun _ => commented_parallel [] h
  · exact fun _ => breakOff_parallel t hs

end

def Operand.rename (f : String → String) (a : Operand) : Operand :=
  { a with tensor := a.tensor.rename f }

theorem Operand.rename_shape (a : Operand) : (a.rename f).shape = a.shape := rfl

section

variable (o : Circuit.Operation) (a b : Operand)

theorem requantSteps_bare (target base : Int) (n : Nat) :
    bare (requantSteps (o.rename f) (a.rename f) target base n) =
      bare (requantSteps o a target base n) := by
  apply bare_map
  exact fun _ => rfl

theorem unarySteps_bare (negate : Bool) (zero output : Int) (n : Nat) :
    bare (unarySteps (o.rename f) negate (a.rename f) zero output n) =
      bare (unarySteps o negate a zero output n) := by
  apply bare_map
  exact fun _ => rfl

theorem lookupSteps_bare (table rows output : Int) (n : Nat) :
    bare (lookupSteps (o.rename f) (a.rename f) table rows output n) =
      bare (lookupSteps o a table rows output n) := by
  apply bare_map
  exact fun _ => rfl

theorem rescaleSteps_bare (output : Int) (n : Nat) :
    bare (rescaleSteps (o.rename f) (a.rename f) output n) = bare (rescaleSteps o a output n) := by
  apply bare_map
  exact fun _ => rfl

theorem clampSteps_bare (lo hi : Immediate) (output : Int) (n : Nat) :
    bare (clampSteps (o.rename f) (a.rename f) lo hi output n) =
      bare (clampSteps o a lo hi output n) := by
  apply bare_map
  exact fun _ => rfl

theorem finish_bare (t : Target) (label label' : String) (i : Nat) :
    bare (t.finish label i) = bare (t.finish label' i) := by
  unfold Target.finish
  split <;> rfl

theorem binarySteps_bare (op : Arithmetic) (shape : List Nat) (t : Target) :
    bare (binarySteps (o.rename f) op (a.rename f) (b.rename f) shape t) =
      bare (binarySteps o op a b shape t) := by
  rw [binarySteps, binarySteps, bare, bare, List.map_flatMap, List.map_flatMap]
  congr 1
  funext index
  rw [List.map_cons, List.map_cons]
  exact congrArg _ (finish_bare t _ _ _)

theorem binaryStart_bare (op : Arithmetic) (shape : List Nat) (t : Target) :
    bare (binaryStart (o.rename f) op (a.rename f) (b.rename f) shape t) =
      bare (binaryStart o op a b shape t) := by
  apply bare_map
  exact fun _ => rfl

theorem chain_bare (r : Reduction) (label label' : String) (i k : Nat) (acc : Int)
    (ts : List Term) : bare (r.chain label i k acc ts) = bare (r.chain label' i k acc ts) := by
  induction ts generalizing k acc with
  | nil => rfl
  | cons t ts ih => exact congrArg (_ :: ·) (ih (k + 1) (r.dest i k))

theorem elements_bare (r : Reduction) (i : Nat) (indices : List (List Nat))
    (terms : List (List Term)) :
    bare (r.elements (o.rename f) i indices terms) = bare (r.elements o i indices terms) := by
  induction indices generalizing i terms with
  | nil => rfl
  | cons index indices ih =>
    cases terms with
    | nil => rfl
    | cons ts terms =>
      rw [Reduction.elements, Reduction.elements, bare_append, bare_append, bare_append,
        bare_append, ih]
      congr 2
      · exact chain_bare r _ _ i 0 r.zero ts
      · exact finish_bare r.target _ _ i

theorem reductionStart_bare (r : Reduction) (shape : List Nat) (terms : List (List Term)) :
    bare (reductionStart (o.rename f) r shape terms) = bare (reductionStart o r shape terms) := by
  unfold reductionStart
  split
  · exact chain_bare r _ _ 0 0 r.zero _
  · rfl

end

section

variable {N : Set String} {o : Circuit.Operation}

theorem size_parallel (t : Circuit.Tensor) :
    Parallel f N (size t) (size (t.rename f)) Eq :=
  .ofExcept t.size?

theorem checkAxes_parallel [Platform] (shape : List Nat) :
    Parallel f N (checkAxes shape) (checkAxes shape) Eq :=
  .same fun _ _ _ => yields_checkAxes

theorem checkCountable_parallel [Platform] (shape : List Nat) :
    Parallel f N (checkCountable shape) (checkCountable shape) Eq :=
  .same fun _ _ _ => yields_checkCountable

theorem checkWindow_parallel [Platform] (c : Window) :
    Parallel f N (checkWindow c) (checkWindow c) Eq := by
  apply (checkCountable_parallel _).bind
  rintro _ _ rfl
  apply Parallel.ite
  · exact fun _ => checkCountable_parallel _
  · exact fun _ => .pure rfl

theorem convPair_parallel (name : String) (default : Int) :
    Parallel f N (convPair o name default) (convPair (o.rename f) name default) Eq :=
  .same fun _ _ _ => yields_convPair

theorem rescaled_parallel [Platform] (a : Operand) (target : Int) (purpose : String) :
    Parallel f N (rescaled o a target purpose) (rescaled (o.rename f) (a.rename f) target purpose)
      fun b b' => b' = b.rename f := by
  rw [rescaled, rescaled]
  apply Parallel.ite
  · exact fun _ => .pure rfl
  intro _
  apply (size_parallel a.tensor).bind
  rintro n _ rfl
  apply (scratch_parallel purpose n).bind
  rintro base _ rfl
  have hb := requantSteps_bare (f := f) o a target base n.toNat
  generalize requantSteps o a target base n.toNat = ss at hb
  generalize requantSteps (o.rename f) (a.rename f) target base n.toNat = ss' at hb
  -- only what the steps come to matters from here on: there are none on one side and on the other
  cases ss with
  | nil =>
    obtain rfl := List.map_eq_nil_iff.1 hb
    exact .pure rfl
  | cons s ss =>
    cases ss' with
    | nil => simp [bare] at hb
    | cons s' ss' =>
      have hrest : Parallel f N
          (do
            Emit.commented o [a.scale, target] (s :: ss)
            return (⟨a.tensor, base, target⟩ : Operand))
          (do
            Emit.commented (o.rename f) [a.scale, target] (s' :: ss')
            return ⟨a.tensor.rename f, base, target⟩) fun b b' => b' = b.rename f := by
        apply (commented_parallel _ hb).bind
        exact fun _ _ _ => .pure rfl
      apply (checkAxes_parallel a.shape).bind
      rintro _ _ rfl
      apply Parallel.ite
      · intro _
        exact (note_parallel (.dropped (List.cons.inj hb).1)).bind fun _ _ _ => hrest
      · exact fun _ => hrest

theorem product_parallel [Platform] (shape : List Nat) (a b : Operand) (t : Target) :
    Parallel f N
      (do
        checkCountable shape
        if t.isWritten then Emit.commented o [] (binarySteps o .mul a b shape t)
        else breakOff o t (binaryStart o .mul a b shape t))
      (do
        checkCountable shape
        if t.isWritten then
          Emit.commented (o.rename f) []
            (binarySteps (o.rename f) .mul (a.rename f) (b.rename f) shape t)
        else
          breakOff (o.rename f) t
            (binaryStart (o.rename f) .mul (a.rename f) (b.rename f) shape t)) Done := by
  apply (checkCountable_parallel shape).bind
  rintro _ _ rfl
  exact settle_parallel t (binarySteps_bare o a b .mul shape t)
    (binaryStart_bare o a b .mul shape t)

end

end Lowering

end TensorAsm
