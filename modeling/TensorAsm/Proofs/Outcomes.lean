import TensorAsm.Proofs.Emission
/-!
How a lowering ends when it fails. Each request keeps to what may be in a draft, and ends in a
refusal, in a fault that the circuit is the cause of, or with what was asked for.
-/

namespace TensorAsm

theorem Numeral.isWritable_of_lt {n : Int} {k : Nat} (h : n.natAbs < 10 ^ k)
    (hk : k ≤ lengthLimit) : isWritable n = true := by
  have hle : 10 ^ k ≤ writeLimit := by
    unfold writeLimit
    generalize lengthLimit = limit at hk ⊢
    exact Nat.pow_le_pow_right (by decide) hk
  exact decide_eq_true (h.trans_le hle)

def Circuit.Graph.Reads (g : Graph) (o : Operation) (t : Tensor) : Prop :=
  ∃ id ∈ o.inputs, g.tensor? id = some t

/-- Ids and scales are short enough to be written. -/
structure Circuit.Graph.Written (g : Graph) : Prop where
  id : ∀ o ∈ g.operations, Numeral.isWritable o.id = true
  scale : ∀ o ∈ g.operations, Numeral.isWritable o.scale = true
  read : ∀ o ∈ g.operations, ∀ t, g.Reads o t → Numeral.isWritable t.scale = true

namespace Lowering

open Circuit

/-- A change of scale before an operation: to its own scale, or to that of a product. -/
inductive Brings (g : Graph) (o : Operation) : Int → Prop
  | own {t : Tensor} (ht : g.Reads o t) : Brings g o (t.scale - o.scale)
  | product {t x y : Tensor} (ht : g.Reads o t) (hx : g.Reads o x) (hy : g.Reads o y) :
      Brings g o (t.scale - (x.scale + y.scale))

/-- The faults of a lowering that are no refusals, and what in the circuit leads to them. -/
inductive Escape [Platform] (g : Graph) (lookupBits : Json) (m : Int) : Fault → Prop
  | axes {o : Operation} {t : Tensor} (ho : o ∈ g.operations) (ht : g.Reads o t)
      (h : Platform.axisLimit < t.shape.length) :
      Escape g lookupBits m (.tooManyAxes Platform.axisLimit t.shape.length)
  | uncountable {o : Operation} {t : Tensor} {d : Nat} (ho : o ∈ g.operations)
      (ht : g.Reads o t ∨ g.tensor? o.output = some t) (hd : d ∈ t.shape)
      (h : Platform.countLimit ≤ d) : Escape g lookupBits m .outOfMemory
  | scales {o : Operation} {t u : Tensor} (ho : o ∈ g.operations) (ht : g.Reads o t)
      (hu : g.Reads o u) (h : Numeral.isWritable (t.scale + u.scale) = false) :
      Escape g lookupBits m (.invalid .unwritable)
  | alpha {o : Operation} {f : Fault} (ho : o ∈ g.operations) (hk : o.kind? = some .leakyRelu)
      (h : Table.Parameter.read ((o.param? "alpha").getD (.float 0.01)) = .error f) :
      Escape g lookupBits m f
  | breakpoints {o : Operation} {items : List Json} {f : Fault} (ho : o ∈ g.operations)
      (hk : o.kind? = some .piecewiseLinear) (hp : o.param? "breakpoints" = some (.arr items))
      (h : Table.Point.readAll items = .error f) : Escape g lookupBits m f
  | table {o : Operation} {t : Tensor} {k : Kind} {s : Table.Spec} {f : Fault}
      (ho : o ∈ g.operations) (ht : g.Reads o t) (hk : o.kind? = some k)
      (hc : k.category = .nonlinearity) (hs : Table.specFor o t.scale lookupBits = .ok s)
      (h : Table.fold s = .error f) : Escape g lookupBits m f
  | shift {o : Operation} {shift v : Int} {f : Fault} (ho : o ∈ g.operations)
      (hs : Brings g o shift) (hv : Field.Fits m v) (h : Quantity.rescaleFault? v shift = some f) :
      Escape g lookupBits m f

def refusals : List String :=
  ["UnsupportedOperation", "GraphMalformed", "ShapeMismatch", "MemoryExhausted",
    "WitnessIncomplete"]

def Refused (f : Fault) : Prop := ∃ e, f = .compile e ∧ e.kind ∈ refusals

/-- A refusal that no value is the reason of. -/
def Declined (f : Fault) : Prop :=
  ∃ e, f = .compile e ∧ e.kind ∈ refusals ∧ ∀ gap, e ≠ .witness gap

theorem Declined.refused {f : Fault} (h : Declined f) : Refused f :=
  let ⟨e, hf, hk, _⟩ := h
  ⟨e, hf, hk⟩

theorem declined_circuit (d : CircuitDefect) : Declined (.compile (.circuit d)) :=
  ⟨_, rfl, by simp [CompileError.kind, refusals]⟩

/-- All ways in which a lowering can fail of which no value is the reason. -/
def Ends [Platform] (g : Graph) (lookupBits : Json) (m : Int) (f : Fault) : Prop :=
  Declined f ∨ Escape g lookupBits m f ∨ (f = .invalid .unwritable ∧ ¬g.Written)

/-- Changes of scale that an instruction makes are made for an operation. -/
def Moves (g : Graph) (i : Instruction) : Prop :=
  ∀ d a shift, i = .rescale d a shift → ∃ o ∈ g.operations, Brings g o shift

/-- The steps of an event whose values are derived make changes of scale for operations only. -/
def Event.Lawful (g : Graph) : Event → Prop
  | .emitted _ ss => ∀ s ∈ ss, s.derived = true → Moves g s.instruction
  | .dropped s => Moves g s.instruction
  | _ => True

/-- A table is asked for by an operation. -/
def Asked (g : Graph) (lookupBits : Json) (s : Table.Spec) : Prop :=
  ∃ o ∈ g.operations, ∃ t, g.Reads o t ∧ Table.specFor o t.scale lookupBits = .ok s

structure Draft.Lawful (g : Graph) (lookupBits : Json) (d : Draft) : Prop where
  tables : ∀ t ∈ d.tables, Asked g lookupBits t.spec
  journal : ∀ e ∈ d.journal, e.Lawful g

namespace Emit

open Stateful

variable {α : Type}

variable {g : Graph} {lookupBits : Json} {m : Int} {o : Operation}

/-- A request keeps drafts lawful and ends as lowerings may. -/
abbrev Obeys [Platform] (g : Graph) (lookupBits : Json) (m : Int) (x : Emit α) (Q : α → Prop) :
    Prop :=
  x.Meets (Draft.Lawful g lookupBits) (Ends g lookupBits m) Q

theorem obeys_note [Platform] {e : Event} (h : e.Lawful g) :
    Obeys g lookupBits m (note e) fun _ => True := by
  apply meets_modify
  intro d hd
  refine ⟨hd.tables, ?_⟩
  intro e' he
  rcases List.mem_append.1 he with he | he
  · exact hd.journal e' he
  · rwa [List.mem_singleton.1 he]

theorem run_request (ask : Allocator → Allocator.Reply) (d : Draft) :
    Id.run ((request ask).run d) = ((ask d.allocator).1, { d with
      allocator := (ask d.allocator).2
      journal := d.journal ++
        ((ask d.allocator).2.allocations.drop d.allocator.allocations.length).map
          Event.allocated }) := by
  have hget : Id.run ((get : Emit Draft).run d) = (.ok d, d) := rfl
  rw [request, run_bind, hget]
  dsimp only
  rcases ask d.allocator with ⟨_ | address, a⟩ <;> rfl

theorem obeys_request [Platform] {ask : Allocator → Allocator.Reply}
    (h : ∀ a f, (ask a).1 = .error f → Ends g lookupBits m f) :
    Obeys g lookupBits m (request ask) fun _ => True := by
  intro d hd
  rw [run_request]
  refine ⟨⟨hd.tables, ?_⟩, ?_⟩
  · intro e he
    rcases List.mem_append.1 he with he | he
    · exact hd.journal e he
    · obtain ⟨b, -, rfl⟩ := List.mem_map.1 he
      trivial
  · cases hr : (ask d.allocator).1 with
    | ok address => trivial
    | error f => exact h d.allocator f hr

theorem place_ends [Platform] {a : Allocator} {r : Region} {size : Int} {name : String}
    {kind : BlockKind} {bind : Allocator → Allocation → Allocator} {f : Fault}
    (h : (a.place r size name kind bind).1 = .error f) : Ends g lookupBits m f := by
  unfold Allocator.place at h
  split at h
  · exact absurd h (by simp)
  · obtain rfl := Except.error.inj h
    exact .inl ⟨_, rfl, by simp [CompileError.kind, refusals]⟩

theorem obeys_tensor [Platform] {t : Tensor} {n : Int} (ht : t.size? = .ok n) :
    Obeys g lookupBits m (tensor t) fun _ => True := by
  apply obeys_request
  intro a f h
  unfold Allocator.allocate Allocator.allocateSized at h
  split at h
  · exact absurd h (by simp)
  · rw [ht] at h
    exact place_ends h

/-- What an operation writes in comments of its own can be written, or the graph is to blame. -/
def Comments [Platform] (g : Graph) (lookupBits : Json) (m n : Int) : Prop :=
  Numeral.isWritable n = false → Ends g lookupBits m (.invalid .unwritable)

theorem comments_id [Platform] (ho : o ∈ g.operations) : Comments g lookupBits m o.id := fun hn =>
  .inr (.inr ⟨rfl, fun hw => absurd (hw.id o ho) (by simp [hn])⟩)

theorem comments_scale [Platform] (ho : o ∈ g.operations) :
    Comments g lookupBits m o.scale := fun hn =>
  .inr (.inr ⟨rfl, fun hw => absurd (hw.scale o ho) (by simp [hn])⟩)

theorem comments_read [Platform] (ho : o ∈ g.operations) {t : Tensor} (ht : g.Reads o t) :
    Comments g lookupBits m t.scale := fun hn =>
  .inr (.inr ⟨rfl, fun hw => absurd (hw.read o ho t ht) (by simp [hn])⟩)

theorem comments_product [Platform] (ho : o ∈ g.operations) {t u : Tensor} (ht : g.Reads o t)
    (hu : g.Reads o u) : Comments g lookupBits m (t.scale + u.scale) := fun hn =>
  .inr (.inl (.scales ho ht hu hn))

theorem obeys_scratch [Platform] (ho : o ∈ g.operations) {purpose : String} {size : Int} :
    Obeys g lookupBits m (scratch o purpose size) fun _ => True := by
  apply Meets.bind (meets_checkWritten _)
  · intro _ _
    apply Meets.bind (obeys_request fun a f h => place_ends h)
    exact fun _ _ => meets_pure trivial
  · intro n hn
    rw [List.mem_singleton.1 hn]
    exact comments_id ho

theorem obeys_table [Platform] {s : Table.Spec} (hs : Asked g lookupBits s)
    (hf : ∀ f, Table.fold s = .error f → Ends g lookupBits m f)
    (hn : ∀ n ∈ s.numbers, Comments g lookupBits m n) :
    Obeys g lookupBits m (table s) fun _ => True := by
  apply Meets.bind meets_get
  intro d _
  split
  · exact meets_pure trivial
  · apply Meets.bind (meets_ofExcept hf)
    intro rows _
    apply Meets.bind (obeys_request fun a f h => place_ends h)
    intro address _
    apply Meets.bind (meets_modify _)
    · intro _ _
      apply Meets.bind (meets_checkWritten hn)
      intro _ _
      apply Meets.bind (obeys_note (show Event.Lawful g (.folded _) from trivial))
      exact fun _ _ => meets_pure trivial
    · intro e he
      refine ⟨?_, he.journal⟩
      intro t ht
      rcases List.mem_append.1 ht with ht | ht
      · exact he.tables t ht
      · rwa [List.mem_singleton.1 ht]

theorem obeys_steps [Platform] {ss : List Step}
    (h : ∀ s ∈ ss, s.derived = true → Moves g s.instruction) :
    Obeys g lookupBits m (steps o ss) fun _ => True :=
  (meets_modify fun _ hd => ⟨hd.tables, hd.journal⟩).bind fun _ _ => obeys_note h

theorem obeys_commented [Platform] (ho : o ∈ g.operations) {ns : List Int} {ss : List Step}
    (hn : ∀ n ∈ ns, Comments g lookupBits m n)
    (h : ∀ s ∈ ss, s.derived = true → Moves g s.instruction) :
    Obeys g lookupBits m (commented o ns ss) fun _ => True := by
  have hall : ∀ n ∈ o.id :: ns, Comments g lookupBits m n := by
    simpa using ⟨comments_id ho, hn⟩
  unfold commented
  split
  · exact (meets_checkWritten hall).bind fun _ _ => obeys_steps h
  · exact obeys_steps h

end Emit

theorem moves_of_ne {g : Graph} {i : Instruction} (h : ∀ d a shift, i ≠ .rescale d a shift) :
    Moves g i := fun d a shift he => absurd he (h d a shift)

section Steps

variable {g : Graph} {o : Operation}

theorem finish_derived_false {t : Target} {label : String} {i : Nat} {s : Step}
    (h : s ∈ t.finish label i) : s.derived = false := by
  unfold Target.finish at h
  split at h
  · rw [List.mem_singleton.1 h, Target.finishStep_derived]
  · simp at h

theorem binaryStep_moves {op : Arithmetic} {a b : Operand} {shape : List Nat} {t : Target}
    {index : List Nat} : Moves g (binaryStep o op a b shape t index).instruction := by
  apply moves_of_ne
  intro d c shift
  cases op <;> simp [binaryStep, Arithmetic.instruction]

theorem binarySteps_moves {op : Arithmetic} {a b : Operand} {shape : List Nat} {t : Target} :
    ∀ s ∈ binarySteps o op a b shape t, s.derived = true → Moves g s.instruction := by
  intro s hs hd
  obtain ⟨index, -, hs⟩ := List.mem_flatMap.1 hs
  rcases List.mem_cons.1 hs with rfl | hs
  · exact binaryStep_moves
  · simp [finish_derived_false hs] at hd

theorem binaryStart_moves {op : Arithmetic} {a b : Operand} {shape : List Nat} {t : Target} :
    ∀ s ∈ binaryStart o op a b shape t, s.derived = true → Moves g s.instruction := by
  intro s hs _
  obtain ⟨index, -, rfl⟩ := List.mem_map.1 hs
  exact binaryStep_moves

theorem chain_moves {r : Reduction} {label : String} {i k : Nat} {acc : Int} {ts : List Term} :
    ∀ s ∈ r.chain label i k acc ts, s.derived = true → Moves g s.instruction := by
  induction ts generalizing k acc with
  | nil => simp [Reduction.chain]
  | cons t ts ih =>
    intro s hs hd
    rcases List.mem_cons.1 hs with rfl | hs
    · apply moves_of_ne
      intro d c shift
      cases hb : t.b <;> simp [Term.instruction, hb]
    · exact ih s hs hd

theorem elements_moves {r : Reduction} {i : Nat} {indices : List (List Nat)}
    {terms : List (List Term)} :
    ∀ s ∈ r.elements o i indices terms, s.derived = true → Moves g s.instruction := by
  induction indices generalizing i terms with
  | nil => simp [Reduction.elements]
  | cons index indices ih =>
    cases terms with
    | nil => simp [Reduction.elements]
    | cons ts terms =>
      intro s hs hd
      rcases List.mem_append.1 hs with hs | hs
      · rcases List.mem_append.1 hs with hs | hs
        · exact chain_moves s hs hd
        · simp [finish_derived_false hs] at hd
      · exact ih s hs hd

theorem reductionStart_moves {r : Reduction} {shape : List Nat} {terms : List (List Term)} :
    ∀ s ∈ reductionStart o r shape terms, s.derived = true → Moves g s.instruction := by
  unfold reductionStart
  split
  · exact chain_moves
  · simp

theorem requantSteps_moves (ho : o ∈ g.operations) {a : Operand} {target base : Int} {count : Nat}
    (h : Brings g o (a.scale - target)) :
    ∀ s ∈ requantSteps o a target base count, Moves g s.instruction := by
  intro s hs d c shift he
  obtain ⟨i, -, rfl⟩ := List.mem_map.1 hs
  obtain ⟨-, -, rfl⟩ := Instruction.rescale.inj he
  exact ⟨o, ho, h⟩

theorem moves_of_final {ss : List Step} (h : ∀ s ∈ ss, s.derived = false) :
    ∀ s ∈ ss, s.derived = true → Moves g s.instruction := by
  intro s hs hd
  simp [h s hs] at hd

theorem unarySteps_final {negate : Bool} {a : Operand} {zero output : Int} {count : Nat} :
    ∀ s ∈ unarySteps o negate a zero output count, s.derived = false := by
  simp [unarySteps]

end Steps

end Lowering

end TensorAsm
