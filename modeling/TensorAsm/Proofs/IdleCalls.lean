import TensorAsm.Proofs.Allocations
/-!
Calls that leave no trace. A run of an allocator gives the addresses that it would give without the
calls that are refused and those for names that are bound.
-/

namespace TensorAsm

namespace Allocator

/-- The region and the number of cells that a call asks for, where its size is known. -/
def asks (a : Allocator) : Call → Option (Region × Int)
  | .tensor id visibility size? => size?.map (a.regionOf id visibility, ·)
  | .scratch _ size region _ => some (region, size)
  | .control _ => some (.control, 1)

/-- The call is for a tensor or a named cell that has its address already. -/
def hits (a : Allocator) : Call → Bool
  | .tensor id _ _ => (a.bound? .tensor id).isSome
  | .scratch _ _ _ _ => false
  | .control name => (a.bound? .control name).isSome

/-- What a new block is called, which kind it has and which number of scratch requests there are
then. -/
def titled (a : Allocator) : Call → String × BlockKind × Nat
  | .tensor id _ _ => (id, .tensor, a.scratchCount)
  | .scratch name _ _ kind =>
    (name ++ "#" ++ natText (a.scratchCount + 1), kind, a.scratchCount + 1)
  | .control name => (name, .control, a.scratchCount)

def Call.binder : Call → Allocator → Allocation → Allocator
  | .tensor _ _ _ => bindTensor
  | .scratch _ _ _ _ => fun a _ => a
  | .control _ => bindControl

/-- The allocator with the block that a call is given. -/
def given (a : Allocator) (c : Call) (b : Allocation) : Allocator :=
  c.binder (({ a with scratchCount := (a.titled c).2.2 } : Allocator).push b) b

section

variable {a b : Allocator} {c : Call} {r : Region} {n : Int} {name : String} {kind : BlockKind}

theorem serve_of_hit (h : a.hits c = true) : ∃ address, a.serve c = (.ok address, a) := by
  cases c with
  | tensor id visibility size? =>
    obtain ⟨b, hb⟩ := Option.isSome_iff_exists.1 h
    exact ⟨b.address, serve_tensor_eq (by rw [hb]; rfl) visibility size?⟩
  | scratch => simp [hits] at h
  | control name =>
    obtain ⟨b, hb⟩ := Option.isSome_iff_exists.1 h
    exact ⟨b.address, serve_control_eq (by rw [hb]; rfl)⟩

theorem serve_of_unknown (hn : a.hits c = false) (ha : a.asks c = none) :
    a.serve c = (.error .overflow, a) := by
  cases c with
  | tensor id visibility size? =>
    cases size? with
    | some n => simp [asks] at ha
    | none =>
      have hl : a.lookup? id = none := by
        rw [lookup?, Option.map_eq_none_iff]
        simpa [hits] using hn
      rw [serve, allocateSized, hl]
  | scratch => simp [asks] at ha
  | control => simp [asks] at ha

theorem serve_of_new (hn : a.hits c = false) (ha : a.asks c = some (r, n)) :
    a.serve c = ({ a with scratchCount := (a.titled c).2.2 } : Allocator).place r n
      (a.titled c).1 (a.titled c).2.1 c.binder := by
  cases c with
  | tensor id visibility size? =>
    cases size? with
    | none => simp [asks] at ha
    | some size =>
      obtain ⟨rfl, rfl⟩ : a.regionOf id visibility = r ∧ size = n := by simpa [asks] using ha
      have hl : a.lookup? id = none := by
        rw [lookup?, Option.map_eq_none_iff]
        simpa [hits] using hn
      rw [serve, allocateSized, hl]
      rfl
  | scratch name size region kind =>
    obtain ⟨rfl, rfl⟩ : region = r ∧ size = n := by simpa [asks] using ha
    rfl
  | control name =>
    obtain ⟨rfl, rfl⟩ : Region.control = r ∧ 1 = n := by simpa [asks] using ha
    have hl : a.bound? .control name = none := by simpa [hits] using hn
    rw [serve, control, hl]
    rfl

theorem serve_of_full (hn : a.hits c = false) (ha : a.asks c = some (r, n))
    (hl : a.layout.size r < a.used r + n) :
    ∃ e, a.serve c =
      (.error (.compile (.exhausted e)), { a with scratchCount := (a.titled c).2.2 }) := by
  have hb : ({ a with scratchCount := (a.titled c).2.2 } : Allocator).bump r n (a.titled c).1
      (a.titled c).2.1 = .error ⟨r.name, (a.titled c).1, n, a.used r, a.layout.size r⟩ := if_pos hl
  rw [serve_of_new hn ha, place, hb]
  exact ⟨_, rfl⟩

theorem serve_of_room (hn : a.hits c = false) (ha : a.asks c = some (r, n))
    (hl : a.used r + n ≤ a.layout.size r) :
    a.serve c = (.ok (a.next r n (a.titled c).1 (a.titled c).2.1).address,
      a.given c (a.next r n (a.titled c).1 (a.titled c).2.1)) := by
  have hr : ¬({ a with scratchCount := (a.titled c).2.2 } : Allocator).layout.size r <
      ({ a with scratchCount := (a.titled c).2.2 } : Allocator).used r + n := Int.not_lt.2 hl
  rw [serve_of_new hn ha, place, bump, if_neg hr]
  rfl

/-- All that can come of a call: a name is found, a size is not known, a region is full, or a block
is placed. -/
theorem serve_cases (a : Allocator) (c : Call) :
    (a.hits c = true ∧ ∃ address, a.serve c = (.ok address, a)) ∨
    (a.hits c = false ∧ a.asks c = none ∧ a.serve c = (.error .overflow, a)) ∨
    (∃ r n e, a.hits c = false ∧ a.asks c = some (r, n) ∧ a.layout.size r < a.used r + n ∧
      a.serve c =
        (.error (.compile (.exhausted e)), { a with scratchCount := (a.titled c).2.2 })) ∨
    ∃ r n, a.hits c = false ∧ a.asks c = some (r, n) ∧ a.used r + n ≤ a.layout.size r := by
  by_cases hh : a.hits c = true
  · exact .inl ⟨hh, serve_of_hit hh⟩
  rw [Bool.not_eq_true] at hh
  refine .inr ?_
  cases ha : a.asks c with
  | none => exact .inl ⟨hh, rfl, serve_of_unknown hh ha⟩
  | some request =>
    obtain ⟨r, n⟩ := request
    refine .inr ?_
    by_cases hl : a.layout.size r < a.used r + n
    · obtain ⟨e, hs⟩ := serve_of_full hh ha hl
      exact .inl ⟨r, n, e, hh, rfl, hl, hs⟩
    · exact .inr ⟨r, n, hh, rfl, Int.not_lt.1 hl⟩

theorem serve_exhausted_iff :
    (∃ e, (a.serve c).1 = .error (.compile (.exhausted e))) ↔
      a.hits c = false ∧ ∃ r n, a.asks c = some (r, n) ∧ a.layout.size r - a.used r < n := by
  rcases a.serve_cases c with ⟨hh, _, hs⟩ | ⟨-, ha, hs⟩ | ⟨r, n, e, hh, ha, hl, hs⟩ |
    ⟨r, n, hh, ha, hl⟩
  · simp [hs, hh]
  · simp [hs, ha]
  · exact ⟨fun _ => ⟨hh, r, n, ha, by omega⟩, fun _ => ⟨e, by rw [hs]⟩⟩
  · rw [serve_of_room hh ha hl]
    simp only [reduceCtorEq, exists_false, false_iff, not_and, not_exists]
    rintro - r' n' he
    obtain ⟨rfl, rfl⟩ : r = r' ∧ n = n' := by simpa using ha.symm.trans he
    omega

theorem serve_refused {f : Fault} (h : (a.serve c).1 = .error f) :
    ∃ n, (a.serve c).2 = { a with scratchCount := n } := by
  rcases a.serve_cases c with ⟨-, _, hs⟩ | ⟨-, -, hs⟩ | ⟨_, _, _, -, -, -, hs⟩ | ⟨r, n, hh, ha, hl⟩
  · simp [hs] at h
  · exact ⟨a.scratchCount, by rw [hs]⟩
  · exact ⟨_, by rw [hs]⟩
  · simp [serve_of_room hh ha hl] at h

theorem given_layout (b : Allocation) : (a.given c b).layout = a.layout := by
  cases c <;> rfl

theorem serve_layout : (a.serve c).2.layout = a.layout := by
  rcases a.serve_cases c with ⟨-, _, hs⟩ | ⟨-, -, hs⟩ | ⟨_, _, _, -, -, -, hs⟩ | ⟨r, n, hh, ha, hl⟩
  · rw [hs]
  · rw [hs]
  · rw [hs]
  · rw [serve_of_room hh ha hl, given_layout]

theorem after_layout {calls : List Call} : (a.after calls).layout = a.layout := by
  induction calls generalizing a with
  | nil => rfl
  | cons c calls ih => rw [after_cons, ih, serve_layout]

end

theorem bound_recount (a : Allocator) (n : Nat) (kind : BlockKind) (name : String) :
    ({ a with scratchCount := n } : Allocator).bound? kind name = a.bound? kind name := by
  cases kind <;> rfl

/-- What came of a call, and whether its name was bound before. -/
structure Outcome where
  call : Call
  hit : Bool
  reply : Except Fault Address

def Outcome.placed (o : Outcome) : Bool := !o.hit && o.reply.isOk

/-- What came of each of the calls of a run. -/
def outcomes (a : Allocator) : List Call → List Outcome
  | [] => []
  | c :: calls => ⟨c, a.hits c, (a.serve c).1⟩ :: (a.serve c).2.outcomes calls

end Allocator

/-- What a block is but for its name: what it holds and which cells it takes up. -/
def Allocation.range (b : Allocation) : BlockKind × Address × Int := (b.kind, b.address, b.size)

namespace Allocator

/-- Two allocators with the same cells in use, whatever they were asked for: blocks differ at most
in the names of those of the compiler's own, which have the number of a request in them. -/
structure Alike (a b : Allocator) : Prop where
  layout : a.layout = b.layout
  inputs : a.inputs = b.inputs
  outputs : a.outputs = b.outputs
  used : a.used = b.used
  ranges : a.allocations.map Allocation.range = b.allocations.map Allocation.range
  bound : ∀ kind name,
    (a.bound? kind name).map Allocation.range = (b.bound? kind name).map Allocation.range

namespace Alike

variable {a b : Allocator} {c : Call}

theorem refl (a : Allocator) : Alike a a := ⟨rfl, rfl, rfl, rfl, rfl, fun _ _ => rfl⟩

theorem recount (h : Alike a b) (n : Nat) : Alike { a with scratchCount := n } b :=
  ⟨h.layout, h.inputs, h.outputs, h.used, h.ranges, fun kind name =>
    (congrArg (Option.map _) (bound_recount a n kind name)).trans (h.bound kind name)⟩

theorem lookup_eq (h : Alike a b) : a.lookup? = b.lookup? := by
  funext id
  have hb := congrArg (Option.map fun x : BlockKind × Address × Int => x.2.1) (h.bound .tensor id)
  simp only [Option.map_map] at hb
  exact hb

theorem hits_eq (h : Alike a b) (c : Call) : a.hits c = b.hits c := by
  have hb (kind : BlockKind) (name : String) :
      (a.bound? kind name).isSome = (b.bound? kind name).isSome := by
    simpa using congrArg Option.isSome (h.bound kind name)
  cases c with
  | tensor id visibility size? => exact hb .tensor id
  | scratch => rfl
  | control name => exact hb .control name

theorem asks_eq (h : Alike a b) (c : Call) : a.asks c = b.asks c := by
  cases c with
  | tensor id visibility size? => simp only [asks, regionOf, h.inputs, h.outputs]
  | scratch => rfl
  | control => rfl

theorem next (h : Alike a b) (c : Call) (r : Region) (n : Int) :
    (a.next r n (a.titled c).1 (a.titled c).2.1).range =
      (b.next r n (b.titled c).1 (b.titled c).2.1).range := by
  cases c <;> simp [Allocation.range, Allocator.next, titled, h.used, h.layout]

theorem given (h : Alike a b) (c : Call) (r : Region) (n : Int) :
    Alike (a.given c (a.next r n (a.titled c).1 (a.titled c).2.1))
      (b.given c (b.next r n (b.titled c).1 (b.titled c).2.1)) := by
  have hn := h.next c r n
  have hused : (fun q => if q = r then a.used q + n else a.used q) =
      fun q => if q = r then b.used q + n else b.used q := by rw [h.used]
  have hranges (x y : Allocation) (hxy : x.range = y.range) :
      (a.allocations ++ [x]).map Allocation.range =
        (b.allocations ++ [y]).map Allocation.range := by
    rw [List.map_append, List.map_append, h.ranges, List.map_singleton, List.map_singleton, hxy]
  have hbound (p : BlockKind → String → Prop) [∀ kind name, Decidable (p kind name)]
      (x y : Allocation) (hxy : x.range = y.range) (kind : BlockKind) (name : String) :
      (if p kind name then some x else a.bound? kind name).map Allocation.range =
        (if p kind name then some y else b.bound? kind name).map Allocation.range := by
    split
    · exact congrArg some hxy
    · exact h.bound kind name
  cases c with
  | scratch name size region kind =>
    refine ⟨h.layout, h.inputs, h.outputs, hused, hranges _ _ hn, fun kind name => ?_⟩
    simp only [Allocator.given, Call.binder, bound_push, bound_recount]
    exact h.bound kind name
  | tensor id visibility size? =>
    refine ⟨h.layout, h.inputs, h.outputs, hused, hranges _ _ hn, fun kind name => ?_⟩
    simp only [Allocator.given, Call.binder, bound_bindTensor, bound_push, bound_recount]
    exact hbound (fun kind name => kind = .tensor ∧ id = name) _ _ hn kind name
  | control id =>
    refine ⟨h.layout, h.inputs, h.outputs, hused, hranges _ _ hn, fun kind name => ?_⟩
    simp only [Allocator.given, Call.binder, bound_bindControl, bound_push, bound_recount]
    exact hbound (fun kind name => kind = .control ∧ id = name) _ _ hn kind name

theorem serve (h : Alike a b) (c : Call) :
    (Outcome.placed ⟨c, a.hits c, (a.serve c).1⟩ = false ∧ Alike (a.serve c).2 b) ∨
    (Outcome.placed ⟨c, a.hits c, (a.serve c).1⟩ = true ∧ a.hits c = b.hits c ∧
      (a.serve c).1 = (b.serve c).1 ∧ Alike (a.serve c).2 (b.serve c).2) := by
  rcases a.serve_cases c with ⟨hh, _, hs⟩ | ⟨-, -, hs⟩ | ⟨_, _, _, -, -, -, hs⟩ |
    ⟨r, n, hh, ha, hl⟩
  · rw [hs]
    exact .inl ⟨by simp [Outcome.placed, hh], h⟩
  · rw [hs]
    exact .inl ⟨by simp [Outcome.placed, Except.isOk, Except.toBool], h⟩
  · rw [hs]
    exact .inl ⟨by simp [Outcome.placed, Except.isOk, Except.toBool], h.recount _⟩
  · have hroom : b.used r + n ≤ b.layout.size r := by
      rw [← h.used, ← h.layout]
      exact hl
    rw [serve_of_room hh ha hl, serve_of_room (h.hits_eq c ▸ hh) (h.asks_eq c ▸ ha) hroom]
    exact .inr ⟨by simp [Outcome.placed, hh, Except.isOk, Except.toBool], h.hits_eq c,
      congrArg Except.ok (congrArg (fun x => x.2.1) (h.next c r n)), h.given c r n⟩

theorem outcomes (h : Alike a b) (calls : List Call) :
    b.outcomes (((a.outcomes calls).filter Outcome.placed).map Outcome.call) =
        (a.outcomes calls).filter Outcome.placed ∧
      Alike (a.after calls)
        (b.after (((a.outcomes calls).filter Outcome.placed).map Outcome.call)) := by
  induction calls generalizing a b with
  | nil => exact ⟨rfl, h⟩
  | cons c calls ih =>
    rw [Allocator.outcomes, after_cons]
    -- the other run skips an idle call, and makes any other one as well
    rcases h.serve c with ⟨hp, hs⟩ | ⟨hp, hh, hr, hs⟩
    · rw [List.filter_cons_of_neg (by simp [hp])]
      exact ih hs
    · obtain ⟨ho, ha⟩ := ih hs
      rw [List.filter_cons_of_pos hp, List.map_cons, Allocator.outcomes, after_cons, ho, hh, hr]
      exact ⟨rfl, ha⟩

end Alike

/-- In any run a call is refused for want of memory if and only if its name is not bound and its
region has fewer cells left than it asks for. A refused call changes no block, no number of used
cells and no binding. Without the refused calls and those for a name that was bound, the others come
to the same, address by address, and the same cells are in use at the end. The reply of the
allocator is meant here: `Fault.reported` says how a refusal with too long an integer is passed
on. -/
theorem idle_calls_traceless (g : Circuit.Graph) (layout : Layout) (calls : List Call) :
    (∀ pre c post, calls = pre ++ c :: post →
      let a := (start g layout).after pre
      ((∃ e, (a.serve c).1 = .error (.compile (.exhausted e))) ↔
        a.hits c = false ∧ ∃ r n, a.asks c = some (r, n) ∧ layout.size r - a.used r < n) ∧
      ∀ f, (a.serve c).1 = .error f →
        (a.serve c).2.allocations = a.allocations ∧ (a.serve c).2.used = a.used ∧
          (a.serve c).2.tensors = a.tensors ∧ (a.serve c).2.controls = a.controls) ∧
    let kept := ((start g layout).outcomes calls).filter Outcome.placed
    let whole := (start g layout).after calls
    let rest := (start g layout).after (kept.map Outcome.call)
    (start g layout).outcomes (kept.map Outcome.call) = kept ∧ rest.used = whole.used ∧
      rest.allocations.map Allocation.range = whole.allocations.map Allocation.range ∧
      rest.lookup? = whole.lookup? := by
  refine ⟨?_, ?_⟩
  · rintro pre c post rfl
    refine ⟨?_, ?_⟩
    · rw [serve_exhausted_iff, after_layout]
      rfl
    · intro f hf
      obtain ⟨n, hs⟩ := serve_refused hf
      rw [hs]
      exact ⟨rfl, rfl, rfl, rfl⟩
  · obtain ⟨ho, ha⟩ := (Alike.refl (start g layout)).outcomes calls
    exact ⟨ho, ha.used.symm, ha.ranges.symm, ha.lookup_eq.symm⟩

/-- A tensor that is refused, then placed behind a block that came in between, names that are asked
for twice, and a block of the compiler's own that poses as a tensor. -/
def retriedCalls : List Call := [
  .control "zero", .tensor "y" .priv (some 655345), .scratch "n0.acc" 3 .intermediate .tensor,
  .control "zero", .tensor "y" .priv (some 2), .tensor "n0.acc#1" .priv (some 1)]

example :
    let a := start ⟨[], [], ["x"], []⟩ default
    let kept := (a.outcomes retriedCalls).filter Outcome.placed
    (a.outcomes retriedCalls).map Outcome.placed = [true, false, true, false, true, true] ∧
      kept.map (·.reply.toOption) = [some ⟨.control, 0, 0⟩, some ⟨.intermediate, 0, 327696⟩,
        some ⟨.intermediate, 3, 327699⟩, some ⟨.intermediate, 5, 327701⟩] := by
  decide

end Allocator

end TensorAsm
