import TensorAsm.Proofs.Addresses
/-!
Any run of an allocator. Its blocks tile the regions from their first cells on, no two blocks meet,
every cell in use has one owner, and a name keeps the address it was given.
-/

namespace TensorAsm

theorem Layout.end_le_capacity (l : Layout) (r : Region) : l.base r + l.size r ≤ l.capacity := by
  have ht := l.total_le
  have hc := l.size_nonneg .control
  have hi := l.size_nonneg .input
  have hf := l.size_nonneg .fixed
  have hm := l.size_nonneg .intermediate
  have ho := l.size_nonneg .output
  simp only [Region.total, Region.all, List.foldr_cons, List.foldr_nil] at ht
  cases r <;> simp only [Layout.base] <;> omega

theorem Region.total_mono {f h : Region → Int} (hle : ∀ r, f r ≤ h r) : total f ≤ total h := by
  have hc := hle .control
  have hi := hle .input
  have hf := hle .fixed
  have hm := hle .intermediate
  have ho := hle .output
  simp only [total, all, List.foldr_cons, List.foldr_nil]
  omega

namespace Allocation

def offsets (b : Allocation) : List Int :=
  (List.range b.size.toNat).map fun (i : Nat) => b.address.offset + i

/-- One of two blocks ends before the other starts. -/
def Apart (b c : Allocation) : Prop :=
  b.address.absolute + b.size ≤ c.address.absolute ∨
    c.address.absolute + c.size ≤ b.address.absolute

theorem Apart.disjoint {b c : Allocation} (h : b.Apart c) : b.cells.Disjoint c.cells := by
  intro x hb hc
  rw [mem_cells] at hb hc
  unfold Apart at h
  omega

end Allocation

/-- The number of cells of all blocks. -/
def spread (bs : List Allocation) : Int := bs.foldr (fun b n => b.size + n) 0

theorem taken_cons (b : Allocation) (bs : List Allocation) (r : Region) :
    taken (b :: bs) r = (if b.address.region = r then b.size else 0) + taken bs r := by
  by_cases h : b.address.region = r <;> simp [taken, h]

theorem total_taken (bs : List Allocation) : Region.total (taken bs) = spread bs := by
  induction bs with
  | nil => rfl
  | cons b bs ih =>
    have hs : spread (b :: bs) = b.size + spread bs := rfl
    simp only [Region.total, Region.all, List.foldr_cons, List.foldr_nil] at ih ⊢
    rw [hs, ← ih]
    simp only [taken_cons]
    cases b.address.region <;> simp only [reduceCtorEq, if_true, if_false] <;> omega

namespace Tiles

variable {l : Layout} {bs : List Allocation}

theorem absolute_eq (h : Tiles l bs) {b : Allocation} (hb : b ∈ bs) :
    0 ≤ b.size ∧ b.address.absolute = l.base b.address.region + b.address.offset := by
  induction h with
  | nil => simp at hb
  | @snoc bs c _ ho ha hs _ ih =>
    rcases List.mem_append.1 hb with hb | hb
    · exact ih hb
    · obtain rfl := List.mem_singleton.1 hb
      exact ⟨hs, by rw [ha, ho]⟩

theorem offset_eq (h : Tiles l bs) {r : Region} {pre post : List Allocation} {b : Allocation}
    (hs : bs.filter (·.address.region == r) = pre ++ b :: post) :
    b.address.offset = spread pre := by
  induction h generalizing post with
  | nil => simp at hs
  | @snoc bs c ht ho ha hn hl ih =>
    rw [List.filter_append] at hs
    by_cases hr : c.address.region = r
    · have hc : [c].filter (·.address.region == r) = [c] := by simp [hr]
      rw [hc] at hs
      rcases List.eq_nil_or_concat post with rfl | ⟨qs, d, rfl⟩
      · obtain ⟨hpre, hcb⟩ := List.append_inj' hs rfl
        obtain rfl : c = b := by simpa using hcb
        rw [ho, hr, ← hpre]
        rfl
      · have hs' : bs.filter (·.address.region == r) ++ [c] = (pre ++ b :: qs) ++ [d] := by
          simpa using hs
        exact ih (List.append_inj' hs' rfl).1
    · exact ih (by simpa [hr] using hs)

theorem offsets_eq (h : Tiles l bs) (r : Region) :
    (bs.filter (·.address.region == r)).flatMap Allocation.offsets =
      (List.range (taken bs r).toNat).map fun (i : Nat) => (i : Int) := by
  induction h with
  | nil => rfl
  | @snoc bs c ht ho ha hn hl ih =>
    have hb := ht.taken_bounds c.address.region
    rw [List.filter_append, List.flatMap_append, ih, taken_snoc]
    by_cases hr : c.address.region = r
    · subst hr
      have hsum : (taken bs c.address.region + c.size).toNat =
          (taken bs c.address.region).toNat + c.size.toNat := by omega
      rw [if_pos rfl, hsum, List.range_add, List.map_append, List.map_map]
      congr 1
      simp only [List.filter_cons, beq_self_eq_true, if_true, List.filter_nil,
        List.flatMap_singleton, Allocation.offsets, ho]
      apply List.map_congr_left
      intro i _
      simp only [Function.comp_apply]
      omega
    · simp [hr]

theorem apart (h : Tiles l bs) : bs.Pairwise Allocation.Apart := by
  induction h with
  | nil => exact .nil
  | @snoc bs c ht ho ha hn hl ih =>
    rw [List.pairwise_append]
    refine ⟨ih, List.pairwise_singleton _ _, ?_⟩
    intro b hb d hd
    obtain rfl := List.mem_singleton.1 hd
    have hw := ht.within hb
    have hd := ht.taken_bounds d.address.region
    by_cases hr : b.address.region = d.address.region
    · rw [hr] at hw
      exact .inl (by omega)
    · have hu := ht.taken_bounds b.address.region
      rcases l.region_apart hr with hlt | hlt
      · exact .inl (by omega)
      · exact .inr (by omega)

end Tiles

namespace Allocator

/-- What an allocator may be asked for: the cells of a tensor, of which the size may be unknown,
a block of the compiler's own, or a named cell. -/
inductive Call where
  | tensor (id : String) (visibility : Circuit.Visibility) (size? : Option Int)
  | scratch (name : String) (size : Int) (region : Region) (kind : BlockKind)
  | control (name : String)

def Call.Nonneg : Call → Prop
  | .tensor _ _ size? => ∀ n ∈ size?, 0 ≤ n
  | .scratch _ size _ _ => 0 ≤ size
  | .control _ => True

def serve (a : Allocator) : Call → Reply
  | .tensor id visibility size? => a.allocateSized id visibility size?
  | .scratch name size region kind => a.scratch name size region kind
  | .control name => a.control name

/-- The allocator behind calls, some of which may have been refused. -/
def after (a : Allocator) (calls : List Call) : Allocator :=
  calls.foldl (fun a c => (a.serve c).2) a

/-- All that a call can do to an allocator. -/
inductive Moves (a : Allocator) : Allocator → Prop
  | kept (n : Nat) : Moves a { a with scratchCount := n }
  | placed {b : Allocation} {a' : Allocator} : Grows a b a' →
      b = a.next b.address.region b.size b.name b.kind → 0 ≤ b.size →
      a.used b.address.region + b.size ≤ a.layout.size b.address.region → a.Retains a' →
      Moves a a'

section

variable {a b : Allocator}

theorem place_moves {bind : Allocator → Allocation → Allocator} {kind : BlockKind}
    (hbind : Binder kind bind) (n : Nat) {r : Region} {size : Int} {name : String} (hs : 0 ≤ size)
    (hret : a.Retains (bind ({ a with scratchCount := n }.push (a.next r size name kind))
      (a.next r size name kind))) :
    Moves a ({ a with scratchCount := n }.place r size name kind bind).2 := by
  unfold place bump
  by_cases h : a.layout.size r < a.used r + size
  · have h' : ({ a with scratchCount := n } : Allocator).layout.size r <
        ({ a with scratchCount := n } : Allocator).used r + size := h
    rw [if_pos h']
    exact .kept n
  · have h' : ¬({ a with scratchCount := n } : Allocator).layout.size r <
        ({ a with scratchCount := n } : Allocator).used r + size := h
    rw [if_neg h']
    exact .placed (b := a.next r size name kind) (.of_binder hbind n) rfl hs (Int.not_lt.1 h) hret

theorem serve_moves {c : Call} (h : c.Nonneg) : Moves a (a.serve c).2 := by
  cases c with
  | tensor id visibility size? =>
    change Moves a (a.allocateSized id visibility size?).2
    unfold allocateSized
    cases hl : a.lookup? id with
    | some address => exact .kept _
    | none =>
      cases size? with
      | none => exact .kept _
      | some size =>
        have hn : a.bound? .tensor id = none := Option.map_eq_none_iff.1 hl
        exact place_moves .tensor a.scratchCount (h size rfl)
          ((Grows.of_binder .tensor _).retains hn)
  | scratch name size r kind =>
    exact place_moves .unbound (a.scratchCount + 1) h
      fun kind _ _ hc => by cases kind <;> exact hc
  | control name =>
    change Moves a (a.control name).2
    unfold control
    cases hl : a.bound? .control name with
    | some b => exact .kept _
    | none =>
      exact place_moves .control a.scratchCount (by decide)
        ((Grows.of_binder .control _).retains hl)

theorem Moves.coherent (h : Moves a b) (hc : a.Coherent) : b.Coherent := by
  cases h with
  | kept => exact ⟨hc.used_eq, fun {kind _ _} h => hc.bound_mem (by cases kind <;> exact h)⟩
  | placed hg => exact hg.coherent hc

theorem Moves.tiles (h : Moves a b) (hc : a.Coherent) (ht : Tiles a.layout a.allocations) :
    Tiles b.layout b.allocations := by
  cases h with
  | kept => exact ht
  | placed hg hb hs hr => exact hg.tiles hc ht hb hs hr

theorem Moves.retains (h : Moves a b) : a.Retains b := by
  cases h with
  | kept => exact fun kind _ _ hc => by cases kind <;> exact hc
  | placed _ _ _ _ hret => exact hret

theorem Moves.mem (h : Moves a b) {c : Allocation} (hc : c ∈ a.allocations) :
    c ∈ b.allocations := by
  cases h with
  | kept => exact hc
  | placed hg => rw [hg.allocations]; exact List.mem_append_left _ hc

theorem after_cons (a : Allocator) (c : Call) (calls : List Call) :
    a.after (c :: calls) = (a.serve c).2.after calls := rfl

theorem after_append (a : Allocator) (xs ys : List Call) :
    a.after (xs ++ ys) = (a.after xs).after ys := List.foldl_append

theorem after_induct {P : Allocator → Prop} (hstep : ∀ {a b : Allocator}, Moves a b → P a → P b)
    {calls : List Call} (h : ∀ c ∈ calls, c.Nonneg) (ha : P a) : P (a.after calls) := by
  induction calls generalizing a with
  | nil => exact ha
  | cons c calls ih =>
    rw [after_cons]
    exact ih (fun d hd => h d (by simp [hd])) (hstep (serve_moves (h c (by simp))) ha)

theorem after_coherent {calls : List Call} (h : ∀ c ∈ calls, c.Nonneg) (hc : a.Coherent) :
    (a.after calls).Coherent :=
  after_induct Moves.coherent h hc

theorem after_tiles {calls : List Call} (h : ∀ c ∈ calls, c.Nonneg) (hc : a.Coherent)
    (ht : Tiles a.layout a.allocations) :
    Tiles (a.after calls).layout (a.after calls).allocations :=
  (after_induct (P := fun a => a.Coherent ∧ Tiles a.layout a.allocations)
    (fun hm hp => ⟨hm.coherent hp.1, hm.tiles hp.1 hp.2⟩) h ⟨hc, ht⟩).2

theorem after_retains {calls : List Call} (h : ∀ c ∈ calls, c.Nonneg) :
    a.Retains (a.after calls) :=
  after_induct (P := a.Retains) (fun hm hp _ _ _ hc => hm.retains (hp hc)) h fun _ _ _ hc => hc

theorem after_mem {calls : List Call} (h : ∀ c ∈ calls, c.Nonneg) {b : Allocation}
    (hb : b ∈ a.allocations) : b ∈ (a.after calls).allocations :=
  after_induct (P := fun a => b ∈ a.allocations) (fun hm => hm.mem) h hb

end

/-- What the state of an allocator stands for. -/
structure Represents (a : Allocator) : Prop where
  tiled : ∀ r, (a.allocations.filter (·.address.region == r)).flatMap Allocation.offsets =
    (List.range (a.used r).toNat).map fun (i : Nat) => (i : Int)
  ordered : ∀ r pre b post, a.allocations.filter (·.address.region == r) = pre ++ b :: post →
    b.address.offset = spread pre ∧ 0 ≤ b.size
  used_le : ∀ r, 0 ≤ a.used r ∧ a.used r ≤ a.layout.size r
  disjoint : a.allocations.Pairwise fun b c => b.cells.Disjoint c.cells
  within : ∀ b ∈ a.allocations,
    b.address.absolute = a.layout.base b.address.region + b.address.offset ∧
      a.layout.base b.address.region ≤ b.address.absolute ∧
      b.address.absolute + b.size ≤
        a.layout.base b.address.region + a.layout.size b.address.region ∧
      b.address.absolute + b.size ≤ a.layout.capacity
  total : a.totalUsed = spread a.allocations ∧ a.totalUsed ≤ a.layout.capacity
  owned : ∀ x, x ∈ a.owners ↔ ∃ r, a.layout.base r ≤ x ∧ x < a.layout.base r + a.used r
  owner : ∀ (x : Int) (b : Allocation) (i : Nat), a.owners[x]? = some ⟨b, i⟩ ↔
    b ∈ a.allocations ∧ (i : Int) < b.size ∧ b.address.absolute + i = x
  sorted_perm : a.sorted.Perm a.allocations
  sorted_chain : a.sorted.Pairwise fun b c => b.address.absolute + b.size ≤ c.address.absolute

section

variable {a : Allocator}

theorem get_owners (ht : Tiles a.layout a.allocations) {x : Int} {b : Allocation} {i : Nat} :
    a.owners[x]? = some ⟨b, i⟩ ↔
      b ∈ a.allocations ∧ (i : Int) < b.size ∧ b.address.absolute + i = x := by
  constructor
  · intro h
    have key (bs : List Allocation) (hk : (bs.foldl claim ∅)[x]? = some ⟨b, i⟩) :
        b ∈ bs ∧ (i : Int) < b.size ∧ b.address.absolute + i = x := by
      induction bs using List.reverseRecOn with
      | nil => simp at hk
      | append_singleton bs c ih =>
        rw [List.foldl_append, List.foldl_cons, List.foldl_nil, get_claim] at hk
        split at hk
        · next hx =>
            obtain ⟨rfl, rfl⟩ := Owner.mk.inj (Option.some.inj hk)
            rw [Allocation.mem_cells] at hx
            exact ⟨by simp, by omega, by omega⟩
        · obtain ⟨hb, hi⟩ := ih hk
          exact ⟨by simp [hb], hi⟩
    exact key a.allocations h
  · rintro ⟨hb, hi, rfl⟩
    exact owner_eq ht hb hi

theorem mem_owners (hc : a.Coherent) (ht : Tiles a.layout a.allocations) {x : Int} :
    x ∈ a.owners ↔ ∃ r, a.layout.base r ≤ x ∧ x < a.layout.base r + a.used r := by
  simp only [hc.used_eq]
  rw [Std.TreeMap.mem_iff_isSome_getElem?, Option.isSome_iff_exists]
  constructor
  · rintro ⟨⟨b, i⟩, h⟩
    obtain ⟨hb, hi, rfl⟩ := (get_owners ht).1 h
    exact ⟨b.address.region, ht.cell_bounds hb (Allocation.cell_mem hi)⟩
  · rintro ⟨r, hl, hu⟩
    obtain ⟨b, hb, -, hx⟩ := ht.covered hl hu
    obtain ⟨i, hi, rfl⟩ := Allocation.exists_cell hx
    exact ⟨_, owner_eq ht hb hi⟩

/-- Blocks that are apart and in order end before the next one starts, also where blocks without
cells stand beside one. -/
theorem sorted_ends (ht : Tiles a.layout a.allocations) :
    a.sorted.Pairwise fun b c => b.address.absolute + b.size ≤ c.address.absolute := by
  have hperm : a.sorted.Perm a.allocations := List.mergeSort_perm _ _
  have hapart : a.sorted.Pairwise Allocation.Apart :=
    (hperm.pairwise_iff fun h => Or.symm h).2 ht.apart
  have hsize : ∀ b ∈ a.sorted, 0 ≤ b.size := fun b hb => (ht.absolute_eq (hperm.mem_iff.1 hb)).1
  have hle : a.sorted.Pairwise fun b c => b.address.absolute < c.address.absolute ∨
      b.address.absolute = c.address.absolute ∧ b.size ≤ c.size := by
    refine (List.pairwise_mergeSort ?_ ?_ a.allocations).imp fun {b c} h => by simpa using h
    · intro b c d
      simp only [Bool.or_eq_true, Bool.and_eq_true, decide_eq_true_eq, beq_iff_eq]
      omega
    · intro b c
      simp only [Bool.or_eq_true, Bool.and_eq_true, decide_eq_true_eq, beq_iff_eq]
      omega
  refine (hapart.and hle).imp_of_mem ?_
  intro b c hb hc h
  obtain ⟨hab, hbc⟩ := h
  have hs := hsize b hb
  have hs' := hsize c hc
  unfold Allocation.Apart at hab
  omega

theorem represents (hc : a.Coherent) (ht : Tiles a.layout a.allocations) : a.Represents where
  tiled := by
    intro r
    rw [hc.used_eq]
    exact ht.offsets_eq r
  ordered := by
    intro r pre b post hs
    have hb : b ∈ a.allocations.filter (·.address.region == r) := by simp [hs]
    exact ⟨ht.offset_eq hs, (ht.absolute_eq (List.mem_filter.1 hb).1).1⟩
  used_le := by
    intro r
    rw [hc.used_eq]
    exact ht.taken_bounds r
  disjoint := ht.apart.imp Allocation.Apart.disjoint
  within := by
    intro b hb
    have hw := ht.within hb
    have hu := ht.taken_bounds b.address.region
    have hc := a.layout.end_le_capacity b.address.region
    exact ⟨(ht.absolute_eq hb).2, hw.1, by omega, by omega⟩
  total := by
    rw [totalUsed, funext hc.used_eq]
    exact ⟨total_taken a.allocations, Int.le_trans
      (Region.total_mono fun r => (ht.taken_bounds r).2) a.layout.total_le⟩
  owned := fun _ => mem_owners hc ht
  owner := fun _ _ _ => get_owners ht
  sorted_perm := List.mergeSort_perm _ _
  sorted_chain := sorted_ends ht

end

/-- Who got an address has it for good: a tensor and a named cell are found there by every later
request, and a block of the compiler's own stays there. -/
def Call.Keeps (address : Address) (a : Allocator) : Call → Prop
  | .tensor id _ _ => a.lookup? id = some address ∧
    ∀ visibility size?, a.serve (.tensor id visibility size?) = (.ok address, a)
  | .control name => a.serve (.control name) = (.ok address, a)
  | .scratch _ _ _ _ => ∃ b ∈ a.allocations, b.address = address

section

variable {a b : Allocator} {address : Address} {name : String} {kind : BlockKind}

theorem serve_tensor_eq (h : (a.bound? .tensor name).map (·.address) = some address)
    (visibility : Circuit.Visibility) (size? : Option Int) :
    a.serve (.tensor name visibility size?) = (.ok address, a) := by
  change a.allocateSized name visibility size? = _
  have hl : a.lookup? name = some address := h
  unfold allocateSized
  rw [hl]

theorem serve_control_eq (h : (a.bound? .control name).map (·.address) = some address) :
    a.serve (.control name) = (.ok address, a) := by
  obtain ⟨b, hb, rfl⟩ := Option.map_eq_some_iff.1 h
  change a.control name = _
  rw [control, hb]

theorem serve_tensor_bound {visibility : Circuit.Visibility} {size? : Option Int}
    (h : (a.serve (.tensor name visibility size?)).1 = .ok address) :
    ((a.serve (.tensor name visibility size?)).2.bound? .tensor name).map (·.address) =
      some address := by
  cases hl : a.lookup? name with
  | some found =>
    rw [serve_tensor_eq hl] at h ⊢
    obtain rfl := Except.ok.inj h
    exact hl
  | none =>
    change (a.allocateSized name visibility size?).1 = _ at h
    change ((a.allocateSized name visibility size?).2.bound? .tensor name).map _ = _
    unfold allocateSized at h ⊢
    rw [hl] at h ⊢
    cases size? with
    | none => exact absurd h (by simp)
    | some size =>
      obtain ⟨-, rfl, hp⟩ := place_eq_ok (b := Prod.snd _) (Prod.ext h rfl)
      dsimp only
      rw [hp, bound_bindTensor, if_pos ⟨rfl, rfl⟩]
      rfl

theorem serve_control_bound (h : (a.serve (.control name)).1 = .ok address) :
    ((a.serve (.control name)).2.bound? .control name).map (·.address) = some address := by
  cases hl : (a.bound? .control name).map (·.address) with
  | some found =>
    rw [serve_control_eq hl] at h ⊢
    obtain rfl := Except.ok.inj h
    exact hl
  | none =>
    have hn := Option.map_eq_none_iff.1 hl
    change (a.control name).1 = _ at h
    change ((a.control name).2.bound? .control name).map _ = _
    rw [control, hn] at h ⊢
    obtain ⟨-, rfl, hp⟩ := place_eq_ok (b := Prod.snd _) (Prod.ext h rfl)
    dsimp only
    rw [hp, bound_bindControl, if_pos ⟨rfl, rfl⟩]
    rfl

theorem Retains.found (hr : a.Retains b)
    (h : (a.bound? kind name).map (·.address) = some address) :
    (b.bound? kind name).map (·.address) = some address := by
  obtain ⟨c, hc, rfl⟩ := Option.map_eq_some_iff.1 h
  rw [hr hc]
  rfl

theorem serve_keeps {c : Call} {later : List Call} (hl : ∀ c ∈ later, c.Nonneg)
    (h : (a.serve c).1 = .ok address) : c.Keeps address ((a.serve c).2.after later) := by
  have hr := after_retains (a := (a.serve c).2) hl
  cases c with
  | tensor id visibility size? =>
    have hb := hr.found (serve_tensor_bound h)
    exact ⟨hb, fun visibility size? => serve_tensor_eq hb visibility size?⟩
  | control name => exact serve_control_eq (hr.found (serve_control_bound h))
  | scratch name size r kind =>
    obtain ⟨-, rfl, hp⟩ := place_eq_ok (Prod.ext h rfl)
    have hm : (a.scratch name size r kind).2.allocations = _ := congrArg allocations hp
    refine ⟨_, after_mem hl (?_ : _ ∈ (a.scratch name size r kind).2.allocations), rfl⟩
    rw [hm]
    exact List.mem_append_right _ (List.mem_singleton.2 rfl)

end

/-- Behind any calls, refused ones among them, the blocks of an allocator represent its address
space, and every address that was given still stands. -/
theorem after_represents (g : Circuit.Graph) (layout : Layout) {calls : List Call}
    (h : ∀ c ∈ calls, c.Nonneg) :
    ((start g layout).after calls).Represents ∧
      ∀ pre c post address, calls = pre ++ c :: post →
        (((start g layout).after pre).serve c).1 = .ok address →
        c.Keeps address ((start g layout).after calls) := by
  have hc := coherent_start g layout
  refine ⟨represents (after_coherent h hc) (after_tiles h hc .nil), ?_⟩
  rintro pre c post address rfl hc
  rw [after_append, after_cons]
  exact serve_keeps (fun d hd => h d (by simp [hd])) hc

/-- A block without cells, a request that is refused, and a tensor asked for again. -/
def sampleCalls : List Call := [
  .control "zero", .tensor "x" .priv (some 65536), .tensor "y" .priv (some 0),
  .scratch "n1.acc" 655345 .intermediate .scratch, .tensor "x" .fixed (some 3)]

theorem refused_call_represents :
    (((start ⟨[], [], ["x"], []⟩ default).after (sampleCalls.take 3)).serve
        (.scratch "n1.acc" 655345 .intermediate .scratch)).1.toOption = none ∧
      ((start ⟨[], [], ["x"], []⟩ default).after sampleCalls).Represents ∧
      ((start ⟨[], [], ["x"], []⟩ default).after sampleCalls).lookup? "x" =
        some ⟨.input, 0, 16⟩ := by
  have h : ∀ c ∈ sampleCalls, c.Nonneg := by
    simp [sampleCalls, Call.Nonneg]
  refine ⟨by decide, (after_represents ⟨[], [], ["x"], []⟩ default h).1, ?_⟩
  exact ((after_represents ⟨[], [], ["x"], []⟩ default h).2 [.control "zero"] _ _ _ rfl rfl).1

end Allocator

end TensorAsm
