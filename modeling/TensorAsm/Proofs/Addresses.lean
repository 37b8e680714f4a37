import Mathlib.Data.List.Nodup
import Mathlib.Data.List.Range
import TensorAsm.Allocator
import TensorAsm.Proofs.Sequences
/-!
Blocks tile the regions. Each block starts where the blocks before it in its region end, so no two
blocks share a cell and every cell in use has one owner.
-/

namespace TensorAsm

theorem Ordered.get?_put {α β : Type} [BEq α] [LawfulBEq α] [DecidableEq α] (k k' : α) (v : β)
    (m : List (α × β)) : get? k (put k' v m) = if k' = k then some v else get? k m := by
  unfold get?
  induction m with
  | nil =>
    by_cases h : k' = k
    · simp [put, h]
    · simp [put, h, List.lookup_cons, beq_false_of_ne (Ne.symm h)]
  | cons p m ih =>
    obtain ⟨x, y⟩ := p
    rw [put]
    by_cases hx : x = k'
    · subst hx
      by_cases h : x = k
      · simp [h]
      · simp [h, List.lookup_cons, beq_false_of_ne (Ne.symm h)]
    · by_cases h : k = x
      · subst h
        simp [hx, Ne.symm hx]
      · simp [List.lookup_cons, hx, ih, beq_false_of_ne h]

theorem Layout.region_apart (l : Layout) {r q : Region} (h : r ≠ q) :
    l.base r + l.size r ≤ l.base q ∨ l.base q + l.size q ≤ l.base r := by
  have hs := l.size_nonneg
  have hc := hs .control
  have hi := hs .input
  have hf := hs .fixed
  have hm := hs .intermediate
  cases r <;> cases q <;> first | exact absurd rfl h | (simp only [base]; omega)

namespace Allocation

theorem mem_cells {b : Allocation} {x : Int} :
    x ∈ b.cells ↔ b.address.absolute ≤ x ∧ x < b.address.absolute + b.size := by
  simp only [cells, List.mem_map, List.mem_range]
  constructor
  · rintro ⟨i, hi, rfl⟩
    omega
  · intro h
    exact ⟨(x - b.address.absolute).toNat, by omega, by omega⟩

theorem cell_mem {b : Allocation} {i : Nat} (h : (i : Int) < b.size) :
    b.address.absolute + i ∈ b.cells :=
  mem_cells.2 (by omega)

theorem exists_cell {b : Allocation} {x : Int} (h : x ∈ b.cells) :
    ∃ i : Nat, (i : Int) < b.size ∧ b.address.absolute + i = x := by
  rw [mem_cells] at h
  exact ⟨(x - b.address.absolute).toNat, by omega, by omega⟩

theorem cells_nodup (b : Allocation) : b.cells.Nodup :=
  List.nodup_range.map fun i j h => by simpa [Int.natCast_inj] using h

end Allocation

/-- The number of cells of a region that blocks take up. -/
def taken (bs : List Allocation) (r : Region) : Int :=
  (bs.filter (·.address.region == r)).foldr (fun b n => b.size + n) 0

theorem taken_snoc (bs : List Allocation) (b : Allocation) (r : Region) :
    taken (bs ++ [b]) r = taken bs r + if b.address.region = r then b.size else 0 := by
  unfold taken
  induction bs with
  | nil => by_cases h : b.address.region = r <;> simp [h]
  | cons c bs ih =>
    by_cases h : c.address.region = r
    · simp only [List.cons_append, List.filter_cons, h, beq_self_eq_true, if_true,
        List.foldr_cons, ih]
      omega
    · simp only [List.cons_append, List.filter_cons, beq_false_of_ne h, Bool.false_eq_true,
        if_false, ih]

/-- Blocks of which each follows those before it in its region. -/
inductive Tiles (l : Layout) : List Allocation → Prop
  | nil : Tiles l []
  | snoc {bs : List Allocation} {b : Allocation} : Tiles l bs →
      b.address.offset = taken bs b.address.region →
      b.address.absolute = l.base b.address.region + taken bs b.address.region →
      0 ≤ b.size → taken bs b.address.region + b.size ≤ l.size b.address.region →
      Tiles l (bs ++ [b])

namespace Tiles

variable {l : Layout} {bs : List Allocation}

theorem taken_bounds (h : Tiles l bs) (r : Region) : 0 ≤ taken bs r ∧ taken bs r ≤ l.size r := by
  induction h with
  | nil => exact ⟨Int.le_refl 0, l.size_nonneg r⟩
  | @snoc bs b _ _ _ hs ht ih =>
    rw [taken_snoc]
    split
    · next hr =>
        subst hr
        omega
    · omega

theorem within (h : Tiles l bs) {b : Allocation} (hb : b ∈ bs) :
    l.base b.address.region ≤ b.address.absolute ∧
      b.address.absolute + b.size ≤ l.base b.address.region + taken bs b.address.region := by
  induction h with
  | nil => simp at hb
  | @snoc bs c ht ho ha hs hl ih =>
    rw [taken_snoc]
    rcases List.mem_append.1 hb with hb | hb
    · have hw := ih hb
      split <;> omega
    · obtain rfl := List.mem_singleton.1 hb
      have hb := ht.taken_bounds b.address.region
      rw [if_pos rfl]
      omega

theorem cell_bounds (h : Tiles l bs) {b : Allocation} (hb : b ∈ bs) {x : Int} (hx : x ∈ b.cells) :
    l.base b.address.region ≤ x ∧ x < l.base b.address.region + taken bs b.address.region := by
  have hw := h.within hb
  have hm := Allocation.mem_cells.1 hx
  omega

theorem region_eq (h : Tiles l bs) {b : Allocation} (hb : b ∈ bs) {x : Int} (hx : x ∈ b.cells)
    {r : Region} (hr : l.base r ≤ x ∧ x < l.base r + l.size r) : b.address.region = r := by
  by_contra hne
  have hc := h.cell_bounds hb hx
  have ht := h.taken_bounds b.address.region
  have ha := l.region_apart hne
  omega

theorem cells_nodup (h : Tiles l bs) : (bs.flatMap Allocation.cells).Nodup := by
  induction h with
  | nil => simp
  | @snoc bs b ht ho ha hs hl ih =>
    rw [List.flatMap_append, List.flatMap_singleton, List.nodup_append]
    refine ⟨ih, b.cells_nodup, ?_⟩
    rintro x hx _ hy rfl
    obtain ⟨c, hc, hxc⟩ := List.mem_flatMap.1 hx
    have hb := Allocation.mem_cells.1 hy
    have hn := ht.taken_bounds b.address.region
    have hr : c.address.region = b.address.region := ht.region_eq hc hxc (by omega)
    have hw := ht.cell_bounds hc hxc
    rw [hr] at hw
    omega

theorem owner_unique (h : Tiles l bs) {b c : Allocation} (hb : b ∈ bs) (hc : c ∈ bs) {x : Int}
    (hxb : x ∈ b.cells) (hxc : x ∈ c.cells) : b = c :=
  Sequences.eq_of_mem_both h.cells_nodup hb hc hxb hxc

theorem covered (h : Tiles l bs) {r : Region} {x : Int} (hl : l.base r ≤ x)
    (hu : x < l.base r + taken bs r) : ∃ b ∈ bs, b.address.region = r ∧ x ∈ b.cells := by
  induction h with
  | nil =>
    have h0 : taken [] r = 0 := rfl
    omega
  | @snoc bs b ht ho ha hs hb ih =>
    by_cases hx : x < l.base r + taken bs r
    · obtain ⟨c, hc, hr, hm⟩ := ih hx
      exact ⟨c, by simp [hc], hr, hm⟩
    · rw [taken_snoc] at hu
      split at hu
      · next hr =>
          subst hr
          exact ⟨b, by simp, rfl, Allocation.mem_cells.2 (by omega)⟩
      · omega

end Tiles

namespace Allocator

theorem get_claim (m : Std.TreeMap Int Owner) (b : Allocation) (x : Int) :
    (claim m b)[x]? =
      if x ∈ b.cells then some ⟨b, (x - b.address.absolute).toNat⟩ else m[x]? := by
  have hn (n : Nat) : ((List.range n).foldl
      (fun m (i : Nat) => m.insert (b.address.absolute + i) (Owner.mk b i)) m)[x]? =
      if b.address.absolute ≤ x ∧ x < b.address.absolute + n then
        some ⟨b, (x - b.address.absolute).toNat⟩ else m[x]? := by
    induction n with
    | zero => rw [if_neg (by omega)]; rfl
    | succ n ih =>
      rw [List.range_succ, List.foldl_append, List.foldl_cons, List.foldl_nil,
        Std.TreeMap.getElem?_insert, ih]
      by_cases he : b.address.absolute + n = x
      · subst he
        rw [if_pos (by simp), if_pos (by omega)]
        congr 2
        omega
      · rw [if_neg (by simpa using he)]
        congr 1
        exact propext ⟨fun h => by omega, fun h => by omega⟩
  rw [claim, hn]
  congr 1
  rw [Allocation.mem_cells]
  exact propext ⟨fun h => by omega, fun h => by omega⟩

theorem owner_eq {a : Allocator} (h : Tiles a.layout a.allocations) {b : Allocation}
    (hb : b ∈ a.allocations) {i : Nat} (hi : (i : Int) < b.size) :
    a.owners[b.address.absolute + i]? = some ⟨b, i⟩ := by
  have key {bs : List Allocation} (h : Tiles a.layout bs) (hb : b ∈ bs) :
      (bs.foldl claim ∅)[b.address.absolute + i]? = some ⟨b, i⟩ := by
    induction h with
    | nil => simp at hb
    | @snoc bs c ht ho ha hs hl ih =>
      have hall := Tiles.snoc ht ho ha hs hl
      rw [List.foldl_append, List.foldl_cons, List.foldl_nil, get_claim]
      split
      · next hc =>
          obtain rfl := hall.owner_unique hb (by simp) (Allocation.cell_mem hi) hc
          congr 2
          omega
      · next hc =>
          rcases List.mem_append.1 hb with hb | hb
          · exact ih hb
          · exact absurd (Allocation.cell_mem hi) (List.mem_singleton.1 hb ▸ hc)
  exact key h hb

/-- What an allocator keeps beside its blocks agrees with them. -/
structure Coherent (a : Allocator) : Prop where
  used_eq : ∀ r, a.used r = taken a.allocations r
  bound_mem : ∀ {kind name b}, a.bound? kind name = some b →
    b ∈ a.allocations ∧ b.kind = kind ∧ b.name = name

/-- Whatever a name is bound to stays so. -/
def Retains (a b : Allocator) : Prop :=
  ∀ ⦃kind name c⦄, a.bound? kind name = some c → b.bound? kind name = some c

theorem coherent_start (g : Circuit.Graph) (layout : Layout) : (start g layout).Coherent where
  used_eq := fun _ => rfl
  bound_mem := fun {kind _ _} h => by cases kind <;> simp [start, bound?, Ordered.get?] at h

section

variable (a : Allocator) (b : Allocation) (kind : BlockKind) (name : String)

@[simp] theorem bound_push : (a.push b).bound? kind name = a.bound? kind name := by
  cases kind <;> rfl

theorem bound_bindTensor : (a.bindTensor b).bound? kind name =
    if kind = .tensor ∧ b.name = name then some b else a.bound? kind name := by
  cases kind <;> simp [bindTensor, bound?, Ordered.get?_put]

theorem bound_bindControl : (a.bindControl b).bound? kind name =
    if kind = .control ∧ b.name = name then some b else a.bound? kind name := by
  cases kind <;> simp [bindControl, bound?, Ordered.get?_put]

end

theorem place_eq_ok {a b : Allocator} {r : Region} {size : Int} {name : String} {kind : BlockKind}
    {bind : Allocator → Allocation → Allocator} {address : Address}
    (h : a.place r size name kind bind = (.ok address, b)) :
    a.used r + size ≤ a.layout.size r ∧ address = (a.next r size name kind).address ∧
      b = bind (a.push (a.next r size name kind)) (a.next r size name kind) := by
  unfold place bump at h
  by_cases hr : a.layout.size r < a.used r + size
  · simp [hr] at h
  · simp only [hr, if_false, Prod.mk.injEq, Except.ok.injEq] at h
    exact ⟨Int.not_lt.1 hr, h.1.symm, h.2.symm⟩

/-- The ways to bind a new block of a kind: to the name of a tensor, to that of a cell, or not. -/
inductive Binder : BlockKind → (Allocator → Allocation → Allocator) → Prop
  | tensor : Binder .tensor bindTensor
  | control : Binder .control bindControl
  | unbound {kind : BlockKind} : Binder kind fun a _ => a

theorem Binder.bound {kind : BlockKind} {bind : Allocator → Allocation → Allocator}
    (h : Binder kind bind) : ∃ takes : Bool, ∀ (a : Allocator) (b : Allocation) (k : BlockKind)
      (name : String), b.kind = kind →
      (bind (a.push b) b).bound? k name =
        if takes = true ∧ k = kind ∧ b.name = name then some b else a.bound? k name := by
  cases h with
  | tensor => exact ⟨true, fun a b k name _ => by simp [bound_bindTensor]⟩
  | control => exact ⟨true, fun a b k name _ => by simp [bound_bindControl]⟩
  | unbound => exact ⟨false, fun a b k name _ => by simp⟩

theorem Binder.same {kind : BlockKind} {bind : Allocator → Allocation → Allocator}
    (h : Binder kind bind) (a : Allocator) (b : Allocation) :
    (bind a b).layout = a.layout ∧ (bind a b).inputs = a.inputs ∧ (bind a b).outputs = a.outputs ∧
      (bind a b).used = a.used ∧ (bind a b).allocations = a.allocations ∧
      (bind a b).scratchCount = a.scratchCount := by
  cases h <;> exact ⟨rfl, rfl, rfl, rfl, rfl, rfl⟩

/-- An allocator with one more block, which is bound to its name or not. -/
structure Grows (a : Allocator) (b : Allocation) (a' : Allocator) : Prop where
  layout : a'.layout = a.layout
  inputs : a'.inputs = a.inputs
  outputs : a'.outputs = a.outputs
  used : ∀ r, a'.used r = if r = b.address.region then a.used r + b.size else a.used r
  allocations : a'.allocations = a.allocations ++ [b]
  bound : ∀ kind name, a'.bound? kind name = a.bound? kind name ∨
    kind = b.kind ∧ name = b.name ∧ a'.bound? kind name = some b

namespace Grows

variable {a a' : Allocator} {b : Allocation} {bind : Allocator → Allocation → Allocator}

theorem of_binder (h : Binder b.kind bind) (n : Nat) :
    Grows a b (bind ({ a with scratchCount := n }.push b) b) := by
  obtain ⟨takes, hb⟩ := h.bound
  obtain ⟨hl, hi, ho, hu, ha, -⟩ := h.same ({ a with scratchCount := n }.push b) b
  refine ⟨hl, hi, ho, fun r => congrFun hu r, ha, fun kind name => ?_⟩
  rw [hb _ b kind name rfl]
  split
  · next he => exact .inr ⟨he.2.1, he.2.2.symm, rfl⟩
  · exact .inl (by cases kind <;> rfl)

theorem of_scratch {name : String} {size : Int} {r : Region} {kind : BlockKind} {address : Address}
    (h : a.scratch name size r kind = (.ok address, a')) :
    a.used r + size ≤ a.layout.size r ∧ ∃ b,
      b = a.next r size (name ++ "#" ++ natText (a.scratchCount + 1)) kind ∧
        address = b.address ∧ Grows a b a' := by
  obtain ⟨hr, rfl, rfl⟩ := place_eq_ok h
  exact ⟨hr, _, rfl, rfl, of_binder .unbound (a.scratchCount + 1)⟩

theorem coherent (h : Grows a b a') (hc : a.Coherent) : a'.Coherent where
  used_eq := by
    intro r
    rw [h.used, h.allocations, taken_snoc, hc.used_eq]
    by_cases hr : r = b.address.region
    · rw [if_pos hr, if_pos hr.symm]
    · rw [if_neg hr, if_neg (Ne.symm hr), Int.add_zero]
  bound_mem := by
    intro kind name c hb
    rw [h.allocations]
    rcases h.bound kind name with he | ⟨rfl, rfl, he⟩
    · obtain ⟨hm, hk⟩ := hc.bound_mem (he ▸ hb)
      exact ⟨List.mem_append_left _ hm, hk⟩
    · obtain rfl := Option.some.inj (he.symm.trans hb)
      exact ⟨by simp, rfl, rfl⟩

theorem regionOf_eq (h : Grows a b a') (id : String) (visibility : Circuit.Visibility) :
    a'.regionOf id visibility = a.regionOf id visibility := by
  rw [regionOf, regionOf, h.inputs, h.outputs]

theorem retains (h : Grows a b a') (hfree : a.bound? b.kind b.name = none) : a.Retains a' := by
  intro kind name c hc
  rcases h.bound kind name with he | ⟨rfl, rfl, -⟩
  · rw [he, hc]
  · exact absurd hfree (by simp [hc])

theorem tiles (h : Grows a b a') (hc : a.Coherent) (ht : Tiles a.layout a.allocations)
    (hb : b = a.next b.address.region b.size b.name b.kind) (hs : 0 ≤ b.size)
    (hr : a.used b.address.region + b.size ≤ a.layout.size b.address.region) :
    Tiles a'.layout a'.allocations := by
  rw [h.layout, h.allocations]
  have ho : b.address.offset = a.used b.address.region := congrArg (·.address.offset) hb
  have ha : b.address.absolute = a.layout.base b.address.region + a.used b.address.region :=
    congrArg (·.address.absolute) hb
  rw [hc.used_eq] at ho ha hr
  exact .snoc ht ho ha hs hr

end Grows

end Allocator

end TensorAsm
