import TensorAsm.Proofs.Strictness
/-!
Programs at other addresses. A map that is one to one on the cells of a program, and keeps the rows
of its tables together, takes every run of the program to a run of the relocated one, step by step.
-/

namespace TensorAsm

def Instruction.relocate (φ : Int → Int) : Instruction → Instruction
  | .add d a b => .add (φ d) (φ a) (φ b)
  | .sub d a b => .sub (φ d) (φ a) (φ b)
  | .mul d a b => .mul (φ d) (φ a) (φ b)
  | .mac d c a b => .mac (φ d) (φ c) (φ a) (φ b)
  | .rescale d a shift => .rescale (φ d) (φ a) shift
  | .clamp d a lo hi => .clamp (φ d) (φ a) lo hi
  | .lookup d a t rows => .lookup (φ d) (φ a) (φ t) rows
  | .halt => .halt

theorem Instruction.dest?_relocate (φ : Int → Int) (i : Instruction) :
    (i.relocate φ).dest? = i.dest?.map φ := by
  cases i <;> rfl

/-- The fault of a replay with its cells moved; no other fault is about cells. -/
def Fault.relocate (φ : Int → Int) : Fault → Fault
  | .compile (.replay ⟨a, pc, .outsideTable v t⟩) =>
    .compile (.replay ⟨φ a, pc, .outsideTable v (φ t)⟩)
  | .compile (.replay ⟨a, pc, cause⟩) => .compile (.replay ⟨φ a, pc, cause⟩)
  | f => f

namespace Machine

/-- The result with the cells of its fault moved. -/
abbrev moved {α : Type} (φ : Int → Int) (r : Except Fault α) : Except Fault α :=
  r.mapError (Fault.relocate φ)

section

variable {α β : Type} {φ : Int → Int}

theorem moved_bind {x x' : Except Fault α} {f f' : α → Except Fault β} (hx : x' = moved φ x)
    (hf : ∀ a, x = .ok a → f' a = moved φ (f a)) : (x' >>= f') = moved φ (x >>= f) := by
  subst hx
  cases x with
  | error f => rfl
  | ok a => exact hf a rfl

theorem moved_mapM {R : α → α → Prop} {xs xs' : List α} (h : List.Forall₂ R xs xs')
    {f f' : α → Except Fault β} (hf : ∀ x x', x ∈ xs → R x x' → f' x' = moved φ (f x)) :
    xs'.mapM f' = moved φ (xs.mapM f) := by
  induction h with
  | nil => rfl
  | @cons x x' xs xs' hx _ ih =>
    rw [List.mapM_cons, List.mapM_cons]
    refine moved_bind (hf x x' (by simp) hx) fun y _ => ?_
    exact moved_bind (ih fun z z' hz => hf z z' (by simp [hz])) fun ys _ => rfl

theorem moved_nonzero (m v : Int) : moved φ (Field.nonzero m v) = Field.nonzero m v := by
  rw [Field.nonzero]
  split <;> rfl

theorem moved_rescale? [Platform] (v shift : Int) :
    moved φ (Quantity.rescale? v shift) = Quantity.rescale? v shift := by
  cases hr : Quantity.rescale? v shift with
  | ok w => rfl
  | error f => rcases Quantity.rescale?_error hr with rfl | rfl <;> rfl

theorem readSignedAfter_moved {s s' : State} {m : Int} {n : Nat} {base base' : Int}
    (h : ∀ i : Nat, i < n →
      ∃ v, s.memory[base + (i : Int)]? = some v ∧ s'.memory[base' + (i : Int)]? = some v)
    (done : List Int) :
    s'.readSignedAfter m done base' n = moved φ (s.readSignedAfter m done base n) := by
  induction n generalizing base base' done with
  | zero => rfl
  | succ n ih =>
    obtain ⟨v, hv, hv'⟩ := h 0 (by omega)
    have hread : s.read base = .ok v := State.read_eq_ok.2 (by simpa using hv)
    have hread' : s'.read base' = .ok v := State.read_eq_ok.2 (by simpa using hv')
    have hcentre : moved φ (Field.centre? m v) = Field.centre? m v := moved_nonzero m _
    rw [State.readSignedAfter, State.readSignedAfter, hread, hread']
    dsimp only
    cases hc : Field.centre? m v with
    | error f =>
      rw [hc] at hcentre
      exact congrArg Except.error (Except.error.inj hcentre).symm
    | ok c =>
      apply ih
      intro i hi
      have hcast (z : Int) : z + 1 + (i : Int) = z + ((i + 1 : Nat) : Int) := by omega
      rw [hcast base, hcast base']
      exact h (i + 1) (by omega)

end

/-- States that differ by a move of the cells that they hold. -/
structure State.Relocated (φ : Int → Int) (D : Set Int) (s s' : State) : Prop where
  memory : ∀ x ∈ D, s'.memory[φ x]? = s.memory[x]?
  within : ∀ x ∉ D, s.memory[x]? = none
  outside : ∀ y ∉ φ '' D, s'.memory[y]? = none
  tables : List.Forall₂
    (fun t t' => t.1.1 ∈ D ∧ t' = ((φ t.1.1, t.1.2), t.2)) s.tables s'.tables
  pc : s'.pc = s.pc
  steps : s'.steps = s.steps
  halted : s'.halted = s.halted

/-- The cells that an instruction names can be moved, and the rows of its table stay together. -/
structure Movable (φ : Int → Int) (D : Set Int) (i : Instruction) : Prop where
  dest : ∀ c ∈ i.dest?, c ∈ D
  reads : ∀ c ∈ i.reads, c ∈ D
  rows : ∀ d a t n, i = .lookup d a t n → ∀ k : Nat, k < 2 * n.toNat →
    t + k ∈ D ∧ φ (t + k) = φ t + k

theorem Movable.relocate_eq {φ : Int → Int} {D : Set Int} {i : Instruction} (h : Movable φ D i)
    (hφ : ∀ x ∈ D, φ x = x) : i.relocate φ = i := by
  have hd : ∀ c ∈ i.dest?, φ c = c := fun c hc => hφ c (h.dest c hc)
  have hr : ∀ c ∈ i.reads, φ c = c := fun c hc => hφ c (h.reads c hc)
  cases i <;>
    simp_all [Instruction.relocate, Instruction.dest?, Instruction.reads, Instruction.form]

namespace State.Relocated

variable {φ : Int → Int} {D : Set Int} {s s' : State} {m : Int} {a : Int}

theorem read (h : Relocated φ D s s') (ha : a ∈ D) : s'.read (φ a) = moved φ (s.read a) := by
  rw [State.read, State.read, h.memory a ha]
  cases s.memory[a]? with
  | some v => rfl
  | none =>
    rw [State.inconsistent, State.inconsistent, h.pc]
    rfl

theorem addRows (h : Relocated φ D s s') {n : Nat} {base base' : Int}
    (hrows : ∀ k : Nat, k < 2 * n → base + k ∈ D ∧ φ (base + k) = base' + k) (t : Memory) :
    s'.addRows t base' n = moved φ (s.addRows t base n) := by
  induction n generalizing base base' t with
  | zero => rfl
  | succ n ih =>
    obtain ⟨hkey, hkey'⟩ := hrows 0 (by omega)
    obtain ⟨hval, hval'⟩ := hrows 1 (by omega)
    simp only [Int.natCast_zero, Int.add_zero, Int.natCast_one] at hkey hkey' hval hval'
    have hnext : ∀ k : Nat, k < 2 * n → base + 2 + k ∈ D ∧ φ (base + 2 + k) = base' + 2 + k := by
      intro k hk
      have hk := hrows (k + 2) (by omega)
      have hcast : ((k + 2 : Nat) : Int) = 2 + k := by omega
      rwa [hcast, ← Int.add_assoc, ← Int.add_assoc] at hk
    have hread := h.read hkey
    have hread' := h.read hval
    rw [hkey'] at hread
    rw [hval'] at hread'
    rw [State.addRows, State.addRows, hread, hread']
    cases s.read base with
    | error f => rfl
    | ok key =>
      cases s.read (base + 1) with
      | error f => rfl
      | ok value => exact ih hnext _

theorem lookup_tables (hφ : Set.InjOn φ D) {ts ts' : List ((Int × Int) × Memory)}
    (h : List.Forall₂ (fun t t' => t.1.1 ∈ D ∧ t' = ((φ t.1.1, t.1.2), t.2)) ts ts') {base : Int}
    (hb : base ∈ D) (rows : Int) : ts'.lookup (φ base, rows) = ts.lookup (base, rows) := by
  induction h with
  | nil => rfl
  | @cons t t' ts ts' ht _ ih =>
    obtain ⟨⟨b, r⟩, table⟩ := t
    obtain ⟨hd, rfl⟩ := ht
    have hkey : ((φ base, rows) == (φ b, r)) = ((base, rows) == (b, r)) := by
      rw [Bool.eq_iff_iff, beq_iff_eq, beq_iff_eq, Prod.mk.injEq, Prod.mk.injEq, hφ.eq_iff hb hd]
    rw [List.lookup_cons, List.lookup_cons, hkey, ih]

theorem table (h : Relocated φ D s s') (hφ : Set.InjOn φ D) {base rows : Int} (hb : base ∈ D)
    (hrows : ∀ k : Nat, k < 2 * rows.toNat → base + k ∈ D ∧ φ (base + k) = φ base + k) :
    (s'.table (φ base) rows).1 = moved φ (s.table base rows).1 ∧
      Relocated φ D (s.table base rows).2 (s'.table (φ base) rows).2 := by
  rw [State.table, State.table, lookup_tables hφ h.tables hb]
  cases s.tables.lookup (base, rows) with
  | some t => exact ⟨rfl, h⟩
  | none =>
    have hbuild : s'.buildTable (φ base) rows = moved φ (s.buildTable base rows) :=
      h.addRows hrows ∅
    rw [hbuild]
    cases s.buildTable base rows with
    | error f => exact ⟨rfl, h⟩
    | ok t =>
      exact ⟨rfl, h.memory, h.within, h.outside, .cons ⟨hb, rfl⟩ h.tables, h.pc, h.steps,
        h.halted⟩

theorem search (h : Relocated φ D s s') (ha : a ∈ D) (t : Memory) (base : Int) :
    s'.search m t (φ a) (φ base) = moved φ (s.search m t a base) := by
  apply moved_bind (h.read ha)
  intro key _
  cases t[key]? with
  | some v => rfl
  | none =>
    apply moved_bind (moved_nonzero _ _).symm
    intro v _
    rw [State.inconsistent, State.inconsistent, h.pc]
    rfl

theorem compute [Platform] (h : Relocated φ D s s') (hφ : Set.InjOn φ D) {i : Instruction}
    (hi : Movable φ D i) :
    (s'.compute m (i.relocate φ)).1 = moved φ (s.compute m i).1 ∧
      Relocated φ D (s.compute m i).2 (s'.compute m (i.relocate φ)).2 := by
  have hread : ∀ c ∈ i.reads, s'.read (φ c) = moved φ (s.read c) := fun c hc =>
    h.read (hi.reads c hc)
  have hencode (v : Int) : Field.encode? m v = moved φ (Field.encode? m v) :=
    (moved_nonzero _ _).symm
  have hcentre (v : Int) : Field.centre? m v = moved φ (Field.centre? m v) :=
    (moved_nonzero _ _).symm
  have hpair {a b : Int} (ha : s'.read (φ a) = moved φ (s.read a))
      (hb : s'.read (φ b) = moved φ (s.read b)) (f : Int → Int → Int) :
      (do Field.encode? m (f (← s'.read (φ a)) (← s'.read (φ b)))) =
        moved φ (do Field.encode? m (f (← s.read a) (← s.read b))) :=
    moved_bind ha fun _ _ => moved_bind hb fun _ _ => hencode _
  cases i with
  | add d a b => exact ⟨hpair (hread a (.head _)) (hread b (.tail _ (.head _))) (· + ·), h⟩
  | sub d a b => exact ⟨hpair (hread a (.head _)) (hread b (.tail _ (.head _))) (· - ·), h⟩
  | mul d a b => exact ⟨hpair (hread a (.head _)) (hread b (.tail _ (.head _))) (· * ·), h⟩
  | mac d c a b =>
    refine ⟨moved_bind (hread c (.head _)) fun x _ => ?_, h⟩
    exact hpair (hread a (.tail _ (.head _))) (hread b (.tail _ (.tail _ (.head _))))
      fun y z => x + y * z
  | rescale d a shift =>
    refine ⟨moved_bind (hread a (.head _)) fun x _ => ?_, h⟩
    apply moved_bind (hcentre x)
    intro y _
    apply moved_bind (moved_rescale? y shift).symm
    exact fun z _ => hencode z
  | clamp d a lo hi =>
    refine ⟨moved_bind (hread a (.head _)) fun x _ => ?_, h⟩
    apply moved_bind (hcentre x)
    exact fun y _ => hencode _
  | lookup d a t rows =>
    obtain ⟨hout, hnext⟩ := h.table hφ (hi.reads t (.tail _ (.head _))) (hi.rows d a t rows rfl)
    rw [Instruction.relocate, State.compute, State.compute]
    generalize s.table t rows = r at hout hnext ⊢
    generalize s'.table (φ t) rows = r' at hout hnext ⊢
    obtain ⟨out, next⟩ := r
    obtain ⟨out', next'⟩ := r'
    obtain rfl : out' = moved φ out := hout
    cases out with
    | error f => exact ⟨rfl, hnext⟩
    | ok table => exact ⟨hnext.search (hi.reads a (.head _)) table t, hnext⟩
  | halt => exact ⟨rfl, h⟩

end State.Relocated

/-- Whether a machine accepts another value than a cell holds, within its tolerance. -/
def Settings.Slack (c : Settings) (x : Int) : Prop :=
  x ∈ c.tolerant ∧ ¬ ∃ t, c.tolerance = some t ∧ t ≤ 0.0

/-- Machines that differ by a move of the cells that have slack. -/
structure Settings.Relocated (φ : Int → Int) (D : Set Int) (c c' : Settings) : Prop where
  modulus : c'.modulus = c.modulus
  strict : c'.strict = c.strict
  tolerance : c'.tolerance = c.tolerance
  slack : ∀ x ∈ D, c'.Slack (φ x) ↔ c.Slack x

section

variable {φ : Int → Int} {D : Set Int} {c c' : Settings} {s s' : State} {d : Int}

theorem accepts_of_not_slack {x : Int} (h : ¬ c.Slack x) (held v : Int) :
    c.accepts x held v = .ok false := by
  rw [Settings.accepts]
  by_cases hx : x ∈ c.tolerant
  · obtain ⟨t, ht, hle⟩ := not_not.1 (not_and.1 h hx)
    rw [if_neg (not_not_intro hx), ht]
    exact if_pos hle
  · exact if_pos hx

theorem moved_accepts (x held v : Int) : moved φ (c.accepts x held v) = c.accepts x held v := by
  have hfloat (n : Int) : Json.floatOfInt n = moved φ (Json.floatOfInt n) := by
    rw [Json.floatOfInt]
    cases Binary64.ofInt? n <;> rfl
  rw [Settings.accepts]
  by_cases hx : x ∉ c.tolerant
  · rw [if_pos hx]
    rfl
  · rw [if_neg hx]
    cases c.tolerance with
    | none => rfl
    | some t =>
      dsimp only
      split
      · rfl
      · refine (moved_bind (moved_nonzero _ _).symm fun _ _ => ?_).symm
        refine moved_bind (moved_nonzero _ _).symm fun _ _ => ?_
        exact moved_bind (hfloat _) fun _ _ => rfl

theorem accepts_relocated (hc : c.Relocated φ D c') (hd : d ∈ D) (held v : Int) :
    c'.accepts (φ d) held v = moved φ (c.accepts d held v) := by
  by_cases hs : c.Slack d
  · have hin : ¬ d ∉ c.tolerant := not_not_intro hs.1
    have hin' : ¬ φ d ∉ c'.tolerant := not_not_intro ((hc.slack d hd).2 hs).1
    rw [moved_accepts, Settings.accepts, Settings.accepts, if_neg hin, if_neg hin', hc.tolerance,
      hc.modulus]
  · rw [accepts_of_not_slack hs, accepts_of_not_slack (mt (hc.slack d hd).1 hs)]
    rfl

theorem permits_relocated (hc : c.Relocated φ D c') (hs : State.Relocated φ D s s') (hd : d ∈ D)
    (v : Int) : c'.permits s' (φ d) v = moved φ (c.permits s d v) := by
  rw [Settings.permits, Settings.permits, hc.strict, hs.memory d hd]
  cases c.strict with
  | false => rfl
  | true =>
    cases s.memory[d]? with
    | none => rfl
    | some held =>
      dsimp only
      split
      · rfl
      · apply moved_bind (accepts_relocated hc hd held v)
        intro b _
        cases b with
        | true => rfl
        | false =>
          rw [State.inconsistent, State.inconsistent, hs.pc]
          rfl

theorem step_relocated [Platform] (hc : c.Relocated φ D c') (hs : State.Relocated φ D s s')
    (hφ : Set.InjOn φ D) {i : Instruction} (hi : Movable φ D i) :
    (step c' s' (i.relocate φ)).2 = (step c s i).2.map (Fault.relocate φ) ∧
      State.Relocated φ D (step c s i).1 (step c' s' (i.relocate φ)).1 := by
  have hdest := i.dest?_relocate φ
  cases hd : i.dest? with
  | none =>
    rw [hd] at hdest
    rw [step, step, hd, hdest]
    exact ⟨rfl, hs.memory, hs.within, hs.outside, hs.tables, hs.pc, hs.steps, rfl⟩
  | some d =>
    rw [hd] at hdest
    obtain ⟨hout, hnext⟩ := hs.compute (m := c.modulus) hφ hi
    rw [step, step, hd, hdest, hc.modulus]
    generalize s.compute c.modulus i = r at hout hnext ⊢
    generalize s'.compute c.modulus (i.relocate φ) = r' at hout hnext ⊢
    obtain ⟨out, next⟩ := r
    obtain ⟨out', next'⟩ := r'
    obtain rfl : out' = moved φ out := hout
    cases out with
    | error f => exact ⟨rfl, hnext⟩
    | ok v =>
      have hin := hi.dest d hd
      have hp := permits_relocated hc hnext hin v
      dsimp only [Option.map_some, moved, Except.mapError] at hp ⊢
      rw [hp]
      cases c.permits next d v with
      | error f => exact ⟨rfl, hnext⟩
      | ok _ =>
        refine ⟨rfl, ?_, ?_, ?_, hnext.tables, hnext.pc, congrArg (· + 1) hnext.steps,
          hnext.halted⟩
        · intro x hx
          simp only [Std.TreeMap.getElem?_insert, compare_eq_iff_eq, hφ.eq_iff hin hx]
          rw [hnext.memory x hx]
        · intro x hx
          have hne : ¬ d = x := fun he => hx (he ▸ hin)
          simp only [Std.TreeMap.getElem?_insert, compare_eq_iff_eq, if_neg hne]
          exact hnext.within x hx
        · intro y hy
          have hne : ¬ φ d = y := fun he => hy ⟨d, hin, he⟩
          simp only [Std.TreeMap.getElem?_insert, compare_eq_iff_eq, if_neg hne]
          exact hnext.outside y hy

theorem runThrough_relocated [Platform] (hc : c.Relocated φ D c') (hs : State.Relocated φ D s s')
    (hφ : Set.InjOn φ D) {code : List Instruction} (hcode : ∀ i ∈ code, Movable φ D i) :
    (runThrough c' s' (code.map (Instruction.relocate φ))).2 =
        (runThrough c s code).2.map (Fault.relocate φ) ∧
      State.Relocated φ D (runThrough c s code).1
        (runThrough c' s' (code.map (Instruction.relocate φ))).1 := by
  induction code generalizing s s' with
  | nil => exact ⟨rfl, hs⟩
  | cons i code ih =>
    rw [List.map_cons]
    cases hh : s.halted with
    | true =>
      rw [runThrough_halted hh, runThrough_halted (hs.halted.trans hh)]
      exact ⟨rfl, hs⟩
    | false =>
      obtain ⟨hf, hu⟩ := step_relocated hc hs hφ (hcode i (by simp))
      rcases hstep : step c s i with ⟨u, fault⟩
      rcases hstep' : step c' s' (i.relocate φ) with ⟨u', fault'⟩
      rw [hstep, hstep'] at hf hu
      cases fault with
      | some f =>
        obtain rfl : fault' = some (f.relocate φ) := hf
        rw [runThrough_cons_fault hh hstep,
          runThrough_cons_fault (hs.halted.trans hh) hstep']
        exact ⟨rfl, hu⟩
      | none =>
        obtain rfl : fault' = none := hf
        rw [runThrough_cons hh hstep, runThrough_cons (hs.halted.trans hh) hstep']
        apply ih _ fun j hj => hcode j (by simp [hj])
        exact ⟨hu.memory, hu.within, hu.outside, hu.tables, congrArg (· + 1) hu.pc, hu.steps,
          hu.halted⟩

end

end Machine

end TensorAsm
