import TensorAsm.Proofs.Replay
/-!
What strictness adds to a replay. A strict machine goes through the same states as one that is not
strict, up to the instruction at which it stops. Without tolerance it stops just where a cell would
be given another value.
-/

namespace TensorAsm.Machine

/-- The machine that refuses to give a cell another value. -/
def Settings.strictly (c : Settings) : Settings := { c with strict := true }

/-- The machine that overwrites what a cell holds. -/
def Settings.lenient (c : Settings) : Settings := { c with strict := false }

theorem State.table_kept (s : State) (base rows : Int) :
    ∃ tables, (s.table base rows).2 = { s with tables := tables } := by
  rw [State.table]
  cases s.tables.lookup (base, rows) with
  | some t => exact ⟨s.tables, rfl⟩
  | none =>
    cases s.buildTable base rows with
    | ok t => exact ⟨_, rfl⟩
    | error f => exact ⟨s.tables, rfl⟩

theorem State.compute_kept [Platform] (s : State) (m : Int) (i : Instruction) :
    ∃ tables, (s.compute m i).2 = { s with tables := tables } := by
  cases i with
  | lookup d a base rows =>
    obtain ⟨tables, ht⟩ := s.table_kept base rows
    refine ⟨tables, ?_⟩
    rw [State.compute, ← ht]
    rcases s.table base rows with ⟨_ | _, next⟩ <;> rfl
  | _ => exact ⟨s.tables, rfl⟩

/-- All that an instruction can do: halt the machine, have no result, have one that is refused, or
write it. What fails leaves everything but the tables kept as it was. -/
inductive Stepped [Platform] (c : Settings) (s : State) (i : Instruction) :
    State × Option Fault → Prop
  | halted : i.dest? = none → Stepped c s i ({ s with halted := true }, none)
  | failed {d : Int} {f : Fault} {tables : List ((Int × Int) × Memory)} : i.dest? = some d →
      s.compute c.modulus i = (.error f, { s with tables := tables }) →
      Stepped c s i ({ s with tables := tables }, some f)
  | refused {d v : Int} {f : Fault} {tables : List ((Int × Int) × Memory)} : i.dest? = some d →
      s.compute c.modulus i = (.ok v, { s with tables := tables }) →
      c.permits { s with tables := tables } d v = .error f →
      Stepped c s i ({ s with tables := tables }, some f)
  | wrote {d v : Int} {tables : List ((Int × Int) × Memory)} : i.dest? = some d →
      s.compute c.modulus i = (.ok v, { s with tables := tables }) →
      c.permits { s with tables := tables } d v = .ok () →
      Stepped c s i (⟨s.memory.insert d v, tables, s.pc, s.steps + 1, s.halted⟩, none)

theorem step_stepped [Platform] (c : Settings) (s : State) (i : Instruction) :
    Stepped c s i (step c s i) := by
  cases hd : i.dest? with
  | none =>
    rw [step, hd]
    exact .halted hd
  | some d =>
    obtain ⟨tables, ht⟩ := s.compute_kept c.modulus i
    rcases hr : s.compute c.modulus i with ⟨_ | v, next⟩
    · obtain rfl : next = { s with tables := tables } := by rw [← ht, hr]
      rw [step_fails hd hr]
      exact .failed hd hr
    · obtain rfl : next = { s with tables := tables } := by rw [← ht, hr]
      cases hp : c.permits { s with tables := tables } d v with
      | error f =>
        rw [step_refuses hd hr hp]
        exact .refused hd hr hp
      | ok u =>
        rw [step_writes hd hr hp]
        exact .wrote hd hr hp

section

variable {c : Settings} {s t : State} {i : Instruction} {f : Fault}

theorem permits_lenient (c : Settings) (s : State) (d v : Int) :
    c.lenient.permits s d v = .ok () := rfl

theorem step_lenient_of_none [Platform] (h : step c s i = (t, none)) :
    step c.lenient s i = (t, none) := by
  have hs := step_stepped c s i
  rw [h] at hs
  cases hs with
  | halted hd => rw [step, hd]
  | wrote hd hr hp =>
    rw [step_writes (c := c.lenient) hd hr (permits_lenient c _ _ _)]

theorem step_of_fault [Platform] (h : step c s i = (t, some f)) :
    ∃ tables, t = { s with tables := tables } := by
  have hs := step_stepped c s i
  rw [h] at hs
  cases hs with
  | failed | refused => exact ⟨_, rfl⟩

theorem runThrough_halted [Platform] {code : List Instruction} (h : s.halted = true) :
    runThrough c s code = (s, none) := by
  cases code with
  | nil => rfl
  | cons i code => rw [runThrough, if_pos h]

theorem runThrough_cons [Platform] {code : List Instruction} (h : s.halted = false)
    (hs : step c s i = (t, none)) :
    runThrough c s (i :: code) = runThrough c { t with pc := t.pc + 1 } code := by
  rw [runThrough, if_neg (by simp [h]), hs]

theorem runThrough_cons_fault [Platform] {code : List Instruction} (h : s.halted = false)
    (hs : step c s i = (t, some f)) : runThrough c s (i :: code) = (t, some f) := by
  rw [runThrough, if_neg (by simp [h]), hs]

theorem step_pc [Platform] (h : step c s i = (t, none)) : t.pc = s.pc := by
  have hs := step_stepped c s i
  rw [h] at hs
  cases hs with
  | halted | wrote => rfl

theorem runThrough_lenient_of_none [Platform] {code : List Instruction}
    (h : runThrough c s code = (t, none)) :
    runThrough c.lenient s code = (t, none) := by
  induction code generalizing s with
  | nil => exact h
  | cons i code ih =>
    cases hh : s.halted with
    | true =>
      rw [runThrough_halted hh] at h ⊢
      exact h
    | false =>
      rcases hs : step c s i with ⟨next, _ | f⟩
      · rw [runThrough_cons hh hs] at h
        rw [runThrough_cons hh (step_lenient_of_none hs)]
        exact ih h
      · simp [runThrough_cons_fault hh hs] at h

/-- A run that stops has gone on until then as if it were not strict, and the instruction at which
it stops has changed nothing but the tables kept. -/
theorem runThrough_of_fault [Platform] {code : List Instruction}
    (h : runThrough c s code = (t, some f)) :
    ∃ pre i post u tables, code = pre ++ i :: post ∧ runThrough c.lenient s pre = (u, none) ∧
      u.halted = false ∧ u.pc = s.pc + pre.length ∧ step c u i = (t, some f) ∧
      t = { u with tables := tables } := by
  induction code generalizing s with
  | nil => simp [runThrough] at h
  | cons i code ih =>
    cases hh : s.halted with
    | true => simp [runThrough_halted hh] at h
    | false =>
      rcases hs : step c s i with ⟨next, _ | g⟩
      · rw [runThrough_cons hh hs] at h
        obtain ⟨pre, j, post, u, tables, rfl, hpre, hu, hpc, hj, ht⟩ := ih h
        refine ⟨i :: pre, j, post, u, tables, rfl, ?_, hu, ?_, hj, ht⟩
        · rw [runThrough_cons hh (step_lenient_of_none hs)]
          exact hpre
        · rw [hpc, step_pc hs, List.length_cons]
          push_cast
          omega
      · simp only [runThrough_cons_fault hh hs, Prod.mk.injEq, Option.some.injEq] at h
        obtain ⟨rfl, rfl⟩ := h
        obtain ⟨tables, ht⟩ := step_of_fault hs
        exact ⟨[], i, code, s, tables, rfl, rfl, hh, by simp, hs, ht⟩

/-- The instruction has a result, and its cell holds something else. -/
def Overwrites [Platform] (m : Int) (s : State) (i : Instruction) : Prop :=
  ∃ d held v, i.dest? = some d ∧ s.memory[d]? = some held ∧ (s.compute m i).1 = .ok v ∧ v ≠ held

theorem permits_iff (ht : c.tolerance = some 0.0) (d v : Int) :
    c.strictly.permits s d v = .ok () ↔ ∀ held, s.memory[d]? = some held → v = held := by
  cases hd : s.memory[d]? with
  | none => simp [Settings.permits, Settings.strictly, hd]
  | some held =>
    rcases permits_strict (c := c.strictly) rfl ht hd v with ⟨rfl, hp⟩ | ⟨hne, hp⟩
    · simp [hp]
    · simp [hp, Ne.symm hne]

theorem step_strictly_iff [Platform] (ht : c.tolerance = some 0.0) :
    step c.strictly s i = (t, none) ↔
      step c.lenient s i = (t, none) ∧ ¬ Overwrites c.modulus s i := by
  constructor
  · intro h
    refine ⟨step_lenient_of_none (c := c.strictly) h, ?_⟩
    rintro ⟨d, held, v, hd, hm, hr, hne⟩
    have hs := step_stepped c.strictly s i
    rw [h] at hs
    cases hs with
    | halted hn => rw [hn] at hd; exact absurd hd (by simp)
    | @wrote e w tables he hw hp =>
      obtain rfl : d = e := Option.some.inj (hd.symm.trans he)
      obtain rfl : v = w := by
        rw [show s.compute c.modulus i = _ from hw] at hr
        exact (Except.ok.inj hr).symm
      exact hne ((permits_iff ht d v).1 hp held hm)
  · rintro ⟨h, hno⟩
    have hs := step_stepped c.lenient s i
    rw [h] at hs
    cases hs with
    | halted hd => rw [step, hd]
    | @wrote d v tables hd hr hp =>
      refine step_writes (c := c.strictly) hd hr ((permits_iff ht d v).2 ?_)
      intro held hm
      by_contra hne
      exact hno ⟨d, held, v, hd, hm, by rw [show s.compute c.modulus i = _ from hr], hne⟩

theorem runThrough_strictly_iff [Platform] (ht : c.tolerance = some 0.0) {code : List Instruction} :
    (runThrough c.strictly s code).2 = none ↔ (runThrough c.lenient s code).2 = none ∧
      ∀ pre i post u, code = pre ++ i :: post → runThrough c.lenient s pre = (u, none) →
        u.halted = false → ¬ Overwrites c.modulus u i := by
  induction code generalizing s with
  | nil => simp [runThrough]
  | cons i code ih =>
    cases hh : s.halted with
    | true =>
      simp only [runThrough_halted hh, true_and, true_iff]
      rintro pre j post u - hu
      obtain ⟨rfl, -⟩ := Prod.mk.inj hu
      simp [hh]
    | false =>
      have hsplit : (∀ pre j post u, i :: code = pre ++ j :: post →
          runThrough c.lenient s pre = (u, none) → u.halted = false →
            ¬ Overwrites c.modulus u j) ↔
          ¬ Overwrites c.modulus s i ∧ ∀ pre j post u, code = pre ++ j :: post →
            runThrough c.lenient s (i :: pre) = (u, none) → u.halted = false →
              ¬ Overwrites c.modulus u j := by
        constructor
        · intro h
          refine ⟨h [] i code s rfl rfl hh, ?_⟩
          rintro pre j post u rfl
          exact h (i :: pre) j post u rfl
        · rintro ⟨hi, h⟩ pre j post u hc hu
          cases pre with
          | nil =>
            obtain ⟨rfl, rfl⟩ := List.cons.inj hc
            obtain ⟨rfl, -⟩ := Prod.mk.inj hu
            exact fun _ => hi
          | cons k pre =>
            obtain ⟨rfl, rfl⟩ := List.cons.inj hc
            exact h pre j post u rfl hu
      rw [hsplit]
      rcases hs : step c.strictly s i with ⟨last, _ | g⟩
      · obtain ⟨hl, ho⟩ := (step_strictly_iff ht).1 hs
        simp only [runThrough_cons hh hs, runThrough_cons hh hl, ho, not_false_eq_true,
          true_and]
        exact ih
      · rw [runThrough_cons_fault hh hs]
        simp only [reduceCtorEq, false_iff]
        rintro ⟨hr, ho, -⟩
        rcases hl : step c.lenient s i with ⟨next, _ | f⟩
        · rw [(step_strictly_iff ht).2 ⟨hl, ho⟩] at hs
          exact absurd hs (by simp)
        · simp [runThrough_cons_fault hh hl] at hr

end

/-- The cells of so many rows are there. -/
def RowsThere (memory : Memory) (base : Int) (n : Nat) : Prop :=
  ∀ r < n, (∃ x, memory[base + 2 * (r : Int)]? = some x) ∧
    ∃ y, memory[base + 2 * (r : Int) + 1]? = some y

/-- A key and its value make a row, and no later row has that key. -/
def RowValue (memory : Memory) (base : Int) (n : Nat) (key value : Int) : Prop :=
  ∃ r < n, memory[base + 2 * (r : Int)]? = some key ∧
    memory[base + 2 * (r : Int) + 1]? = some value ∧
      ∀ q < n, r < q → memory[base + 2 * (q : Int)]? ≠ some key

/-- The result that an instruction has in a memory. There are no remainders by zero, a rescaling
may go too far, and a lookup needs all of its table. -/
inductive Result [Platform] (m : Int) (memory : Memory) : Instruction → Int → Prop
  | add {d a b x y : Int} : m ≠ 0 → memory[a]? = some x → memory[b]? = some y →
      Result m memory (.add d a b) (Field.encode m (x + y))
  | sub {d a b x y : Int} : m ≠ 0 → memory[a]? = some x → memory[b]? = some y →
      Result m memory (.sub d a b) (Field.encode m (x - y))
  | mul {d a b x y : Int} : m ≠ 0 → memory[a]? = some x → memory[b]? = some y →
      Result m memory (.mul d a b) (Field.encode m (x * y))
  | mac {d e a b w x y : Int} : m ≠ 0 → memory[e]? = some w → memory[a]? = some x →
      memory[b]? = some y → Result m memory (.mac d e a b) (Field.encode m (w + x * y))
  | rescale {d a shift x : Int} : m ≠ 0 → memory[a]? = some x →
      Quantity.rescaleFault? (Field.centre m x) shift = none →
      Result m memory (.rescale d a shift)
        (Field.encode m (Quantity.rescale (Field.centre m x) shift))
  | clamp {d a x : Int} {lo hi : Immediate} : m ≠ 0 → memory[a]? = some x →
      Result m memory (.clamp d a lo hi)
        (Field.encode m (min (max (Field.centre m x) lo.value) hi.value))
  | lookup {d a base rows key v : Int} : memory[a]? = some key →
      RowsThere memory base rows.toNat → RowValue memory base rows.toNat key v →
      Result m memory (.lookup d a base rows) v

/-- The cell of an instruction holds its result. -/
def Satisfied [Platform] (m : Int) (memory : Memory) (i : Instruction) : Prop :=
  ∃ d v, i.dest? = some d ∧ memory[d]? = some v ∧ Result m memory i v

theorem State.read_eq_ok {s : State} {a v : Int} : s.read a = .ok v ↔ s.memory[a]? = some v := by
  rw [State.read]
  cases s.memory[a]? <;> simp

theorem rowsThere_succ {memory : Memory} {base : Int} {n : Nat} :
    RowsThere memory base (n + 1) ↔ ((∃ x, memory[base]? = some x) ∧
      ∃ y, memory[base + 1]? = some y) ∧ RowsThere memory (base + 2) n := by
  have hshift (r : Nat) : base + 2 + 2 * (r : Int) = base + 2 * ((r + 1 : Nat) : Int) := by
    push_cast
    ring
  constructor
  · intro h
    refine ⟨by simpa using h 0 (by omega), ?_⟩
    intro r hr
    rw [hshift]
    exact h (r + 1) (by omega)
  · rintro ⟨h0, h⟩ r hr
    cases r with
    | zero => simpa using h0
    | succ r =>
      rw [← hshift]
      exact h r (by omega)

theorem rowValue_succ {memory : Memory} {base key value : Int} {n : Nat} :
    RowValue memory base (n + 1) key value ↔ RowValue memory (base + 2) n key value ∨
      memory[base]? = some key ∧ memory[base + 1]? = some value ∧
        ∀ q < n, memory[base + 2 + 2 * (q : Int)]? ≠ some key := by
  have hshift (r : Nat) : base + 2 + 2 * (r : Int) = base + 2 * ((r + 1 : Nat) : Int) := by
    push_cast
    ring
  constructor
  · rintro ⟨r, hr, hk, hv, hlast⟩
    cases r with
    | zero =>
      refine .inr ⟨by simpa using hk, by simpa using hv, ?_⟩
      intro q hq
      rw [hshift]
      exact hlast (q + 1) (by omega) (by omega)
    | succ r =>
      rw [← hshift] at hk hv
      refine .inl ⟨r, by omega, hk, hv, ?_⟩
      intro q hq hrq
      rw [hshift]
      exact hlast (q + 1) (by omega) (by omega)
  · rintro (⟨r, hr, hk, hv, hlast⟩ | ⟨hk, hv, hlast⟩)
    · rw [hshift] at hk hv
      refine ⟨r + 1, by omega, hk, hv, ?_⟩
      intro q hq hrq
      obtain ⟨q, rfl⟩ : ∃ p, q = p + 1 := ⟨q - 1, by omega⟩
      rw [← hshift]
      exact hlast q (by omega) (by omega)
    · refine ⟨0, by omega, by simpa using hk, by simpa using hv, ?_⟩
      intro q hq h0
      obtain ⟨q, rfl⟩ : ∃ p, q = p + 1 := ⟨q - 1, by omega⟩
      rw [← hshift]
      exact hlast q (by omega)

section

variable {memory : Memory} {s t : State} {i : Instruction}

/-- Rows are added to a table just when they are there; a later row counts before an earlier one,
and before what the table had. -/
theorem addRows_spec (hs : ∀ a : Int, s.memory[a]? = memory[a]?) (known : Memory) (base : Int)
    (n : Nat) :
    (∃ rows, s.addRows known base n = .ok rows ∧ RowsThere memory base n ∧
      ∀ key v, rows[key]? = some v ↔ RowValue memory base n key v ∨
        known[key]? = some v ∧ ∀ q < n, memory[base + 2 * (q : Int)]? ≠ some key) ∨
    (∃ f, s.addRows known base n = .error f) ∧ ¬ RowsThere memory base n := by
  induction n generalizing known base with
  | zero => exact .inl ⟨known, rfl, by simp [RowsThere], by simp [RowValue]⟩
  | succ n ih =>
    rw [State.addRows, State.read, State.read, hs, hs, rowsThere_succ]
    cases hx : memory[base]? with
    | none => exact .inr ⟨⟨_, rfl⟩, by simp⟩
    | some x =>
      cases hy : memory[base + 1]? with
      | none => exact .inr ⟨⟨_, rfl⟩, by simp⟩
      | some y =>
        rcases ih (known.insert x y) (base + 2) with
          ⟨rows, hr, hthere, hrows⟩ | ⟨hf, hnot⟩
        · refine .inl ⟨rows, hr, ⟨⟨⟨x, rfl⟩, y, rfl⟩, hthere⟩, ?_⟩
          intro key v
          rw [hrows, rowValue_succ, get_insert, or_assoc, hx, hy]
          refine or_congr_right ?_
          rw [show (∀ q < n + 1, memory[base + 2 * (q : Int)]? ≠ some key) ↔
              x ≠ key ∧ ∀ q < n, memory[base + 2 + 2 * (q : Int)]? ≠ some key from ?_]
          · by_cases hk : x = key
            · simp [hk]
            · simp [hk]
          · rw [Nat.forall_lt_succ_left]
            simp only [Nat.cast_zero, Int.mul_zero, Int.add_zero, hx, ne_eq,
              Option.some.injEq]
            refine and_congr_right fun _ => forall₂_congr fun q _ => ?_
            rw [show base + 2 * ((q + 1 : Nat) : Int) = base + 2 + 2 * (q : Int) by
              push_cast; ring]
        · exact .inr ⟨hf, fun h => hnot h.2⟩

/-- The machine is in a memory, and what it keeps of tables is right. -/
structure Within (memory : Memory) (s : State) : Prop where
  cells : ∀ a : Int, s.memory[a]? = memory[a]?
  kept : ∀ base rows t, s.tables.lookup (base, rows) = some t →
    RowsThere memory base rows.toNat ∧
      ∀ key v : Int, t[key]? = some v ↔ RowValue memory base rows.toNat key v

theorem within_start (memory : Memory) : Within memory (.start memory) where
  cells := fun _ => rfl
  kept := by simp [State.start]

theorem Within.table (h : Within memory s) (base rows : Int) :
    ∃ tables, Within memory { s with tables := tables } ∧
      ((∃ t, s.table base rows = (.ok t, { s with tables := tables }) ∧
          RowsThere memory base rows.toNat ∧
            ∀ key v : Int, t[key]? = some v ↔ RowValue memory base rows.toNat key v) ∨
        (∃ f, s.table base rows = (.error f, { s with tables := tables })) ∧
          ¬ RowsThere memory base rows.toNat) := by
  rw [State.table]
  cases hl : s.tables.lookup (base, rows) with
  | some t => exact ⟨s.tables, h, .inl ⟨t, rfl, h.kept base rows t hl⟩⟩
  | none =>
    rw [State.buildTable]
    rcases addRows_spec h.cells ∅ base rows.toNat with ⟨t, ht, hthere, hrows⟩ | ⟨⟨f, hf⟩, hnot⟩
    · simp only [Std.TreeMap.getElem?_emptyc, reduceCtorEq, false_and, or_false] at hrows
      refine ⟨((base, rows), t) :: s.tables, ⟨h.cells, ?_⟩, .inl ⟨t, by rw [ht], hthere, hrows⟩⟩
      intro b r u hu
      rw [List.lookup_cons] at hu
      by_cases he : (b, r) = (base, rows)
      · obtain ⟨rfl, rfl⟩ := Prod.mk.inj he
        obtain rfl : t = u := by simpa using hu
        exact ⟨hthere, hrows⟩
      · rw [beq_false_of_ne he] at hu
        exact h.kept b r u hu
    · exact ⟨s.tables, h, .inr ⟨⟨f, by rw [hf]⟩, hnot⟩⟩

theorem bind_eq_ok {α β : Type} {x : Except Fault α} {f : α → Except Fault β} {b : β} :
    x >>= f = .ok b ↔ ∃ a, x = .ok a ∧ f a = .ok b := by
  cases x <;> simp [bind, Except.bind]

theorem nonzero_eq_ok {m v w : Int} : Field.nonzero m v = .ok w ↔ m ≠ 0 ∧ v = w := by
  rw [Field.nonzero]
  by_cases hm : m = 0 <;> simp [hm]

theorem rescale?_eq_ok [Platform] {v shift w : Int} : Quantity.rescale? v shift = .ok w ↔
    Quantity.rescaleFault? v shift = none ∧ Quantity.rescale v shift = w := by
  rw [Quantity.rescale?_eq]
  cases Quantity.rescaleFault? v shift <;> simp

theorem search_eq_ok {m : Int} {rows : Memory} {cell base v : Int} :
    s.search m rows cell base = .ok v ↔
      ∃ key, s.memory[cell]? = some key ∧ rows[key]? = some v := by
  rw [State.search, bind_eq_ok]
  refine exists_congr fun key => and_congr State.read_eq_ok ?_
  cases hk : rows[key]? with
  | some w => simp [pure, Except.pure]
  | none =>
    simp only [bind_eq_ok, reduceCtorEq, iff_false, not_exists, not_and]
    intro x _ h
    exact absurd h (by simp)

theorem Within.compute [Platform] (h : Within memory s) (m : Int) (hi : i ≠ .halt) :
    ∃ tables, Within memory { s with tables := tables } ∧
      (s.compute m i).2 = { s with tables := tables } ∧
        ∀ v, (s.compute m i).1 = .ok v ↔ Result m memory i v := by
  cases i with
  | halt => exact absurd rfl hi
  | lookup d a base rows =>
    obtain ⟨tables, hw, ⟨t, ht, hthere, hrows⟩ | ⟨⟨f, hf⟩, hnot⟩⟩ := h.table base rows
    · refine ⟨tables, hw, by rw [State.compute, ht], ?_⟩
      intro v
      rw [State.compute, ht, search_eq_ok]
      constructor
      · rintro ⟨key, hk, hv⟩
        exact .lookup (by rw [← hw.cells]; exact hk) hthere ((hrows key v).1 hv)
      · rintro (_ | _ | _ | _ | _ | _ | ⟨hk, -, hv⟩)
        exact ⟨_, by rw [hw.cells]; exact hk, (hrows _ v).2 hv⟩
    · refine ⟨tables, hw, by rw [State.compute, hf], ?_⟩
      intro v
      rw [State.compute, hf]
      simp only [reduceCtorEq, false_iff]
      rintro (_ | _ | _ | _ | _ | _ | ⟨-, hthere, -⟩)
      exact hnot hthere
  | add d a b | sub d a b | mul d a b =>
    refine ⟨s.tables, h, rfl, ?_⟩
    intro v
    simp only [State.compute, bind_eq_ok, State.read_eq_ok, h.cells, Field.encode?, nonzero_eq_ok]
    constructor
    · rintro ⟨x, hx, y, hy, hm, rfl⟩
      constructor <;> assumption
    · intro hr
      cases hr
      next hm hx hy => exact ⟨_, hx, _, hy, hm, rfl⟩
  | mac d e a b =>
    refine ⟨s.tables, h, rfl, ?_⟩
    intro v
    simp only [State.compute, bind_eq_ok, State.read_eq_ok, h.cells, Field.encode?, nonzero_eq_ok]
    constructor
    · rintro ⟨w, hw, x, hx, y, hy, hm, rfl⟩
      exact .mac hm hw hx hy
    · rintro (_ | _ | _ | ⟨hm, hw, hx, hy⟩)
      exact ⟨_, hw, _, hx, _, hy, hm, rfl⟩
  | rescale d a shift =>
    refine ⟨s.tables, h, rfl, ?_⟩
    intro v
    simp only [State.compute, bind_eq_ok, State.read_eq_ok, h.cells, Field.encode?, Field.centre?,
      nonzero_eq_ok, rescale?_eq_ok]
    constructor
    · rintro ⟨x, hx, _, ⟨hm, rfl⟩, _, ⟨hf, rfl⟩, -, rfl⟩
      exact .rescale hm hx hf
    · rintro (_ | _ | _ | _ | ⟨hm, hx, hf⟩)
      exact ⟨_, hx, _, ⟨hm, rfl⟩, _, ⟨hf, rfl⟩, hm, rfl⟩
  | clamp d a lo hi =>
    refine ⟨s.tables, h, rfl, ?_⟩
    intro v
    simp only [State.compute, bind_eq_ok, State.read_eq_ok, h.cells, Field.encode?, Field.centre?,
      nonzero_eq_ok]
    constructor
    · rintro ⟨x, hx, _, ⟨hm, rfl⟩, -, rfl⟩
      exact .clamp hm hx
    · rintro (_ | _ | _ | _ | _ | ⟨hm, hx⟩)
      exact ⟨_, hx, _, ⟨hm, rfl⟩, hm, rfl⟩

theorem dest_eq_none {i : Instruction} : i.dest? = none ↔ i = .halt := by
  cases i <;> simp [Instruction.dest?, Instruction.form]

theorem Within.insert (h : Within memory s) {d v : Int} (hd : memory[d]? = some v) (pc : Int)
    (steps : Nat) : Within memory ⟨s.memory.insert d v, s.tables, pc, steps, s.halted⟩ where
  cells := by
    intro a
    rw [get_insert, h.cells]
    by_cases he : d = a
    · rw [if_pos he, ← he, hd]
    · rw [if_neg he]
  kept := h.kept

/-- Without tolerance a strict step on a cell that is there goes through just when the cell holds
the result, and then the memory is as it was. -/
theorem Within.step [Platform] {c : Settings} (ht : c.tolerance = some 0.0) (h : Within memory s)
    (hi : i ≠ .halt) (hd : ∀ d, i.dest? = some d → ∃ held, memory[d]? = some held) :
    (Satisfied c.modulus memory i ∧ ∃ t, Machine.step c.strictly s i = (t, none) ∧
      Within memory { t with pc := t.pc + 1 } ∧ t.halted = s.halted) ∨
    (¬ Satisfied c.modulus memory i ∧ ∃ t f, Machine.step c.strictly s i = (t, some f)) := by
  obtain ⟨tables, hw, hnext, hresult⟩ := h.compute c.modulus hi
  obtain ⟨d, hdest⟩ := Option.ne_none_iff_exists'.1 (mt dest_eq_none.1 hi)
  obtain ⟨held, hheld⟩ := hd d hdest
  -- a satisfied instruction has what its cell holds as the value computed
  have hsat : Satisfied c.modulus memory i ↔ (s.compute c.modulus i).1 = .ok held := by
    rw [hresult]
    constructor
    · rintro ⟨e, v, he, hm, hv⟩
      obtain rfl : d = e := Option.some.inj (hdest.symm.trans he)
      obtain rfl : held = v := Option.some.inj (hheld.symm.trans hm)
      exact hv
    · exact fun hv => ⟨d, held, hdest, hheld, hv⟩
  rw [hsat]
  rcases hr : s.compute c.modulus i with ⟨f | v, next⟩
  · exact .inr ⟨by simp, next, f, step_fails (c := c.strictly) hdest hr⟩
  · obtain rfl : next = { s with tables := tables } := by rw [← hnext, hr]
    have hmem : ({ s with tables := tables } : State).memory[d]? = some held := by
      rw [hw.cells, hheld]
    rcases permits_strict (c := c.strictly) rfl ht hmem v with ⟨rfl, hp⟩ | ⟨hne, hp⟩
    · exact .inl ⟨rfl, _, step_writes (c := c.strictly) hdest hr hp, hw.insert hheld _ _, rfl⟩
    · exact .inr ⟨by simpa using Ne.symm hne, _, _, step_refuses (c := c.strictly) hdest hr hp⟩

/-- Without tolerance, and with all cells there, a strict run gets through just when all
instructions before the first halt are satisfied in the memory it starts from. -/
theorem Within.runThrough [Platform] {c : Settings} (ht : c.tolerance = some 0.0)
    {code : List Instruction}
    (hd : ∀ i ∈ code, ∀ d, i.dest? = some d → ∃ held, memory[d]? = some held) (h : Within memory s)
    (hh : s.halted = false) :
    (Machine.runThrough c.strictly s code).2 = none ↔
      ∀ i ∈ code.takeWhile (· != .halt), Satisfied c.modulus memory i := by
  induction code generalizing s with
  | nil => simp [Machine.runThrough]
  | cons i code ih =>
    by_cases hi : i = .halt
    · subst hi
      have hs : Machine.step c.strictly s .halt = ({ s with halted := true }, none) := rfl
      rw [runThrough_cons hh hs, runThrough_halted rfl]
      simp
    · rw [List.takeWhile_cons_of_pos (by simpa using hi), List.forall_mem_cons]
      rcases h.step ht hi (hd i (by simp)) with ⟨hsat, t, hs, hw, hhalt⟩ | ⟨hno, t, f, hs⟩
      · rw [runThrough_cons hh hs]
        have hrest := ih (fun j hj => hd j (by simp [hj])) hw (hhalt.trans hh)
        simpa [hsat] using hrest
      · simp [runThrough_cons_fault hh hs, hno]

end

/-- Strictness only adds faults. A strict run that gets through is the run that is not strict; one
that stops has the memory, the counter, the steps and the flag that the other has after the
instructions before. Without tolerance it gets through just when the other does and no instruction
overwrites; where all cells are there, just when each instruction before the first halt holds in the
memory at the start. -/
theorem strict_replay [Platform] (c : Settings) (memory : Memory) (code : List Instruction) :
    (∀ t, run c.strictly code (.start memory) = (t, none) →
      run c.lenient code (.start memory) = (t, none)) ∧
    (∀ t f, run c.strictly code (.start memory) = (t, some f) →
      ∃ pre i post u, code = pre ++ i :: post ∧
        run c.lenient pre (.start memory) = (u, none) ∧ u.halted = false ∧ u.pc = pre.length ∧
          step c.strictly u i = (t, some f) ∧
            t.memory = u.memory ∧ t.pc = u.pc ∧ t.steps = u.steps ∧ t.halted = u.halted) ∧
    (c.tolerance = some 0.0 →
      ((run c.strictly code (.start memory)).2 = none ↔
        (run c.lenient code (.start memory)).2 = none ∧
          ∀ pre i post u, code = pre ++ i :: post →
            run c.lenient pre (.start memory) = (u, none) → u.halted = false →
              ¬ Overwrites c.modulus u i) ∧
      ((∀ i ∈ code, ∀ d, i.dest? = some d → ∃ held, memory[d]? = some held) →
        ((run c.strictly code (.start memory)).2 = none ↔
          ∀ i ∈ code.takeWhile (· != .halt), Satisfied c.modulus memory i))) := by
  simp only [run_start]
  refine ⟨fun t h => runThrough_lenient_of_none (c := c.strictly) h, ?_, ?_⟩
  · intro t f h
    obtain ⟨pre, i, post, u, tables, hcode, hpre, hu, hpc, hi, rfl⟩ := runThrough_of_fault h
    rw [State.start, Int.zero_add] at hpc
    exact ⟨pre, i, post, u, hcode, hpre, hu, hpc, hi, rfl, rfl, rfl, rfl⟩
  · intro ht
    exact ⟨runThrough_strictly_iff ht, fun hd => (within_start memory).runThrough ht hd rfl⟩

/-- Behind the halt an instruction may say anything; before it, another value stops the machine. -/
theorem strict_replay_sum :
    Satisfied 97 (MemoryTable.cellMap [(0, 90), (1, 12), (2, 5)]) (.add 2 0 1) ∧
      (run ⟨97, true, some 0.0, []⟩ [.add 2 0 1, .halt, .mul 2 0 1]
        (.start (MemoryTable.cellMap [(0, 90), (1, 12), (2, 5)]))).2 = none ∧
      (run ⟨97, false, some 0.0, []⟩ [.add 2 0 1, .mul 2 0 1]
        (.start (MemoryTable.cellMap [(0, 90), (1, 12), (2, 5)]))).2 = none ∧
      (run ⟨97, true, some 0.0, []⟩ [.add 2 0 1, .mul 2 0 1]
        (.start (MemoryTable.cellMap [(0, 90), (1, 12), (2, 5)]))).2 ≠ none := by
  have hsum : Satisfied 97 (MemoryTable.cellMap [(0, 90), (1, 12), (2, 5)]) (.add 2 0 1) :=
    ⟨2, 5, rfl, by decide, .add (x := 90) (y := 12) (by decide) (by decide) (by decide)⟩
  have hthere : ∀ i ∈ [Instruction.add 2 0 1, .halt, .mul 2 0 1], ∀ d, i.dest? = some d →
      ∃ held, (MemoryTable.cellMap [(0, 90), (1, 12), (2, 5)])[d]? = some held := by
    intro i hi d hd
    refine ⟨5, ?_⟩
    simp only [List.mem_cons, List.not_mem_nil, or_false] at hi
    rcases hi with rfl | rfl | rfl <;> cases hd <;> decide
  refine ⟨hsum, ?_, by decide, ?_⟩
  · apply ((strict_replay ⟨97, true, some 0.0, []⟩ _ _).2.2 rfl).2 hthere |>.2
    exact List.forall_mem_singleton.2 hsum
  · intro hrun
    have hno := (((strict_replay ⟨97, true, some 0.0, []⟩ _ _).2.2 rfl).1.1 hrun).2
    refine hno [.add 2 0 1] (.mul 2 0 1) [] _ rfl rfl (by decide) ?_
    exact ⟨2, 5, 13, rfl, by decide, rfl, by decide⟩

end TensorAsm.Machine
