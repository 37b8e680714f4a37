import TensorAsm.Machine
import TensorAsm.Proofs.Contents
/-!
The machine over a memory in which the rows of tables stand. A strict machine gets through when
every cell holds the result of its instruction already; another leaves such a memory, or stops at a
key outside of a table or a rescaling that goes too far.
-/

namespace TensorAsm

theorem Instruction.eval_congr [Platform] {S : Semantics} {look : Int → List Table.Row}
    {k l : Int → Int} {i : Instruction} (h : ∀ c ∈ i.sources, k c = l c) :
    i.eval S look k = i.eval S look l := by
  cases i <;> simp_all [Instruction.sources, Instruction.eval]

theorem Instruction.eval_reduced [Platform] {S : Semantics} {look : Int → List Table.Row}
    {k : Int → Int} {i : Instruction} {v : Int} (h : i.eval S look k = some v) : S.wrap v = v := by
  cases i with
  | rescale _ a shift =>
    simp only [Instruction.eval, Semantics.moved] at h
    split at h
    · exact absurd h (by simp)
    · rw [← Option.some.inj h, S.wrap_wrap]
  | lookup _ a table _ =>
    obtain ⟨r, -, rfl⟩ := Option.map_eq_some_iff.1 h
    exact S.wrap_wrap _
  | halt => exact absurd h (by simp [Instruction.eval])
  | clamp => rw [← Option.some.inj h, Semantics.clamped, S.wrap_wrap]
  | _ => rw [← Option.some.inj h, S.wrap_wrap]

namespace Machine

open Lowering

/-- The rows of a table by their encoded inputs. -/
def rowMap (m : Int) (rows : List Table.Row) : Memory :=
  MemoryTable.cellMap (rows.map fun r => (Field.encode m r.x, Field.encode m r.y))

/-- Rows whose inputs can be told apart by what they are encoded to. -/
structure Legible (m : Int) (rows : List Table.Row) : Prop where
  nodup : (rows.map (·.x)).Nodup
  centred : ∀ r ∈ rows, Field.centre m (Field.encode m r.x) = r.x

theorem legible_rows [Platform] {m : Int} {spec : Table.Spec} (hm : spec.rows < m)
    {rows : List Table.Row} (hf : Table.fold spec = .ok rows) : Legible m rows where
  nodup := Table.fold_nodup hf
  centred := by
    intro r hr
    have hx := (Table.mem_fold_inputs hf).1 (List.mem_map_of_mem hr)
    have hrows := Table.rows_eq (Table.fold_bits hf)
    exact Field.centre_encode (by omega) (by omega)

theorem legible_fold [Platform] {m : Int} (hm : 2 ^ 24 < m) {spec : Table.Spec}
    {rows : List Table.Row} (hb : 1 ≤ spec.bits ∧ spec.bits ≤ Table.maxBits)
    (hf : Table.fold spec = .ok rows) :
    Legible m rows := by
  have hmax : Table.maxBits = 24 := rfl
  have hle : Nat.pow 2 spec.bits.toNat ≤ 2 ^ 24 := Nat.pow_le_pow_right (by decide) (by omega)
  refine legible_rows ?_ hf
  rw [Table.Spec.rows]
  omega

theorem get_rowMap {m : Int} {rows : List Table.Row} (h : Legible m rows) {e : Int}
    (he : Field.encode m e = e) :
    (rowMap m rows)[e]? =
      (rows.find? (·.x == Field.centre m e)).map fun r => Field.encode m r.y := by
  have hkey : ∀ r ∈ rows, (Field.encode m r.x = e ↔ r.x = Field.centre m e) := by
    intro r hr
    constructor
    · intro hx
      rw [← hx, h.centred r hr]
    · intro hx
      rw [hx, Field.encode_centre, he]
  cases hf : rows.find? (·.x == Field.centre m e) with
  | some r =>
    have hm := List.mem_of_find?_eq_some hf
    have hx : r.x = Field.centre m e := by simpa using List.find?_some hf
    refine MemoryTable.get_cellMap ?_ (List.mem_map.2 ⟨r, hm, by rw [(hkey r hm).2 hx]⟩)
    rw [List.map_map]
    refine List.Nodup.map_on ?_ (List.Nodup.of_map _ h.nodup)
    intro r hr q hq heq
    have hrq : r.x = q.x := by
      rw [← h.centred r hr, ← h.centred q hq]
      exact congrArg _ heq
    exact List.inj_on_of_nodup_map h.nodup hr hq hrq
  | none =>
    have hnot :
        e ∉ (rows.map fun r => (Field.encode m r.x, Field.encode m r.y)).map Prod.fst := by
      rw [List.map_map, List.mem_map]
      rintro ⟨r, hr, hx⟩
      have hne := List.find?_eq_none.1 hf r hr
      exact hne (by simpa using (hkey r hr).1 hx)
    exact MemoryTable.get_cellMap_of_notMem hnot

/-- The rows of tables stand in memory, and what is kept of them is right. -/
structure Stocked (m : Int) (ts : List FoldedTable) (s : State) : Prop where
  rows : ∀ t ∈ ts, ∀ (i : Nat) (r : Table.Row), t.rows[i]? = some r →
    s.memory[t.address.absolute + 2 * (i : Int)]? = some (Field.encode m r.x) ∧
      s.memory[t.address.absolute + 2 * (i : Int) + 1]? = some (Field.encode m r.y)
  kept : ∀ t ∈ ts, ∀ rows, s.tables.lookup (t.address.absolute, (t.rows.size : Int)) = some rows →
    rows = rowMap m t.rows.toList

theorem stocked_start {m : Int} {ts : List FoldedTable} {rows : List (Int × Int)}
    (hn : (rows.map Prod.fst).Nodup)
    (h : ∀ t ∈ ts, ∀ (i : Nat) (r : Table.Row), t.rows[i]? = some r →
      (t.address.absolute + 2 * (i : Int), Field.encode m r.x) ∈ rows ∧
        (t.address.absolute + 2 * (i : Int) + 1, Field.encode m r.y) ∈ rows) :
    Stocked m ts (.start (MemoryTable.cellMap rows)) where
  rows := fun t ht i r hr =>
    ⟨MemoryTable.get_cellMap hn (h t ht i r hr).1, MemoryTable.get_cellMap hn (h t ht i r hr).2⟩
  kept := by simp [State.start]

/-- No two tables start at one address. -/
def Apart (ts : List FoldedTable) : Prop :=
  ∀ t ∈ ts, ∀ u ∈ ts, t.address.absolute = u.address.absolute → t = u

variable {m : Int} {ts : List FoldedTable} {s : State} {look : Int → List Table.Row}
  {k : Int → Int}

theorem addRows_eq (rows : List Table.Row) (known : Memory) {base : Int}
    (h : ∀ (i : Nat) (r : Table.Row), rows[i]? = some r →
      s.memory[base + 2 * (i : Int)]? = some (Field.encode m r.x) ∧
        s.memory[base + 2 * (i : Int) + 1]? = some (Field.encode m r.y)) :
    s.addRows known base rows.length =
      .ok ((rows.map fun r => (Field.encode m r.x, Field.encode m r.y)).foldl
        (fun t r => t.insert r.1 r.2) known) := by
  induction rows generalizing base known with
  | nil => rfl
  | cons r rows ih =>
    have h0 := h 0 r rfl
    rw [Int.natCast_zero, Int.mul_zero, Int.add_zero] at h0
    rw [List.length_cons, State.addRows, State.read, h0.1, State.read, h0.2]
    simp only [List.map_cons, List.foldl_cons]
    refine ih _ fun i q hq => ?_
    have hi := h (i + 1) q hq
    push_cast at hi
    rw [show base + 2 * ((i : Int) + 1) = base + 2 + 2 * (i : Int) by ring] at hi
    exact hi

theorem table_eq (hs : Stocked m ts s) (ha : Apart ts) {t : FoldedTable} (ht : t ∈ ts) :
    ∃ tables, s.table t.address.absolute t.rows.size =
        (.ok (rowMap m t.rows.toList), { s with tables := tables }) ∧
      Stocked m ts { s with tables := tables } := by
  unfold State.table
  cases hl : s.tables.lookup (t.address.absolute, (t.rows.size : Int)) with
  | some rows =>
    obtain rfl := hs.kept t ht rows hl
    exact ⟨s.tables, rfl, hs⟩
  | none =>
    have hb : s.buildTable t.address.absolute t.rows.size = .ok (rowMap m t.rows.toList) := by
      have hr := addRows_eq t.rows.toList ∅ fun i r hi => hs.rows t ht i r (by simpa using hi)
      rw [Array.length_toList] at hr
      exact hr
    rw [hb]
    refine ⟨_, rfl, hs.rows, ?_⟩
    intro u hu rows hrows
    rw [List.lookup_cons] at hrows
    split at hrows
    · next he =>
        obtain rfl := ha u hu t ht (by simpa using congrArg Prod.fst (eq_of_beq he))
        exact (Option.some.inj hrows).symm
    · exact hs.kept u hu rows hrows

/-- An instruction that works on cells alone, or a lookup in one of the tables. -/
def Known (m : Int) (ts : List FoldedTable) (i : Instruction) : Prop :=
  i.isArithmetic = true ∨ ∃ t ∈ ts, Legible m t.rows.toList ∧
    ∃ dest key, i = .lookup dest key t.address.absolute t.rows.size

/-- Why an instruction may have no result: its key is outside of its table, or it moves a value
farther than can be. -/
inductive Excuse [Platform] (ts : List FoldedTable) : Instruction → Fault → Prop
  | outside {t : FoldedTable} {dest cell pc key : Int} :
      t ∈ ts → (∀ r ∈ t.rows, r.x ≠ key) →
      Excuse ts (.lookup dest cell t.address.absolute t.rows.size)
        (.compile (.replay ⟨cell, pc, .outsideTable key t.address.absolute⟩))
  | tooFar {dest cell shift v : Int} {f : Fault} : Quantity.rescaleFault? v shift = some f →
      Excuse ts (.rescale dest cell shift) f

/-- The result that there is to be, or an excuse. -/
def Outcome [Platform] (ts : List FoldedTable) (i : Instruction) (expected : Option Int)
    (r : Except Fault Int) : Prop :=
  (∃ v, expected = some v ∧ r = .ok v) ∨ expected = none ∧ ∃ f, Excuse ts i f ∧ r = .error f

theorem compute_arithmetic [Platform] (hm : m ≠ 0) {i : Instruction} (hi : i.isArithmetic = true)
    (hk : ∀ c ∈ i.sources, s.read c = .ok (k c)) :
    ∃ r, s.compute m i = (r, s) ∧ Outcome ts i (i.eval (.field m) look k) r := by
  have hcentre (e : Int) : Field.centre? m e = .ok (Field.centre m e) := by
    simp [Field.centre?, Field.nonzero, hm]
  have hencode (e : Int) : Field.encode? m e = .ok (Field.encode m e) := by
    simp [Field.encode?, Field.nonzero, hm]
  cases i with
  | lookup | halt => simp [Instruction.isArithmetic] at hi
  | add _ a b | sub _ a b | mul _ a b =>
    refine ⟨_, rfl, .inl ⟨_, rfl, ?_⟩⟩
    rw [hk a (by simp [Instruction.sources]), hk b (by simp [Instruction.sources])]
    exact hencode _
  | mac _ c a b =>
    refine ⟨_, rfl, .inl ⟨_, rfl, ?_⟩⟩
    rw [hk a (by simp [Instruction.sources]), hk b (by simp [Instruction.sources]),
      hk c (by simp [Instruction.sources])]
    exact hencode _
  | clamp _ a lo hi =>
    refine ⟨_, rfl, .inl ⟨_, rfl, ?_⟩⟩
    rw [hk a (by simp [Instruction.sources])]
    simp only [bind, Except.bind, hcentre]
    exact hencode _
  | rescale _ a shift =>
    refine ⟨_, rfl, ?_⟩
    rw [hk a (by simp [Instruction.sources])]
    simp only [bind, Except.bind, hcentre, Quantity.rescale?_eq, Instruction.eval,
      Semantics.moved, Semantics.field]
    cases hf : Quantity.rescaleFault? (Field.centre m (k a)) shift with
    | some f => exact .inr ⟨rfl, f, .tooFar hf, rfl⟩
    | none => exact .inl ⟨_, rfl, hencode _⟩

theorem compute_lookup [Platform] (hm : m ≠ 0) (hs : Stocked m ts s) (ha : Apart ts)
    {t : FoldedTable} (ht : t ∈ ts) (hl : look t.address.absolute = t.rows.toList)
    (hleg : Legible m t.rows.toList) {dest key : Int} (hk : s.read key = .ok (k key))
    (hr : Field.encode m (k key) = k key) :
    ∃ r tables, s.compute m (.lookup dest key t.address.absolute t.rows.size) =
        (r, { s with tables := tables }) ∧ Stocked m ts { s with tables := tables } ∧
      Outcome ts (.lookup dest key t.address.absolute t.rows.size)
        ((Instruction.lookup dest key t.address.absolute t.rows.size).eval (.field m) look k)
        r := by
  obtain ⟨tables, htab, hstock⟩ := table_eq hs ha ht
  refine ⟨_, tables, by rw [State.compute, htab], hstock, ?_⟩
  have hread : State.read { s with tables := tables } key = .ok (k key) := hk
  simp only [State.search, hread, bind, Except.bind, get_rowMap hleg hr, Instruction.eval, hl,
    Semantics.field, Field.centre?, Field.nonzero, if_neg hm]
  cases hf : t.rows.toList.find? (·.x == Field.centre m (k key)) with
  | some r => exact .inl ⟨_, rfl, rfl⟩
  | none =>
    refine .inr ⟨rfl, _, .outside ht fun r hr => ?_, rfl⟩
    simpa using List.find?_eq_none.1 hf r (by simpa using hr)

/-- The result of an instruction, or why there is none; nothing changes but the tables kept. -/
theorem compute_eq [Platform] (hm : m ≠ 0) (hs : Stocked m ts s) (ha : Apart ts)
    (hl : ∀ t ∈ ts, look t.address.absolute = t.rows.toList) {i : Instruction} (hi : Known m ts i)
    (hk : ∀ c ∈ i.sources, s.memory[c]? = some (k c) ∧ Field.encode m (k c) = k c) :
    ∃ r tables, s.compute m i = (r, { s with tables := tables }) ∧
      Stocked m ts { s with tables := tables } ∧ Outcome ts i (i.eval (.field m) look k) r := by
  have hread : ∀ c ∈ i.sources, s.read c = .ok (k c) := by
    intro c hc
    rw [State.read, (hk c hc).1]
  rcases hi with hi | ⟨t, ht, hleg, dest, key, rfl⟩
  · obtain ⟨r, hr, ho⟩ := compute_arithmetic hm hi hread
    exact ⟨r, s.tables, hr, hs, ho⟩
  · have hmem : key ∈ (Instruction.lookup dest key t.address.absolute t.rows.size).sources :=
      List.mem_singleton.2 rfl
    exact compute_lookup hm hs ha ht (hl t ht) hleg (hread key hmem) (hk key hmem).2

theorem Stocked.mono {s' : State} (h : Stocked m ts s) (ht : s'.tables = s.tables)
    (hm : ∀ t ∈ ts, ∀ c, t.address.absolute ≤ c → c < t.address.absolute + 2 * t.rows.size →
      s'.memory[c]? = s.memory[c]?) : Stocked m ts s' where
  rows := by
    intro t hmem i r hr
    have hi : i < t.rows.size := (Array.getElem?_eq_some_iff.1 hr).1
    rw [hm t hmem _ (by omega) (by omega), hm t hmem _ (by omega) (by omega)]
    exact h.rows t hmem i r hr
  kept := by
    rw [ht]
    exact h.kept

theorem permits_strict {c : Settings} (hs : c.strict = true) (ht : c.tolerance = some 0.0)
    {d held : Int} (hd : s.memory[d]? = some held) (value : Int) :
    (held = value ∧ c.permits s d value = .ok ()) ∨
      held ≠ value ∧ c.permits s d value = .error (s.inconsistent d (.mismatch held value)) := by
  unfold Settings.permits
  rw [hs, hd]
  by_cases he : held = value
  · exact .inl ⟨he, by simp [he]⟩
  · have ha : c.accepts d held value = .ok false := by
      unfold Settings.accepts
      rw [ht]
      split
      · rfl
      · exact if_pos (by decide)
    refine .inr ⟨he, ?_⟩
    simp only [if_neg he, ha, bind, Except.bind]
    rfl

section

variable {c : Settings}

theorem run_start [Platform] {code : List Instruction} {memory : Memory} :
    run c code (.start memory) = runThrough c (.start memory) code := rfl

theorem step_writes [Platform] {i : Instruction} {d v : Int} {next : State} (hd : i.dest? = some d)
    (hr : s.compute c.modulus i = (.ok v, next)) (hp : c.permits next d v = .ok ()) :
    step c s i =
      ({ next with memory := next.memory.insert d v, steps := next.steps + 1 }, none) := by
  rw [step, hd, hr]
  simp only [hp]

theorem get_insert (memory : Memory) (d v a : Int) :
    (memory.insert d v)[a]? = if d = a then some v else memory[a]? := by
  simp only [Std.TreeMap.getElem?_insert, compare_eq_iff_eq]

theorem step_fails [Platform] {i : Instruction} {d : Int} {next : State} {f : Fault}
    (hd : i.dest? = some d) (hr : s.compute c.modulus i = (.error f, next)) :
    step c s i = (next, some f) := by
  rw [step, hd, hr]

theorem step_refuses [Platform] {i : Instruction} {d v : Int} {next : State} {f : Fault}
    (hd : i.dest? = some d) (hr : s.compute c.modulus i = (.ok v, next))
    (hp : c.permits next d v = .error f) : step c s i = (next, some f) := by
  rw [step, hd, hr]
  simp only [hp]

/-- What a strict machine reports of an instruction whose cell does not hold its result: the cell
with the two values, or why there is no result. -/
inductive Objection [Platform] (ts : List FoldedTable) (s : State) (k : Int → Int) (i : Instruction)
    (expected : Option Int) : Fault → Prop
  | mismatch {d v : Int} : i.dest? = some d → expected = some v → k d ≠ v →
      Objection ts s k i expected (s.inconsistent d (.mismatch (k d) v))
  | excused {f : Fault} : expected = none → Excuse ts i f → Objection ts s k i expected f

theorem Objection.not_holds [Platform] {S : Semantics} {i : Instruction} {f : Fault} {d : Int}
    (hd : i.dest? = some d) (h : Objection ts s k i (i.eval S look k) f) :
    ¬ Holds S look k i := by
  intro hh
  have hv := hh d hd
  cases h with
  | mismatch hd' hv' hne =>
    obtain rfl := Option.some.inj (hd.symm.trans hd')
    exact hne (Option.some.inj (hv.symm.trans hv'))
  | excused hn => exact absurd (hv.symm.trans hn) (by simp)

theorem step_strict [Platform] (hm : c.modulus ≠ 0) (hs : c.strict = true)
    (ht : c.tolerance = some 0.0) (hstock : Stocked c.modulus ts s) (ha : Apart ts)
    (hl : ∀ t ∈ ts, look t.address.absolute = t.rows.toList) {i : Instruction}
    (hi : Known c.modulus ts i)
    (hk : ∀ a ∈ i.sources, s.memory[a]? = some (k a) ∧ Field.encode c.modulus (k a) = k a) {d : Int}
    (hd : i.dest? = some d) (hkd : s.memory[d]? = some (k d)) :
    (Holds (.field c.modulus) look k i ∧ ∃ s', step c s i = (s', none) ∧
        (∀ a : Int, s'.memory[a]? = s.memory[a]?) ∧ s'.halted = s.halted ∧ s'.pc = s.pc ∧
          Stocked c.modulus ts s') ∨
      ∃ s' f, step c s i = (s', some f) ∧
        Objection ts s k i (i.eval (.field c.modulus) look k) f := by
  obtain ⟨r, tables, hr, hst, ⟨v, hv, rfl⟩ | ⟨hv, f, hf, rfl⟩⟩ := compute_eq hm hstock ha hl hi hk
  · have hkd' : ({ s with tables := tables } : State).memory[d]? = some (k d) := hkd
    rcases permits_strict hs ht hkd' v with ⟨rfl, hp⟩ | ⟨hne, hp⟩
    · have hmem : ∀ a : Int, (s.memory.insert d (k d))[a]? = s.memory[a]? := by
        intro a
        rw [get_insert]
        split
        · next he => rw [← he, hkd]
        · rfl
      refine .inl ⟨?_, _, step_writes hd hr hp, hmem, rfl, rfl,
        hst.mono rfl fun _ _ a _ _ => hmem a⟩
      intro e he
      obtain rfl : d = e := Option.some.inj (hd.symm.trans he)
      exact hv
    · exact .inr ⟨_, _, step_refuses hd hr hp, .mismatch hd hv hne⟩
  · exact .inr ⟨_, f, step_fails hd hr, .excused hv hf⟩

/-- A strict machine gets through if every cell holds the result of its instruction, and stops at
the first one that does not. -/
theorem runThrough_strict_cases [Platform] (hm : c.modulus ≠ 0) (hs : c.strict = true)
    (ht : c.tolerance = some 0.0) (ha : Apart ts)
    (hl : ∀ t ∈ ts, look t.address.absolute = t.rows.toList) {is : List Instruction}
    (hstock : Stocked c.modulus ts s) (hh : s.halted = false)
    (hi : ∀ i ∈ is, Known c.modulus ts i ∧
      (∀ a ∈ i.sources, s.memory[a]? = some (k a) ∧ Field.encode c.modulus (k a) = k a) ∧
      ∃ d, i.dest? = some d ∧ s.memory[d]? = some (k d)) :
    ((runThrough c s is).2 = none ∧ ∀ i ∈ is, Holds (.field c.modulus) look k i) ∨
      ∃ pre i post u last f, is = pre ++ i :: post ∧
        (∀ j ∈ pre, Holds (.field c.modulus) look k j) ∧ u.pc = s.pc + pre.length ∧
        (∀ a : Int, u.memory[a]? = s.memory[a]?) ∧ step c u i = (last, some f) ∧
        runThrough c s is = (last, some f) ∧
        Objection ts u k i (i.eval (.field c.modulus) look k) f := by
  induction is generalizing s with
  | nil => exact .inl ⟨rfl, by simp⟩
  | cons i is ih =>
    obtain ⟨hkn, hsrc, d, hd, hkd⟩ := hi i (by simp)
    rw [runThrough, hh]
    simp only [Bool.false_eq_true, if_false, List.forall_mem_cons]
    rcases step_strict hm hs ht hstock ha hl hkn hsrc hd hkd with
      ⟨hold, s', hstep, hmem, hhalt, hpc, hst⟩ | ⟨s', f, hstep, hf⟩
    · rw [hstep]
      have hmem' : ∀ a : Int,
          ({ s' with pc := s'.pc + 1 } : State).memory[a]? = s.memory[a]? := hmem
      have hrest := ih (s := { s' with pc := s'.pc + 1 }) (hst.mono rfl fun _ _ _ _ _ => rfl)
          (hhalt.trans hh) fun j hj => by
        obtain ⟨hkn, hsrc, d, hd, hkd⟩ := hi j (by simp [hj])
        exact ⟨hkn, fun a ha => by rw [hmem']; exact hsrc a ha, d, hd, by rw [hmem', hkd]⟩
      rcases hrest with ⟨hrun, hall⟩ | ⟨pre, j, post, u, last, f, rfl, hall, hu, hum, hrest⟩
      · exact .inl ⟨hrun, hold, hall⟩
      · refine .inr ⟨i :: pre, j, post, u, last, f, rfl, ?_, ?_, ?_, hrest⟩
        · exact List.forall_mem_cons.2 ⟨hold, hall⟩
        · rw [hu, List.length_cons, ← hpc]
          push_cast
          omega
        · exact fun a => (hum a).trans (hmem' a)
    · rw [hstep]
      exact .inr ⟨[], i, is, s, s', f, rfl, by simp, by simp, fun _ => rfl, hstep, rfl, hf⟩

theorem runThrough_strict [Platform] (hm : c.modulus ≠ 0) (hs : c.strict = true)
    (ht : c.tolerance = some 0.0) (ha : Apart ts)
    (hl : ∀ t ∈ ts, look t.address.absolute = t.rows.toList) {is : List Instruction}
    (hstock : Stocked c.modulus ts s) (hh : s.halted = false)
    (hi : ∀ i ∈ is, Known c.modulus ts i ∧
      (∀ a ∈ i.sources, s.memory[a]? = some (k a) ∧ Field.encode c.modulus (k a) = k a) ∧
      ∃ d, i.dest? = some d ∧ s.memory[d]? = some (k d)) :
    (runThrough c s is).2 = none ↔ ∀ i ∈ is, Holds (.field c.modulus) look k i := by
  rcases runThrough_strict_cases hm hs ht ha hl hstock hh hi with
    ⟨hrun, hall⟩ | ⟨pre, i, post, u, last, f, rfl, -, -, -, -, hrun, hf⟩
  · exact iff_of_true hrun hall
  · obtain ⟨-, -, d, hd, -⟩ := hi i (by simp)
    refine iff_of_false (by simp [hrun]) fun hall => ?_
    exact hf.not_holds hd (hall i (by simp))

/-- Instructions that can run from a memory: each cell is written once and read only behind that,
and the rows of tables are never written. -/
structure Ready (m : Int) (ts : List FoldedTable) (memory : Memory) (is : List Instruction) :
    Prop where
  known : ∀ i ∈ is, Known m ts i
  total : ∀ i ∈ is, ∃ d, i.dest? = some d
  once : (targets is).Nodup
  before : ∀ pre i post, is = pre ++ i :: post → ∀ a ∈ i.sources,
    (a ∈ targets pre ∨ ∃ v, memory[a]? = some v) ∧ a ∉ targets (i :: post)
  clear : ∀ t ∈ ts, ∀ a, t.address.absolute ≤ a → a < t.address.absolute + 2 * t.rows.size →
    a ∉ targets is

theorem targets_cons {i : Instruction} {is : List Instruction} {d : Int} (h : i.dest? = some d) :
    targets (i :: is) = d :: targets is := by
  simp [targets, h]

theorem Ready.tail {memory : Memory} {i : Instruction} {is : List Instruction} {d v : Int}
    (h : Ready m ts memory (i :: is)) (hd : i.dest? = some d) :
    Ready m ts (memory.insert d v) is where
  known := fun j hj => h.known j (by simp [hj])
  total := fun j hj => h.total j (by simp [hj])
  once := by
    have := h.once
    rw [targets_cons hd] at this
    exact (List.nodup_cons.1 this).2
  before := by
    rintro pre j post rfl a ha
    obtain ⟨hp, hn⟩ := h.before (i :: pre) j post rfl a ha
    refine ⟨?_, hn⟩
    rw [targets_cons hd, List.mem_cons] at hp
    by_cases had : d = a
    · exact .inr ⟨v, by simp [had]⟩
    · rcases hp with (rfl | hp) | ⟨u, hu⟩
      · exact absurd rfl had
      · exact .inl hp
      · refine .inr ⟨u, ?_⟩
        rw [get_insert, if_neg had, hu]
  clear := fun t ht a hl hu hw => h.clear t ht a hl hu (by simp [targets_cons hd, hw])

theorem Ready.left {memory : Memory} {xs ys : List Instruction}
    (h : Ready m ts memory (xs ++ ys)) : Ready m ts memory xs where
  known := fun i hi => h.known i (by simp [hi])
  total := fun i hi => h.total i (by simp [hi])
  once := by
    have := h.once
    rw [targets, List.filterMap_append] at this
    exact (List.nodup_append.1 this).1
  before := by
    rintro pre i post rfl a ha
    obtain ⟨hp, hn⟩ := h.before pre i (post ++ ys) (by simp) a ha
    refine ⟨hp, fun hin => hn ?_⟩
    rw [← List.cons_append, targets, List.filterMap_append]
    exact List.mem_append_left _ hin
  clear := fun t ht a hl hu hw => h.clear t ht a hl hu (by
    rw [targets, List.filterMap_append]
    exact List.mem_append_left _ hw)

/-- What a cell holds, and zero if it is not there. -/
def State.cell (s : State) (a : Int) : Int := s.memory.getD a 0

/-- How a machine ends that has run instructions: each cell holds the result of its instruction, the
others are as before. -/
structure Ran [Platform] (m : Int) (look : Int → List Table.Row) (s : State) (is : List Instruction)
    (last : State) : Prop where
  frame : ∀ a ∉ targets is, last.memory[a]? = s.memory[a]?
  there : ∀ a ∈ targets is, last.memory[a]? = some (last.cell a)
  holds : ∀ i ∈ is, Holds (.field m) look last.cell i
  reduced : ∀ a ∈ targets is, Field.encode m (last.cell a) = last.cell a

theorem State.cell_congr {s s' : State} {a : Int} (h : s'.memory[a]? = s.memory[a]?) :
    s'.cell a = s.cell a := by
  rw [State.cell, State.cell, Std.TreeMap.getD_eq_getD_getElem?,
    Std.TreeMap.getD_eq_getD_getElem?, h]

theorem State.cell_eq {s : State} {a v : Int} (h : s.memory[a]? = some v) : s.cell a = v := by
  rw [State.cell, Std.TreeMap.getD_eq_getD_getElem?, h]
  rfl

theorem Ready.there {i : Instruction} {is : List Instruction}
    (h : Ready m ts s.memory (i :: is))
    (hred : ∀ a ∈ i.sources, ∀ v, s.memory[a]? = some v → Field.encode m v = v) :
    ∀ a ∈ i.sources, s.memory[a]? = some (s.cell a) ∧ Field.encode m (s.cell a) = s.cell a := by
  intro a ha
  obtain ⟨hp, -⟩ := h.before [] i is rfl a ha
  obtain ⟨v, hv⟩ := hp.resolve_left (by simp [targets])
  rw [State.cell_eq hv]
  exact ⟨hv, hred a ha v hv⟩

theorem Ran.cons [Platform] {s s' last : State} {i : Instruction} {is : List Instruction}
    {d v : Int} (h : Ran m look s' is last) (hr : Ready m ts s.memory (i :: is))
    (hd : i.dest? = some d) (hv : i.eval (.field m) look s.cell = some v)
    (hs : ∀ a : Int, s'.memory[a]? = if d = a then some v else s.memory[a]?) :
    Ran m look s (i :: is) last := by
  have honce := hr.once
  rw [targets_cons hd, List.nodup_cons] at honce
  have hlast : last.memory[d]? = some v := by rw [h.frame d honce.1, hs, if_pos rfl]
  have hframe : ∀ a ∉ targets (i :: is), last.memory[a]? = s.memory[a]? := by
    intro a ha
    rw [targets_cons hd, List.mem_cons, not_or] at ha
    rw [h.frame a ha.2, hs, if_neg (Ne.symm ha.1)]
  refine ⟨hframe, ?_, ?_, ?_⟩
  · intro a ha
    rw [targets_cons hd, List.mem_cons] at ha
    rcases ha with rfl | ha
    · rw [State.cell_eq hlast, hlast]
    · exact h.there a ha
  · intro j hj
    rcases List.mem_cons.1 hj with rfl | hj
    · intro e he
      obtain rfl : d = e := Option.some.inj (hd.symm.trans he)
      rw [State.cell_eq hlast, ← hv]
      exact Instruction.eval_congr fun a ha =>
        State.cell_congr (hframe a (hr.before [] j is rfl a ha).2)
    · exact h.holds j hj
  · intro a ha
    rw [targets_cons hd, List.mem_cons] at ha
    rcases ha with rfl | ha
    · rw [State.cell_eq hlast]
      exact Instruction.eval_reduced hv
    · exact h.reduced a ha

theorem step_lenient [Platform] (hm : c.modulus ≠ 0) (hs : c.strict = false)
    (hstock : Stocked c.modulus ts s) (ha : Apart ts)
    (hl : ∀ t ∈ ts, look t.address.absolute = t.rows.toList) {i : Instruction}
    (hi : Known c.modulus ts i)
    (hk : ∀ a ∈ i.sources, s.memory[a]? = some (s.cell a) ∧
      Field.encode c.modulus (s.cell a) = s.cell a) {d : Int} (hd : i.dest? = some d) :
    (∃ v tables, i.eval (.field c.modulus) look s.cell = some v ∧
        Stocked c.modulus ts { s with tables := tables } ∧ step c s i =
          (⟨s.memory.insert d v, tables, s.pc, s.steps + 1, s.halted⟩, none)) ∨
      ∃ s' f, step c s i = (s', some f) ∧ i.eval (.field c.modulus) look s.cell = none ∧
        Excuse ts i f := by
  obtain ⟨r, tables, hr, hst, ⟨v, hv, rfl⟩ | ⟨hv, f, hf, rfl⟩⟩ := compute_eq hm hstock ha hl hi hk
  · have hp : c.permits { s with tables := tables } d v = .ok () := by
      unfold Settings.permits
      rw [hs]
    exact .inl ⟨v, tables, hv, hst, step_writes hd hr hp⟩
  · exact .inr ⟨_, f, step_fails hd hr, hv, hf⟩

/-- A machine that is not strict either gets through or stops at an instruction that has no result,
and has an excuse. -/
theorem runThrough_lenient [Platform] (hm : c.modulus ≠ 0) (hs : c.strict = false) (ha : Apart ts)
    (hl : ∀ t ∈ ts, look t.address.absolute = t.rows.toList) {is : List Instruction}
    (hstock : Stocked c.modulus ts s) (hh : s.halted = false)
    (hred : ∀ i ∈ is, ∀ a ∈ i.sources, a ∉ targets is → ∀ v, s.memory[a]? = some v →
      Field.encode c.modulus v = v)
    (hr : Ready c.modulus ts s.memory is) :
    (∃ last, runThrough c s is = (last, none) ∧ Ran c.modulus look s is last) ∨
      ∃ last f, runThrough c s is = (last, some f) ∧ ∃ pre i post u, is = pre ++ i :: post ∧
        Ran c.modulus look s pre u ∧ i.eval (.field c.modulus) look u.cell = none ∧
        Excuse ts i f := by
  have hnone (s : State) : Ran c.modulus look s [] s :=
    ⟨fun _ _ => rfl, by simp [targets], by simp, by simp [targets]⟩
  induction is generalizing s with
  | nil => exact .inl ⟨s, rfl, hnone s⟩
  | cons i is ih =>
    obtain ⟨d, hd⟩ := hr.total i (by simp)
    rw [runThrough, hh]
    simp only [Bool.false_eq_true, if_false]
    have hred₀ := fun a haj => hred i (by simp) a haj (hr.before [] i is rfl a haj).2
    rcases step_lenient hm hs hstock ha hl (hr.known i (by simp)) (hr.there hred₀) hd with
      ⟨v, tables, hv, hst, hstep⟩ | ⟨s', f, hstep, hv, hf⟩
    · -- rows are never written, so that the tables read later are the same
      have hmore : Stocked c.modulus ts
          ⟨s.memory.insert d v, tables, s.pc + 1, s.steps + 1, s.halted⟩ := by
        refine hst.mono rfl fun t ht a hlo hhi => ?_
        have hne : d ≠ a := by
          rintro rfl
          exact hr.clear t ht d hlo hhi (by simp [targets_cons hd])
        rw [get_insert, if_neg hne]
      have hred' : ∀ j ∈ is, ∀ a ∈ j.sources, a ∉ targets is → ∀ u,
          (s.memory.insert d v)[a]? = some u → Field.encode c.modulus u = u := by
        intro j hj a haj hnot u hu
        rw [get_insert] at hu
        split at hu
        · rw [← Option.some.inj hu]
          exact Instruction.eval_reduced hv
        · next hne =>
            have hnot' : a ∉ targets (i :: is) := by
              rw [targets_cons hd]
              simp [hnot, Ne.symm hne]
            exact hred j (by simp [hj]) a haj hnot' u hu
      rw [hstep]
      rcases ih hmore hh hred' (hr.tail hd) with
        ⟨last, hrun, hran⟩ | ⟨last, f, hrun, pre, j, post, u, rfl, hran, hj, hf⟩
      · exact .inl ⟨last, hrun, hran.cons hr hd hv (get_insert s.memory d v)⟩
      · refine .inr ⟨last, f, hrun, i :: pre, j, post, u, rfl, ?_, hj, hf⟩
        rw [← List.cons_append] at hr
        exact hran.cons hr.left hd hv (get_insert s.memory d v)
    · rw [hstep]
      exact .inr ⟨s', f, rfl, [], i, is, s, rfl, hnone s, hv, hf⟩

end

end Machine

end TensorAsm
