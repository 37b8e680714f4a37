import TensorAsm.Proofs.Sources
import TensorAsm.Proofs.Strictness
/-!
Tables that are kept against tables that are read afresh at every lookup. The two ways agree up to a
lookup behind an earlier one of the same table, if a cell of the table was written in between. In
lowered programs none ever is.
-/

namespace TensorAsm.Machine

/-- The state without the tables that are kept. -/
def State.forget (s : State) : State := { s with tables := [] }

/-- Runs the given instructions as `runThrough` does, but each lookup reads its table from the cells
as they are then. -/
def runAfresh [Platform] (c : Settings) (s : State) : List Instruction → State × Option Fault
  | [] => (s, none)
  | i :: rest =>
    if s.halted then (s, none)
    else
      match step c s.forget i with
      | (next, some f) => (next, some f)
      | (next, none) => runAfresh c { next with pc := next.pc + 1 } rest

/-- The same cells, counters and fault, whatever tables are kept. -/
def Agrees (x y : State × Option Fault) : Prop := x.1.forget = y.1.forget ∧ x.2 = y.2

/-- An instruction that looks something up in the table of so many rows from a cell on. -/
def Consulted (base rows : Int) (i : Instruction) : Prop :=
  ∃ dest key, i = .lookup dest key base rows

/-- Among the instructions a table is looked up, and by that lookup or behind it one of the cells of
the table is written. -/
def Rewritten (code : List Instruction) (base rows : Int) : Prop :=
  ∃ pre i mid, code = pre ++ i :: mid ∧ Consulted base rows i ∧
    ∃ w ∈ i :: mid, ∃ d, w.dest? = some d ∧ base ≤ d ∧ d < base + 2 * rows

/-- A lookup for which a state keeps a table that the cells no longer hold, since they were written
behind an earlier lookup. -/
def Outdated (s : State) (past : List Instruction) (i : Instruction) : Prop :=
  ∃ base rows t, Consulted base rows i ∧ s.tables.lookup (base, rows) = some t ∧
    s.buildTable base rows ≠ .ok t ∧ Rewritten past base rows

section

variable {c : Settings} {s u next : State} {i : Instruction} {past code : List Instruction}
  {base rows : Int}

@[simp] theorem forget_read (s : State) (a : Int) : s.forget.read a = s.read a := rfl

theorem forget_addRows (s : State) (t : Memory) (base : Int) (n : Nat) :
    s.forget.addRows t base n = s.addRows t base n := by
  induction n generalizing t base with
  | zero => rfl
  | succ n ih => simp only [State.addRows, forget_read, ih]

@[simp] theorem forget_buildTable (s : State) (base rows : Int) :
    s.forget.buildTable base rows = s.buildTable base rows := forget_addRows s ∅ base _

theorem search_congr (h : s.forget = u.forget) (m : Int) (t : Memory) (cell table : Int) :
    s.search m t cell table = u.search m t cell table := by
  have hs : s.search m t cell table = s.forget.search m t cell table := rfl
  have hu : u.search m t cell table = u.forget.search m t cell table := rfl
  rw [hs, hu, h]

theorem permits_congr (h : s.forget = u.forget) (d v : Int) :
    c.permits s d v = c.permits u d v := by
  have hs : c.permits s d v = c.permits s.forget d v := rfl
  have hu : c.permits u d v = c.permits u.forget d v := rfl
  rw [hs, hu, h]

theorem addRows_frame {t r : Memory} {n : Nat} (hs : s.addRows t base n = .ok r)
    (h : ∀ a, base ≤ a → a < base + 2 * n → u.memory[a]? = s.memory[a]?) :
    u.addRows t base n = .ok r := by
  induction n generalizing t base with
  | zero => exact hs
  | succ n ih =>
    simp only [State.addRows, State.read] at hs ⊢
    rw [h base (by omega) (by omega), h (base + 1) (by omega) (by omega)]
    cases hk : s.memory[base]? with
    | none => simp [hk] at hs
    | some key =>
      cases hv : s.memory[base + 1]? with
      | none => simp [hk, hv] at hs
      | some value =>
        simp only [hk, hv] at hs
        exact ih hs fun a hl hu => h a (by omega) (by omega)

theorem buildTable_frame {t : Memory} (hs : s.buildTable base rows = .ok t)
    (h : ∀ a, base ≤ a → a < base + 2 * rows → u.memory[a]? = s.memory[a]?) :
    u.buildTable base rows = .ok t :=
  addRows_frame hs fun a hl hu => h a hl (by omega)

theorem forget_table (h : ∀ t, s.tables.lookup (base, rows) = some t →
      s.buildTable base rows = .ok t) :
    (s.table base rows).1 = s.buildTable base rows ∧
      (s.table base rows).2.forget = s.forget := by
  unfold State.table
  cases hl : s.tables.lookup (base, rows) with
  | some t => exact ⟨(h t hl).symm, rfl⟩
  | none => cases hb : s.buildTable base rows <;> exact ⟨rfl, rfl⟩

theorem compute_forget [Platform] (m : Int) (h : ∀ base rows t, Consulted base rows i →
      s.tables.lookup (base, rows) = some t → s.buildTable base rows = .ok t) :
    (s.compute m i).1 = (s.forget.compute m i).1 := by
  cases i with
  | lookup dest key base rows =>
    obtain ⟨hs, hf⟩ := forget_table fun t => h base rows t ⟨dest, key, rfl⟩
    obtain ⟨hs', hf'⟩ : (s.forget.table base rows).1 = s.forget.buildTable base rows ∧
        (s.forget.table base rows).2.forget = s.forget.forget :=
      forget_table (by simp [State.forget])
    rw [forget_buildTable, ← hs] at hs'
    simp only [State.compute]
    rcases ht : s.table base rows with ⟨r, s'⟩
    rcases hu : s.forget.table base rows with ⟨r', u'⟩
    rw [ht, hu] at hs'
    rw [ht] at hf
    rw [hu] at hf'
    obtain rfl : r' = r := hs'
    cases r' with
    | error f => rfl
    | ok t => exact search_congr (hf.trans hf'.symm) m t key base
  | _ => rfl

theorem compute_next [Platform] (s : State) (m : Int) (i : Instruction) :
    (s.compute m i).2.forget = s.forget := by
  obtain ⟨tables, ht⟩ := s.compute_kept m i
  rw [ht]
  rfl

theorem step_forget [Platform] (h : ∀ base rows t, Consulted base rows i →
      s.tables.lookup (base, rows) = some t → s.buildTable base rows = .ok t) :
    Agrees (step c s i) (step c s.forget i) := by
  unfold step
  cases hd : i.dest? with
  | none => exact ⟨rfl, rfl⟩
  | some d =>
    have hr := compute_forget c.modulus h
    have hnext := (compute_next s c.modulus i).trans (compute_next s.forget c.modulus i).symm
    rcases hs : s.compute c.modulus i with ⟨r, s'⟩
    rcases hu : s.forget.compute c.modulus i with ⟨r', u'⟩
    rw [hs, hu] at hr hnext
    obtain rfl : r = r' := hr
    cases r with
    | error f => exact ⟨hnext, rfl⟩
    | ok v =>
      simp only [permits_congr (c := c) hnext d v]
      cases c.permits u' d v with
      | error f => exact ⟨hnext, rfl⟩
      | ok _ =>
        simp only [State.forget, State.mk.injEq] at hnext
        simp [Agrees, State.forget, hnext]

theorem step_tables [Platform] {t : Memory}
    (h : (step c s i).1.tables.lookup (base, rows) = some t) :
    s.tables.lookup (base, rows) = some t ∨
      Consulted base rows i ∧ s.buildTable base rows = .ok t := by
  have hcompute : (step c s i).1.tables = s.tables ∨
      (step c s i).1.tables = (s.compute c.modulus i).2.tables := by
    have hs := step_stepped c s i
    revert hs
    generalize step c s i = r
    intro hs
    cases hs with
    | halted => exact .inl rfl
    | failed _ hr | refused _ hr | wrote _ hr => exact .inr (by rw [hr])
  rcases hcompute with hk | hk
  · exact .inl (hk ▸ h)
  · rw [hk] at h
    cases i with
    | lookup dest key base' rows' =>
      simp only [State.compute, State.table] at h
      cases hl : s.tables.lookup (base', rows') with
      | some t => exact .inl (by simpa [hl] using h)
      | none =>
        cases hb : s.buildTable base' rows' with
        | error f => exact .inl (by simpa [hl, hb] using h)
        | ok t' =>
          simp only [hl, hb, List.lookup_cons] at h
          split at h
          · next he =>
              obtain ⟨rfl, rfl⟩ := Prod.mk.inj (eq_of_beq he)
              exact .inr ⟨⟨dest, key, rfl⟩, (Option.some.inj h) ▸ hb⟩
          · exact .inl h
    | _ => exact .inl h

theorem step_memory [Platform] (c : Settings) (s : State) {a : Int} (ha : i.dest? ≠ some a) :
    (step c s i).1.memory[a]? = s.memory[a]? := by
  have hs := step_stepped c s i
  revert hs
  generalize step c s i = r
  intro hs
  cases hs with
  | halted | failed | refused => rfl
  | @wrote d v tables hd =>
    refine (get_insert s.memory d v a).trans (if_neg ?_)
    rintro rfl
    exact ha hd

theorem rewritten_last {j : Instruction} (hj : j ∈ past ++ [i]) (hc : Consulted base rows j)
    (hd : ∃ d, i.dest? = some d ∧ base ≤ d ∧ d < base + 2 * rows) :
    Rewritten (past ++ [i]) base rows := by
  rcases List.mem_append.1 hj with hj | hj
  · obtain ⟨pre, mid, rfl⟩ := List.append_of_mem hj
    exact ⟨pre, j, mid ++ [i], by simp, hc, i, by simp, hd⟩
  · obtain rfl := List.mem_singleton.1 hj
    exact ⟨past, j, [], rfl, hc, j, by simp, hd⟩

theorem Rewritten.snoc (h : Rewritten past base rows) (i : Instruction) :
    Rewritten (past ++ [i]) base rows := by
  obtain ⟨pre, j, mid, rfl, hj, w, hw, hd⟩ := h
  refine ⟨pre, j, mid ++ [i], by simp, hj, w, ?_, hd⟩
  rw [← List.cons_append]
  exact List.mem_append_left _ hw

/-- The tables kept after some instructions: each was looked up by one of them, and stands in the
cells still if they were not written since. -/
def Kept (past : List Instruction) (s : State) : Prop :=
  ∀ base rows t, s.tables.lookup (base, rows) = some t → (∃ i ∈ past, Consulted base rows i) ∧
    (s.buildTable base rows = .ok t ∨ Rewritten past base rows)

theorem kept_start (memory : Memory) : Kept [] (.start memory) := by
  intro base rows t ht
  simp [State.start] at ht

theorem Kept.step [Platform] (h : Kept past s) (c : Settings) (i : Instruction) :
    Kept (past ++ [i]) (step c s i).1 := by
  intro base rows t ht
  -- the table is one that stood in the cells before the step
  have hold : (∃ j ∈ past ++ [i], Consulted base rows j) ∧
      (s.buildTable base rows = .ok t ∨ Rewritten past base rows) := by
    rcases step_tables ht with hk | ⟨hi, hb⟩
    · obtain ⟨⟨j, hj, hc⟩, hb⟩ := h base rows t hk
      exact ⟨⟨j, List.mem_append_left _ hj, hc⟩, hb⟩
    · exact ⟨⟨i, by simp, hi⟩, .inl hb⟩
  obtain ⟨⟨j, hj, hcon⟩, hb | hw⟩ := hold
  · refine ⟨⟨j, hj, hcon⟩, ?_⟩
    by_cases hd : ∃ d, i.dest? = some d ∧ base ≤ d ∧ d < base + 2 * rows
    · exact .inr (rewritten_last hj hcon hd)
    · exact .inl (buildTable_frame hb fun a hl hu => step_memory c s fun hda => hd ⟨a, hda, hl, hu⟩)
  · exact ⟨⟨j, hj, hcon⟩, .inr (hw.snoc i)⟩

theorem Kept.advance (h : Kept past s) (pc : Int) : Kept past { s with pc := pc } := by
  intro base rows t ht
  obtain ⟨hc, hb | hw⟩ := h base rows t ht
  · exact ⟨hc, .inl (buildTable_frame hb fun _ _ _ => rfl)⟩
  · exact ⟨hc, .inr hw⟩

theorem runAfresh_halted [Platform] (h : s.halted = true) (code : List Instruction) :
    runAfresh c s code = (s, none) := by
  cases code with
  | nil => rfl
  | cons i code => rw [runAfresh, if_pos h]

theorem runAfresh_cons [Platform] (h : s.halted = false) (hs : step c s.forget i = (next, none)) :
    runAfresh c s (i :: code) = runAfresh c { next with pc := next.pc + 1 } code := by
  rw [runAfresh, if_neg (by simp [h]), hs]

theorem runAfresh_cons_fault [Platform] {f : Fault} (h : s.halted = false)
    (hs : step c s.forget i = (next, some f)) : runAfresh c s (i :: code) = (next, some f) := by
  rw [runAfresh, if_neg (by simp [h]), hs]

theorem agrees_cons [Platform] {s' u' : State} (hf : s.forget = u.forget) (hs : s.halted = false)
    (hu : u.halted = false) (hstep : step c s i = (s', none))
    (hstep' : step c u.forget i = (u', none)) {n : Nat}
    (h : ∀ k, n = k + 1 → Agrees (runThrough c { s' with pc := s'.pc + 1 } (code.take k))
      (runAfresh c { u' with pc := u'.pc + 1 } (code.take k))) :
    Agrees (runThrough c s ((i :: code).take n)) (runAfresh c u ((i :: code).take n)) := by
  cases n with
  | zero => exact ⟨hf, rfl⟩
  | succ k =>
    rw [List.take_succ_cons, runThrough_cons hs hstep, runAfresh_cons hu hstep']
    exact h k rfl

/-- A machine that keeps tables goes along with one that does not, up to a lookup that finds an
outdated one. -/
theorem runThrough_afresh [Platform] (code : List Instruction) (hk : Kept past s)
    (hf : s.forget = u.forget) :
    (∀ n, Agrees (runThrough c s (code.take n)) (runAfresh c u (code.take n))) ∨
      ∃ before i after last, code = before ++ i :: after ∧
        runThrough c s before = (last, none) ∧ last.halted = false ∧
        Outdated last (past ++ before) i ∧ ∀ n ≤ before.length,
          Agrees (runThrough c s (code.take n)) (runAfresh c u (code.take n)) := by
  induction code generalizing past s u with
  | nil => exact .inl fun n => by simpa using ⟨hf, rfl⟩
  | cons i code ih =>
    have hhalt : s.halted = u.halted :=
      (congrArg State.halted hf : s.forget.halted = u.forget.halted)
    cases hh : s.halted with
    | true =>
      refine .inl fun n => ?_
      rw [runThrough_halted hh, runAfresh_halted (hhalt ▸ hh)]
      exact ⟨hf, rfl⟩
    | false =>
      rw [hh] at hhalt
      by_cases ho : Outdated s past i
      · refine .inr ⟨[], i, code, s, rfl, rfl, hh, by simpa using ho, fun n hn => ?_⟩
        obtain rfl : n = 0 := Nat.le_zero.1 hn
        exact ⟨hf, rfl⟩
      -- no table that the instruction finds is outdated, so that both machines do the same
      have hfresh : ∀ base rows t, Consulted base rows i →
          s.tables.lookup (base, rows) = some t → s.buildTable base rows = .ok t := by
        intro base rows t hi ht
        by_contra hne
        exact ho ⟨base, rows, t, hi, ht, hne, (hk base rows t ht).2.resolve_left hne⟩
      have hkept := hk.step c i
      obtain ⟨hst, hft⟩ := step_forget (c := c) hfresh
      rw [hf] at hst hft
      rcases hs : step c s i with ⟨s', _ | f⟩ <;> rcases hu : step c u.forget i with ⟨u', f'⟩
      · rw [hs] at hkept
        rw [hs, hu] at hst hft
        obtain rfl : none = f' := hft
        have hnext : ({ s' with pc := s'.pc + 1 } : State).forget =
            ({ u' with pc := u'.pc + 1 } : State).forget := by
          simp only [State.forget, State.mk.injEq] at hst ⊢
          simp [hst]
        rcases ih (hkept.advance (s'.pc + 1)) hnext with
          hall | ⟨before, j, after, last, rfl, hrun, hlast, hout, hall⟩
        · exact .inl fun n => agrees_cons hf hh hhalt.symm hs hu fun k _ => hall k
        · refine .inr ⟨i :: before, j, after, last, rfl, ?_, hlast, by simpa using hout, ?_⟩
          · rw [runThrough_cons hh hs, hrun]
          · intro n hn
            refine agrees_cons hf hh hhalt.symm hs hu fun k hk => hall k ?_
            rw [List.length_cons] at hn
            omega
      · rw [hs, hu] at hst hft
        obtain rfl : some f = f' := hft
        refine .inl fun n => ?_
        cases n with
        | zero => exact ⟨hf, rfl⟩
        | succ n =>
          rw [List.take_succ_cons, runThrough_cons_fault hh hs,
            runAfresh_cons_fault hhalt.symm hu]
          exact ⟨hst, rfl⟩

end

/-- A machine that keeps the tables it has read agrees after every instruction with one that reads
them afresh at each lookup, or it comes to a lookup that finds an outdated table: an earlier lookup
has read the table, and it or an instruction behind it has written a cell of the table. -/
theorem run_afresh_or_outdated [Platform] (c : Settings) (memory : Memory)
    (code : List Instruction) :
    (∀ n, Agrees (run c (code.take n) (.start memory))
        (runAfresh c (.start memory) (code.take n))) ∨
      ∃ before i after last, code = before ++ i :: after ∧
        run c before (.start memory) = (last, none) ∧ last.halted = false ∧
        Outdated last before i ∧ ∀ n ≤ before.length,
          Agrees (run c (code.take n) (.start memory))
            (runAfresh c (.start memory) (code.take n)) :=
  runThrough_afresh code (kept_start memory) rfl

namespace Overwritten

/-- A table of one row, which gives 5 for the key 0. -/
def memory : Memory := MemoryTable.cellMap [(0, 0), (1, 1), (10, 0), (11, 5)]

/-- The second lookup stands behind an instruction that makes the row give 1. -/
def code : List Instruction := [.lookup 2 0 10 1, .add 11 1 0, .lookup 3 0 10 1]

end Overwritten

theorem outdated_row_found :
    (run (Execution.lenient Field.defaultModulus) Overwritten.code (.start Overwritten.memory)).2
        = none ∧
      (run (Execution.lenient Field.defaultModulus) Overwritten.code
        (.start Overwritten.memory)).1.memory[(3 : Int)]? = some 5 ∧
      (runAfresh (Execution.lenient Field.defaultModulus) (.start Overwritten.memory)
        Overwritten.code).1.memory[(3 : Int)]? = some 1 := by
  decide +kernel

end TensorAsm.Machine

namespace TensorAsm.Program

open Lowering Machine

variable [Platform] {g : Circuit.Graph} {w : Witness} {lookupBits : Json} {m : Int} {p : Program}
  {values : Values}

theorem Lowered.consulted (h : Lowered g w lookupBits m p values) {i : Instruction}
    (hi : i ∈ p.instructions) {base rows : Int} (hc : Consulted base rows i) :
    ∃ t ∈ p.plan.tables, base = t.address.absolute ∧ rows = t.rows.size := by
  obtain ⟨layout, journal, zb, xs, outs, hp⟩ := h.planned
  obtain ⟨s, hs, rfl⟩ := List.mem_map.1 hi
  obtain ⟨dest, key, hc⟩ := hc
  rw [hp.steps_eq] at hs
  obtain ⟨x, hx, hs⟩ := List.mem_flatMap.1 hs
  obtain ⟨before, hv⟩ := hp.valid hx
  rcases hv.template.instruction hs with ha | ⟨-, t, ht, -, d, k, heq⟩
  · simp [hc, Instruction.isArithmetic] at ha
  · obtain ⟨-, -, rfl, rfl⟩ := Instruction.lookup.inj (hc.symm.trans heq)
    exact ⟨t, ht, rfl, rfl⟩

theorem Lowered.not_rewritten (h : Lowered g w lookupBits m p values) {past rest : List Instruction}
    (hp : p.instructions = past ++ rest) (base rows : Int) : ¬ Rewritten past base rows := by
  rintro ⟨pre, i, mid, rfl, hi, j, hj, d, hd, hlo, hhi⟩
  have hin : ∀ k ∈ i :: mid, k ∈ p.instructions := fun k hk => by
    rw [hp]
    exact List.mem_append_left _ (List.mem_append_right _ hk)
  obtain ⟨t, ht, rfl, rfl⟩ := h.consulted (hin i (by simp)) hi
  obtain ⟨-, b, hb, hk, hadr, hsz⟩ := h.sound.table t ht
  obtain ⟨layout, journal, zb, xs, outs, hplan⟩ := h.planned
  refine hplan.never h.wellFormed (c := d) (.inr (.inr ⟨b, hb, ?_, hk⟩)) ?_
  · rw [Allocation.mem_cells, hadr, hsz]
    omega
  · rw [← targets_eq]
    exact List.mem_filterMap.2 ⟨j, hin j hj, hd⟩

/-- Over any memory, a machine that keeps tables runs a lowered program as one that does not. -/
theorem lower_agrees_afresh {doc given : Json} {name : String} {layout : Layout}
    (hg : Circuit.read doc = .ok g) (hw : Witness.read m g given = .ok w)
    (h : (lower name g w layout lookupBits m).1 = .ok p) (c : Settings) (memory : Memory)
    (n : Nat) :
    Agrees (run c (p.instructions.take n) (.start memory))
      (runAfresh c (.start memory) (p.instructions.take n)) := by
  obtain ⟨values, hl⟩ := lower_lowered hg hw h
  rcases runThrough_afresh (c := c) p.instructions (kept_start memory) rfl with
    hall | ⟨before, i, after, last, hsplit, -, -, ⟨base, rows, -, -, -, -, hre⟩, -⟩
  · exact hall n
  · exact absurd hre (hl.not_rewritten hsplit base rows)

end TensorAsm.Program
