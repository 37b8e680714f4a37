import Mathlib
import TensorAsm.Proofs.Image
import TensorAsm.Proofs.Independence
import TensorAsm.Proofs.Ranges
import TensorAsm.Proofs.Refusals
import TensorAsm.Proofs.WitnessFaults
/-!
Which values can be recovered from a memory table. Those of the witness, those derived and the
inputs of tables fit the field, and so do outputs of tables at a scale that is not too far up.
-/

namespace TensorAsm

theorem Field.centre_encode_iff {m v : Int} (hodd : m % 2 = 1) (hm : 0 < m) :
    centre m (encode m v) = v ↔ Fits m v := by
  refine ⟨fun h => ?_, fun h => h.centre_encode hodd⟩
  have hh := half_eq m
  have hlo := Int.emod_nonneg v hm.ne'
  have hhi := Int.emod_lt_of_pos v hm
  rw [centre, encode, Int.fmod_eq_emod_of_nonneg _ hm.le, Int.fmod_eq_emod_of_nonneg _ hm.le,
    Int.emod_emod_of_dvd v (dvd_refl m), hh] at h
  rw [Fits, hh]
  split at h <;> omega

theorem Quantity.rescale_up {v shift : Int} (h : shift ≤ 0) :
    rescale v shift = v * 2 ^ (-shift).toNat := by
  unfold rescale
  split
  · next h0 => simp [h0]
  · rw [if_pos (by omega)]
    norm_num

namespace Table

variable {s : Spec} {rows : List Row} {m : Int}

theorem rowsFrom_row {f : Int → Except Fault Int} {count : Nat} {x : Int} {done : List Row}
    (h : rowsFrom f count x done = .ok rows) (hd : ∀ r ∈ done, f r.x = .ok r.y) :
    ∀ r ∈ rows, f r.x = .ok r.y := by
  induction count generalizing x done with
  | zero =>
    obtain rfl := Except.ok.inj h
    simpa using hd
  | succ count ih =>
    rw [rowsFrom] at h
    split at h
    · exact absurd h (by simp)
    · next y hy =>
        apply ih h
        intro r hr
        rcases List.mem_cons.1 hr with rfl | hr
        · exact hy
        · exact hd r hr

theorem relu_row [Platform] (hf : s.function = "relu") (h : fold s = .ok rows) {r : Row}
    (hr : r ∈ rows) :
    r.y = Quantity.rescale (max r.x 0) (s.inScale - s.outScale) := by
  have hrows : rowsOf s (reluRow s) = .ok rows := by
    unfold fold at h
    split at h
    · exact absurd h (by simp)
    split at h
    · exact absurd h (by simp)
    · simpa [hf] using h
  have hy := rowsFrom_row hrows (by simp) r hr
  rw [reluRow, Quantity.rescale?_eq] at hy
  split at hy
  · exact absurd hy (by simp)
  · exact (Except.ok.inj hy).symm

theorem half_le (hb : s.bits ≤ maxBits) : s.half ≤ 2 ^ 23 := by
  have hp : Nat.pow 2 (s.bits - 1).toNat ≤ 2 ^ 23 :=
    Nat.pow_le_pow_right (by decide) (by unfold maxBits at hb; omega)
  rw [Spec.half]
  omega

theorem input_fits [Platform] (hb : s.bits ≤ maxBits) (hm : 2 ^ 24 < m) (h : fold s = .ok rows)
    {r : Row} (hr : r ∈ rows) : Field.Fits m r.x := by
  have hh := Field.half_eq m
  have hx := (mem_fold_inputs h).1 (List.mem_map_of_mem hr)
  have hle := half_le hb
  rw [Field.Fits, hh]
  omega

theorem relu_fits_iff [Platform] (hf : s.function = "relu") (hb : s.bits ≤ maxBits)
    (hm : 2 ^ 24 < m) (h : fold s = .ok rows) :
    (∀ r ∈ rows, Field.Fits m r.y) ↔
      (s.half - 1) * 2 ^ (s.outScale - s.inScale).toNat ≤ Field.half m := by
  have hh := Field.half_eq m
  have hle := half_le hb
  have hpos : 0 < s.half := Int.natCast_pos.2 (Nat.pow_pos Nat.two_pos)
  have hmax : ∀ r ∈ rows, max r.x 0 ≤ s.half - 1 := by
    intro r hr
    have hx := (mem_fold_inputs h).1 (List.mem_map_of_mem hr)
    omega
  by_cases hs : s.outScale ≤ s.inScale
  · have hz : (s.outScale - s.inScale).toNat = 0 := by omega
    rw [hz, pow_zero, mul_one, hh]
    refine ⟨fun _ => by omega, fun _ r hr => ?_⟩
    rw [relu_row hf h hr]
    apply Field.Fits.of_natAbs_le _ (Quantity.natAbs_rescale_le (by omega))
    have hr := hmax r hr
    rw [Field.Fits, hh]
    omega
  · have hup : ∀ r ∈ rows, r.y = max r.x 0 * 2 ^ (s.outScale - s.inScale).toNat := by
      intro r hr
      rw [relu_row hf h hr, Quantity.rescale_up (by omega)]
      congr 3
      omega
    constructor
    · intro hall
      obtain ⟨r, hr, hx⟩ := List.mem_map.1 ((mem_fold_inputs h).2
        (⟨by omega, by omega⟩ : -s.half ≤ s.half - 1 ∧ s.half - 1 < s.half))
      have hy := (hall r hr).2
      rwa [hup r hr, hx, max_eq_left (by omega)] at hy
    · intro hle' r hr
      have hnonneg : 0 ≤ max r.x 0 * 2 ^ (s.outScale - s.inScale).toNat := by positivity
      have hbound : max r.x 0 * 2 ^ (s.outScale - s.inScale).toNat ≤
          (s.half - 1) * 2 ^ (s.outScale - s.inScale).toNat :=
        mul_le_mul_of_nonneg_right (hmax r hr) (by positivity)
      rw [hup r hr, Field.Fits]
      omega

end Table

/-- The values that a program is made with fit the field: those of the witness, those derived and
the inputs of tables. -/
structure Program.Fitting (p : Program) : Prop where
  witness : p.witness.Fitting p.modulus
  derived : ∀ (a : Int) v, p.derived[a]? = some v → Field.Fits p.modulus v
  inputs : ∀ t ∈ p.plan.tables, ∀ r ∈ t.rows, Field.Fits p.modulus r.x

namespace MemoryTable

/-- What a cell was given is its centred value. -/
def Recovered (p : Program) (c : Cell) : Prop :=
  ∃ o v, p.plan.allocator.owners[c.address]? = some o ∧ Gives p c.address o v ∧
    Field.centre p.modulus c.value = v

/-- The cell for the output of a row of a table. -/
def OutputCell (p : Program) (c : Cell) (r : Table.Row) : Prop :=
  ∃ t ∈ p.plan.tables, ∃ i : Nat, t.rows[i]? = some r ∧
    c.address = t.address.absolute + (2 * i + 1 : Nat)

end MemoryTable

namespace Program

open Lowering MemoryTable

variable {doc given : Json} {g : Circuit.Graph} {w : Witness} {name : String} {layout : Layout}
  {lookupBits : Json} {m : Int} {p : Program} {cells : List Cell}

theorem lower_derived_iff [Platform] (hg : Circuit.read doc = .ok g)
    (hw : Witness.read m g given = .ok w) (h : (lower name g w layout lookupBits m).1 = .ok p)
    {a : Int} :
    a ∈ p.derived ↔ a ∈ dests true p.plan.steps := by
  obtain ⟨plan, journal, values, done, hplan, hf, rfl⟩ :=
    lower_eq_ok (Witness.read_complete hw) h
  obtain ⟨zb, xs, outs, hp⟩ := plan_planned (Witness.read_complete hw).measured
    (Circuit.read_wellFormed hg) hplan
  rw [Values.follows_derived ⟨done, hf⟩, hp.stepsOf_journal]
  simp

theorem lower_derived_fits [Platform] (hg : Circuit.read doc = .ok g)
    (hw : Witness.read m g given = .ok w) (h : (lower name g w layout lookupBits m).1 = .ok p)
    {a v : Int} (ha : p.derived[a]? = some v) : Field.Fits m v := by
  have hmem : a ∈ p.derived := Std.TreeMap.mem_iff_isSome_getElem?.2 (by simp [ha])
  rw [lower_derived_iff hg hw h] at hmem
  obtain ⟨s, hs, hdest⟩ := List.mem_flatMap.1 hmem
  obtain ⟨hs, hder⟩ := List.mem_filter.1 hs
  obtain ⟨values, hl⟩ := lower_lowered hg hw h
  obtain ⟨-, hfits, hvalue⟩ :=
    hl.derivation.derived s hs (by simpa using hder) a (by simpa using hdest)
  rw [← hl.derived] at hvalue
  obtain rfl := Option.some.inj (hvalue.symm.trans ha)
  exact hfits

theorem lower_table_bits [Platform] (hg : Circuit.read doc = .ok g)
    (hw : Witness.read m g given = .ok w) (h : (lower name g w layout lookupBits m).1 = .ok p)
    {t : FoldedTable} (ht : t ∈ p.plan.tables) : t.spec.bits ≤ Table.maxBits := by
  have hends := (plan_ends (Witness.read_complete hw).measured (Circuit.read_wellFormed hg).ids
    layout lookupBits m).2
  obtain ⟨plan, journal, values, done, hplan, -, rfl⟩ :=
    lower_eq_ok (Witness.read_complete hw) h
  rw [hplan] at hends
  obtain ⟨o, -, x, -, hs⟩ := hends t ht
  exact (Table.specFor_bits hs).2

theorem lower_fitting [Platform] (hg : Circuit.read doc = .ok g)
    (hw : Witness.read m g given = .ok w) (hm : 2 ^ 24 < m)
    (h : (lower name g w layout lookupBits m).1 = .ok p) : p.Fitting := by
  obtain ⟨values, hl⟩ := lower_lowered hg hw h
  refine ⟨?_, ?_, ?_⟩
  · rw [hl.modulus, hl.witness]
    exact Witness.read_fitting hw
  · intro a v ha
    rw [hl.modulus]
    exact lower_derived_fits hg hw h ha
  · intro t ht r hr
    rw [hl.modulus]
    exact Table.input_fits (lower_table_bits hg hw h ht) hm (hl.sound.table t ht).1
      (Array.mem_toList_iff.2 hr)

theorem Fitting.gives_cases (h : p.Fitting) (hm : 0 < p.modulus) {a : Int} {o : Allocator.Owner}
    {v : Int} (hv : Gives p a o v) :
    Field.Fits p.modulus v ∨ ∃ t ∈ p.plan.tables, o.block.address = t.address ∧ o.index % 2 = 1 ∧
      ∃ r, t.rows[o.index / 2]? = some r ∧ v = r.y := by
  unfold Gives at hv
  split at hv
  · exact .inl (hv ▸ Field.fits_zero hm)
  · obtain ⟨t, ht, hadr, -, r, hr, rfl⟩ := hv
    split
    · exact .inl (h.inputs t ht r (Array.mem_of_getElem? hr))
    · exact .inr ⟨t, ht, hadr.symm, by omega, r, hr, rfl⟩
  · exact .inl (h.derived a v hv)
  · obtain ⟨e, he, hv⟩ := hv
    exact .inl (h.witness o.block.name e.values (by simp [Witness.values?, he]) v
      (Array.mem_of_getElem? hv))

namespace Lowered

variable [Platform] {values : Values} (h : Lowered g w lookupBits m p values)

include h

theorem gives_output {t : FoldedTable} (ht : t ∈ p.plan.tables) {i : Nat} {r : Table.Row}
    (hr : t.rows[i]? = some r) :
    ∃ b ∈ p.plan.allocator.allocations, b.address = t.address ∧
      ((2 * i + 1 : Nat) : Int) < b.size ∧ ∀ a v, Gives p a ⟨b, 2 * i + 1⟩ v → v = r.y := by
  obtain ⟨-, b, hb, hk, hadr, hsz⟩ := h.sound.table t ht
  have hi : i < t.rows.size := (Array.getElem?_eq_some_iff.1 hr).1
  refine ⟨b, hb, hadr, by omega, ?_⟩
  intro a v hv
  simp only [Gives, hk] at hv
  obtain ⟨u, hu, -, hsingle, q, hq, rfl⟩ := hv
  obtain rfl := hsingle t ht (by rw [hadr])
  rw [if_neg (by omega)]
  rw [show (2 * i + 1) / 2 = i by omega, hr] at hq
  exact congrArg Table.Row.y (Option.some.inj hq).symm

variable (hfit : p.Fitting) (hodd : m % 2 = 1) (hm : 0 < m) (hc : (write p).1 = .ok cells)

include hfit hodd hm hc

theorem not_recovered_iff {c : Cell} (hmem : c ∈ cells) :
    ¬Recovered p c ↔ ∃ r, OutputCell p c r ∧ ¬Field.Fits p.modulus r.y := by
  obtain ⟨o, v, ho, hv, he⟩ := (h.image hm hc).given c hmem
  have hrec (hv' : Field.Fits p.modulus v) : Recovered p c := by
    refine ⟨o, v, ho, hv, ?_⟩
    rw [he]
    exact hv'.centre_encode (h.modulus ▸ hodd)
  constructor
  · intro hn
    have hadr : c.address ∈ Region.all.flatMap (addresses p.plan.allocator) :=
      write_addresses hc ▸ List.mem_map_of_mem hmem
    obtain ⟨b, hb, i, hi, ha, ho'⟩ := h.owner_of_address hadr
    obtain rfl := Option.some.inj (ho.symm.trans ho')
    rcases hfit.gives_cases (h.modulus ▸ hm) hv with hv' | ⟨t, ht, hadr, hodd, r, hr, rfl⟩
    · exact absurd (hrec hv') hn
    · refine ⟨r, ⟨t, ht, i / 2, hr, ?_⟩, fun hv' => hn (hrec hv')⟩
      dsimp only at hadr hodd
      rw [← ha, hadr]
      omega
  · rintro ⟨r, ⟨t, ht, i, hr, ha⟩, hnot⟩ ⟨o', u, ho', hu, hcentre⟩
    obtain ⟨b, hb, hadr, hlt, hgives⟩ := h.gives_output ht hr
    obtain rfl := Option.some.inj (ho.symm.trans ho')
    rw [ha, ← hadr, Allocator.owner_eq h.sound.tiles hb hlt] at ho
    obtain rfl := Option.some.inj ho
    rw [hgives _ u hu, he, hgives _ v hv,
      Field.centre_encode_iff (h.modulus ▸ hodd) (h.modulus ▸ hm)] at hcentre
    exact hnot hcentre

theorem recovered_iff : (∀ c ∈ cells, Recovered p c) ↔
    ∀ t ∈ p.plan.tables, ∀ r ∈ t.rows, Field.Fits p.modulus r.y := by
  constructor
  · intro hall t ht r hr
    obtain ⟨i, hi⟩ := Array.mem_iff_getElem?.1 hr
    obtain ⟨b, hb, hadr, hlt, -⟩ := h.gives_output ht hi
    have hin : b.address.absolute + (2 * i + 1 : Nat) ∈ cells.map (·.address) := by
      rw [write_addresses hc, mem_all_addresses h.sound.coherent h.sound.tiles]
      exact ⟨b, hb, Allocation.cell_mem hlt⟩
    obtain ⟨c, hmem, ha⟩ := List.mem_map.1 hin
    by_contra hnot
    refine (h.not_recovered_iff hfit hodd hm hc hmem).2 ⟨r, ⟨t, ht, i, hi, ?_⟩, hnot⟩
      (hall c hmem)
    rw [ha, hadr]
  · intro hall c hmem
    by_contra hn
    obtain ⟨r, ⟨t, ht, i, hr, -⟩, hnot⟩ := (h.not_recovered_iff hfit hodd hm hc hmem).1 hn
    exact hnot (hall t ht r (Array.mem_of_getElem? hr))

end Lowered

/-- All that is given to the cells of a memory table fits the field and can be recovered, but for
outputs of tables. Those of a rectifier fit if the scale does not go too far up. -/
theorem write_recovered_iff [Platform] (hg : Circuit.read doc = .ok g)
    (hw : Witness.read m g given = .ok w) (hodd : m % 2 = 1) (hm : 2 ^ 24 < m)
    (h : (lower name g w layout lookupBits m).1 = .ok p) (hc : (write p).1 = .ok cells) :
    p.Fitting ∧
    (∀ c ∈ cells, ¬Recovered p c ↔ ∃ r, OutputCell p c r ∧ ¬Field.Fits p.modulus r.y) ∧
    ((∀ c ∈ cells, Recovered p c) ↔
      ∀ t ∈ p.plan.tables, ∀ r ∈ t.rows, Field.Fits p.modulus r.y) ∧
    ∀ t ∈ p.plan.tables, t.spec.function = "relu" →
      ((∀ r ∈ t.rows, Field.Fits p.modulus r.y) ↔
        (t.spec.half - 1) * 2 ^ (t.spec.outScale - t.spec.inScale).toNat
          ≤ Field.half p.modulus) := by
  obtain ⟨values, hl⟩ := lower_lowered hg hw h
  have hfit := lower_fitting hg hw hm h
  have hpos : 0 < m := by omega
  refine ⟨hfit, fun c hmem => hl.not_recovered_iff hfit hodd hpos hc hmem,
    hl.recovered_iff hfit hodd hpos hc, ?_⟩
  intro t ht hf
  rw [hl.modulus]
  simpa using Table.relu_fits_iff hf (lower_table_bits hg hw h ht) hm (hl.sound.table t ht).1

end Program

theorem Sample.outputs_fit {p : Program}
    (h : (Program.lower "sample" graph witness default (.int 3) Field.defaultModulus).1 = .ok p) :
    ∀ t ∈ p.plan.tables, ∀ r ∈ t.rows, Field.Fits p.modulus r.y := by
  have hall : ((Program.lower "sample" graph witness default (.int 3)
      Field.defaultModulus).1.toOption.all fun p => p.plan.tables.all fun t =>
        t.rows.toList.all fun r => decide (Field.Fits p.modulus r.y)) = true := by
    decide +kernel
  rw [h] at hall
  simp only [Except.toOption, Option.all_some, List.all_eq_true, decide_eq_true_eq,
    Array.mem_toList_iff] at hall
  exact hall

theorem Program.sample_recovered :
    ∃ p cells,
      (lower "sample" Sample.graph Sample.witness default (.int 3) Field.defaultModulus).1
        = .ok p ∧
      (MemoryTable.write p).1 = .ok cells ∧ p.Fitting ∧
      ∀ c ∈ cells, MemoryTable.Recovered p c := by
  obtain ⟨p, h⟩ := Sample.lowers
  obtain ⟨values, hl⟩ := lower_lowered Sample.read_circuit Sample.read_values h
  obtain ⟨cells, hc⟩ := (hl.write_iff (by decide)).2 (by rw [Sample.required]; decide)
  obtain ⟨hfit, -, hall, -⟩ := write_recovered_iff Sample.read_circuit Sample.read_values
    (by decide) (by decide) h hc
  exact ⟨p, cells, h, hc, hfit, hall.2 (Sample.outputs_fit h)⟩

namespace FarUp

def graph : Circuit.Graph :=
  ⟨[⟨"x", [1], 0, .priv⟩, ⟨"y", [1], 300, .priv⟩],
    [⟨1, "relu", ["x"], "y", 300, [("bits", .int 2)]⟩], ["x"], ["y"]⟩

def circuit : Json := graph.document

def values : Json := .obj [("x", .arr [.int 0]), ("y", .arr [.int 0])]

def witness : Witness := [("x", ⟨[1], #[0]⟩), ("y", ⟨[1], #[0]⟩)]

theorem read_circuit : Circuit.read circuit = .ok graph := by
  cbv

theorem read_values : Witness.read Field.defaultModulus graph values = .ok witness := by
  cbv

theorem lowers :
    ∃ p, (Program.lower "far" graph witness default (.int 8) Field.defaultModulus).1 = .ok p :=
  Sample.exists_ok (by decide +kernel)

theorem required : graph.required = ["x", "y"] := by
  cbv

theorem output_unfit {p : Program}
    (h : (Program.lower "far" graph witness default (.int 8) Field.defaultModulus).1 = .ok p) :
    ∃ t ∈ p.plan.tables, ∃ r ∈ t.rows, r.x = 1 ∧ ¬Field.Fits p.modulus r.y := by
  have hany : ((Program.lower "far" graph witness default (.int 8)
      Field.defaultModulus).1.toOption.any fun p => p.plan.tables.any fun t =>
        t.rows.toList.any fun r => decide (r.x = 1 ∧ ¬Field.Fits p.modulus r.y)) = true := by
    decide +kernel
  rw [h] at hany
  simp only [Except.toOption, Option.any_some, List.any_eq_true, decide_eq_true_eq,
    Array.mem_toList_iff] at hany
  exact hany

end FarUp

/-- The table of a rectifier from scale 0 to scale 300 has the row for one in memory, but its
output cannot be recovered. -/
theorem Program.far_up_lost :
    ∃ p cells,
      Circuit.read FarUp.circuit = .ok FarUp.graph ∧
      Witness.read Field.defaultModulus FarUp.graph FarUp.values = .ok FarUp.witness ∧
      (lower "far" FarUp.graph FarUp.witness default (.int 8) Field.defaultModulus).1 = .ok p ∧
      (MemoryTable.write p).1 = .ok cells ∧
      (∃ t ∈ p.plan.tables, ∃ r ∈ t.rows, r.x = 1 ∧ ¬Field.Fits p.modulus r.y) ∧
      ∃ c ∈ cells, ¬MemoryTable.Recovered p c := by
  obtain ⟨p, h⟩ := FarUp.lowers
  obtain ⟨values, hl⟩ := lower_lowered FarUp.read_circuit FarUp.read_values h
  obtain ⟨cells, hc⟩ := (hl.write_iff (by decide)).2 (by rw [FarUp.required]; decide)
  have hbad := FarUp.output_unfit h
  refine ⟨p, cells, FarUp.read_circuit, FarUp.read_values, h, hc, hbad, ?_⟩
  by_contra hall
  push Not at hall
  obtain ⟨t, ht, r, hr, -, hnot⟩ := hbad
  have hfit := lower_fitting FarUp.read_circuit FarUp.read_values (by decide) h
  exact hnot ((hl.recovered_iff hfit (by decide) (by decide) hc).1 hall t ht r hr)

end TensorAsm
