import Mathlib
import TensorAsm.CommandLine
import TensorAsm.Proofs.Derivation
import TensorAsm.Proofs.Descriptions
import TensorAsm.Proofs.Refusals
import TensorAsm.Proofs.SingleAssignment
import TensorAsm.Proofs.WitnessFaults
/-!
The faults of a compilation that are no refusals: an operation of the circuit asks for what cannot
be counted, written or computed.
-/

namespace TensorAsm

namespace Circuit

variable {doc : Json} {g : Graph}

theorem TensorEntry.writable {entry : Json} {t : Tensor} (h : TensorEntry entry t)
    (he : entry.Legible) : Numeral.isWritable t.scale = true ∧
      ∀ d ∈ t.shape, Numeral.isWritable (d : Int) = true := by
  have hzero : (Json.int 0).Legible := Json.legible_int.2 (Numeral.isWritable_of_lt (k := 1)
    (by decide) (by decide))
  have hscale : ((entry.get? "scale").getD (.int 0)).Legible := he.getD hzero
  have hshape : ((entry.get? "shape").getD (.arr [])).Legible := he.getD Json.legible_nil
  rw [h.scale] at hscale
  rw [h.shape] at hshape
  refine ⟨Json.legible_int.1 hscale, ?_⟩
  intro d hd
  exact Json.legible_int.1 (hshape.item (List.mem_map_of_mem hd))

theorem tensor_writable (hdoc : doc.Legible) (hg : read doc = .ok g) {t : Tensor}
    (ht : t ∈ g.tensors) : Numeral.isWritable t.scale = true ∧
      ∀ d ∈ t.shape, Numeral.isWritable (d : Int) = true := by
  obtain ⟨hparts, hc⟩ := read_ok_iff_parts.1 hg
  obtain ⟨entries, hes, hall⟩ := ((parts_iff_describes hdoc hc).1 hparts).tensors
  obtain ⟨entry, he, htensor⟩ := Sequences.forall₂_mem_right hall ht
  exact htensor.writable ((hdoc.get hes).item he)

theorem read_written (hdoc : doc.Legible) (hg : read doc = .ok g) : g.Written := by
  obtain ⟨hparts, hc⟩ := read_ok_iff_parts.1 hg
  have htensor {id : String} {t : Tensor} (h : g.tensor? id = some t) :
      Numeral.isWritable t.scale = true :=
    (tensor_writable hdoc hg (List.mem_of_find?_eq_some h)).1
  refine ⟨?_, ?_, ?_⟩
  · intro o ho
    obtain ⟨entries, hes, hall⟩ := ((parts_iff_describes hdoc hc).1 hparts).operations
    obtain ⟨entry, he, hentry⟩ := Sequences.forall₂_mem_right hall ho
    exact Json.legible_int.1 (((hdoc.get hes).item he).get hentry.id)
  · intro o ho
    obtain ⟨t, ht, hid⟩ := List.mem_map.1 (hc.defined o ho o.output (by simp))
    rw [hc.scales o ho t ht hid]
    exact (tensor_writable hdoc hg ht).1
  · rintro o - t ⟨id, -, ht⟩
    exact htensor ht

end Circuit

theorem Instruction.exact_error [Platform] {i : Instruction} {k : Int → Int} {f : Fault}
    (h : i.exact k = .error f) :
    ∃ d a shift, i = .rescale d a shift ∧ Quantity.rescaleFault? (k a) shift = some f := by
  cases i with
  | rescale d a shift =>
    rw [exact, Quantity.rescale?_eq] at h
    split at h
    · next hf =>
        obtain rfl := Except.error.inj h
        exact ⟨d, a, shift, rfl, hf⟩
    · exact absurd h (by simp)
  | _ => exact absurd h (by simp [exact])

namespace Program.Values

open Circuit Lowering

variable [Platform] {g : Graph} {m node : Int} {w : Witness} {v v' : Values} {f : Fault}

/-- All values known so far fit the field. -/
def Fit (m : Int) (v : Values) : Prop := ∀ c, Field.Fits m (v.cell c)

/-- What can stop a walk through a journal. -/
def Stops (g : Graph) (m : Int) (f : Fault) : Prop :=
  Refused f ∨ ∃ o ∈ g.operations, ∃ shift x, Brings g o shift ∧ Field.Fits m x ∧
    Quantity.rescaleFault? x shift = some f

theorem Fit.stops (hv : v.Fit m) {i : Instruction} (hi : Moves g i)
    (h : i.exact v.cell = .error f) : Stops g m f := by
  obtain ⟨d, a, shift, he, hf⟩ := Instruction.exact_error h
  obtain ⟨o, ho, hb⟩ := hi d a shift he
  exact .inr ⟨o, ho, shift, _, hb, hv a, hf⟩

theorem step_fit (hv : v.Fit m) {s : Step} (h : step m node v s = .ok v') : v'.Fit m := by
  rcases step_cases h with ⟨-, rfl⟩ | ⟨d, value, -, -, -, hf, rfl⟩
  · exact hv
  · intro c
    rw [cell_record]
    split
    · exact hf
    · exact hv c

theorem step_stops (hv : v.Fit m) {s : Step} (hs : s.derived = true → Moves g s.instruction)
    (h : step m node v s = .error f) : Stops g m f := by
  unfold step at h
  split at h
  · next hd _ =>
      split at h
      · next he =>
          obtain rfl := Except.error.inj h
          exact hv.stops (hs hd) he
      · split at h
        · exact absurd h (by simp)
        · obtain rfl := Except.error.inj h
          exact .inl ⟨_, rfl, by simp [CompileError.kind, refusals]⟩
  · exact absurd h (by simp)

theorem steps_fit (hv : v.Fit m) {ss : List Step} (h : ss.foldlM (step m node) v = .ok v') :
    v'.Fit m := by
  induction ss generalizing v with
  | nil =>
    cases h
    exact hv
  | cons s ss ih =>
    obtain ⟨u, hu, hrest⟩ := Sequences.bind_ok h
    exact ih (step_fit hv hu) hrest

theorem steps_error (hv : v.Fit m) {ss : List Step} (h : ss.foldlM (step m node) v = .error f) :
    ∃ s ∈ ss, ∃ u : Values, u.Fit m ∧ step m node u s = .error f := by
  induction ss generalizing v with
  | nil => exact absurd h (by simp [pure, Except.pure])
  | cons s ss ih =>
    rw [List.foldlM_cons] at h
    cases hu : step m node v s with
    | error e =>
      obtain rfl : e = f := by simpa [hu, bind, Except.bind] using h
      exact ⟨s, by simp, v, hv, hu⟩
    | ok u =>
      rw [hu] at h
      obtain ⟨t, ht, hstop⟩ := ih (step_fit hv hu) h
      exact ⟨t, by simp [ht], hstop⟩

theorem steps_stops (hv : v.Fit m) {ss : List Step}
    (hs : ∀ s ∈ ss, s.derived = true → Moves g s.instruction)
    (h : ss.foldlM (step m node) v = .error f) : Stops g m f := by
  obtain ⟨s, hmem, u, hu, hstop⟩ := steps_error hv h
  exact step_stops hu (hs s hmem) hstop

theorem advance_fit (hw : w.Fitting m) (hv : v.Fit m) {e : Event}
    (h : v.advance m w e = .ok v') : v'.Fit m := by
  cases e with
  | allocated b =>
    simp only [advance] at h
    split at h
    · next values _ hvalues =>
        obtain rfl := Except.ok.inj h
        intro c
        rw [cell_place]
        split
        · next hin =>
            have hlt : (c - b.address.absolute).toNat < values.size := by omega
            rw [Array.getElem?_eq_getElem hlt]
            exact hw b.name values hvalues _ (Array.getElem_mem hlt)
        · exact hv c
    · exact Except.ok.inj h ▸ hv
  | emitted node ss => exact steps_fit hv h
  | dropped s =>
    obtain ⟨x, -, rfl⟩ := Sequences.map_ok h
    exact hv
  | _ => exact Except.ok.inj h ▸ hv

theorem advance_stops (hv : v.Fit m) {e : Event} (he : e.Lawful g)
    (h : v.advance m w e = .error f) : Stops g m f := by
  cases e with
  | allocated b =>
    simp only [advance] at h
    split at h <;> exact absurd h (by simp)
  | emitted node ss => exact steps_stops hv he h
  | dropped s => exact hv.stops he (Sequences.map_error h)
  | _ => exact absurd h (by simp [advance])

theorem follow_error (hw : w.Fitting m) (hv : v.Fit m) {evs done : List Event}
    (h : follow m w v evs = (v', done, some f)) :
    ∃ e ∈ evs, ∃ u : Values, u.Fit m ∧ u.advance m w e = .error f := by
  induction evs generalizing v done with
  | nil => simp [follow] at h
  | cons e evs ih =>
    rw [follow] at h
    split at h
    · next hf =>
        obtain rfl : _ = f := by simpa using (Prod.mk.inj (Prod.mk.inj h).2).2
        exact ⟨e, by simp, v, hv, hf⟩
    · next u hu =>
        rcases hr : follow m w u evs with ⟨last, rest, stop⟩
        rw [hr] at h
        obtain ⟨rfl, -, rfl⟩ : last = v' ∧ e :: rest = done ∧ stop = some f := by
          simpa using h
        obtain ⟨e', he, hstop⟩ := ih (advance_fit hw hv hu) hr
        exact ⟨e', by simp [he], hstop⟩

theorem follow_stops (hw : w.Fitting m) (hv : v.Fit m) {evs done : List Event}
    (he : ∀ e ∈ evs, e.Lawful g) (h : follow m w v evs = (v', done, some f)) : Stops g m f := by
  obtain ⟨e, hmem, u, hu, hstop⟩ := follow_error hw hv h
  exact advance_stops hu (he e hmem) hstop

end Program.Values

/-- A fault that is no refusal. -/
def Fault.Plain (f : Fault) : Prop := ∀ e, f ≠ .compile e

namespace Table

theorem moveFault_plain {room n bits : Nat} {f : Fault}
    (h : Quantity.moveFault? room n bits = some f) : f.Plain := by
  rcases Quantity.moveFault?_cases h with rfl | rfl <;> simp [Fault.Plain]

theorem rescaleFault_plain [Platform] {v shift : Int} {f : Fault}
    (h : Quantity.rescaleFault? v shift = some f) : f.Plain := by
  rcases Quantity.rescaleFault?_cases h with rfl | rfl <;> simp [Fault.Plain]

theorem floatOfInt_plain {n : Int} {f : Fault} (h : Json.floatOfInt n = .error f) : f.Plain := by
  unfold Json.floatOfInt at h
  split at h
  · exact absurd h (by simp)
  · exact Except.error.inj h ▸ fun e => by simp

theorem toFloat_plain {j : Json} {f : Fault} (h : j.toFloat = .error f) : f.Plain := by
  cases j with
  | int n => exact floatOfInt_plain h
  | str s =>
    simp only [Json.toFloat] at h
    split at h
    · exact absurd h (by simp)
    · exact Except.error.inj h ▸ fun e => by simp
  | bool b => exact absurd h (by simp [Json.toFloat])
  | float x => exact absurd h (by simp [Json.toFloat])
  | _ => exact Except.error.inj h ▸ fun e => by simp

theorem parameter_plain {j : Json} {f : Fault} (h : Parameter.read j = .error f) : f.Plain := by
  unfold Parameter.read at h
  split at h
  · exact toFloat_plain (Sequences.map_error h)
  · exact toFloat_plain (Sequences.map_error h)

theorem coordinate_plain {j : Json} {f : Fault} (h : Point.coordinate j = .error f) : f.Plain := by
  unfold Point.coordinate at h
  split at h
  · exact absurd h (by simp)
  · exact Except.error.inj h ▸ fun e => by simp
  · exact absurd h (by simp)

theorem point_plain {j : Json} {f : Fault} (h : Point.read j = .error f) : f.Plain := by
  unfold Point.read at h
  split at h
  · exact absurd h (by simp)
  split at h
  · next hx => exact Except.error.inj h ▸ coordinate_plain hx
  · exact absurd h (by simp)
  · exact coordinate_plain (Sequences.map_error h)

theorem points_plain {js : List Json} {f : Fault} (h : Point.readAll js = .error f) : f.Plain := by
  induction js with
  | nil => exact absurd h (by simp [Point.readAll])
  | cons j js ih =>
    rw [Point.readAll] at h
    split at h
    · next hj => exact Except.error.inj h ▸ point_plain hj
    · exact absurd h (by simp)
    · exact ih (Sequences.map_error h)

theorem rowsFrom_error {row : Int → Except Fault Int} {count : Nat} {x : Int} {done : List Row}
    {f : Fault} (h : rowsFrom row count x done = .error f) : ∃ x, row x = .error f := by
  induction count generalizing x done with
  | zero => exact absurd h (by simp [rowsFrom])
  | succ count ih =>
    rw [rowsFrom] at h
    split at h
    · next he => exact ⟨x, Except.error.inj h ▸ he⟩
    · exact ih h

theorem quantize_plain {x : Float} {f : Fault} (h : quantize x = .error f) : f.Plain := by
  unfold quantize at h
  split at h
  · exact Except.error.inj h ▸ fun e => by simp
  · exact Except.error.inj h ▸ fun e => by simp
  · exact absurd h (by simp)

theorem function_plain {s : Spec} {function : Float → Except Fault Float}
    (hf : realFunction? s = some function) {v : Float} {f : Fault} (h : function v = .error f) :
    f.Plain := by
  unfold realFunction? function? at hf
  split at hf
  · obtain rfl := Option.some.inj hf
    dsimp only at h
    split at h
    · exact absurd h (by simp)
    split at h
    · exact absurd h (by simp)
    · exact Except.error.inj h ▸ fun e => by simp
  · obtain rfl := Option.some.inj hf
    exact absurd h (by simp)
  · obtain rfl := Option.some.inj hf
    exact absurd h (by simp)
  · obtain rfl := Option.some.inj hf
    dsimp only at h
    split at h
    · unfold piecewise at h
      split at h
      · exact Except.error.inj h ▸ fun e => by simp
      · exact absurd h (by simp)
    · exact Except.error.inj h ▸ fun e => by simp
  · exact absurd hf (by simp)

theorem realRow_plain {s : Spec} {function : Float → Except Fault Float}
    (hf : realFunction? s = some function) {unit scale : Float} {x : Int} {f : Fault}
    (h : realRow function unit scale x = .error f) : f.Plain := by
  unfold realRow at h
  split at h
  · next hx => exact Except.error.inj h ▸ floatOfInt_plain hx
  split at h
  · exact Except.error.inj h ▸ fun e => by simp
  split at h
  · next hr => exact Except.error.inj h ▸ function_plain hf hr
  · exact quantize_plain h

theorem pow2_plain {n : Int} {f : Fault} (h : pow2 n = .error f) : f.Plain := by
  unfold pow2 at h
  split at h
  · exact Except.error.inj h ▸ fun e => by simp
  split at h
  · exact absurd h (by simp)
  · exact absurd h (by simp)

theorem foldReal_plain {s : Spec} {f : Fault} (h : foldReal s = .error f) : f.Plain := by
  unfold foldReal at h
  split at h
  · exact Except.error.inj h ▸ fun e => by simp
  next function hf =>
  split at h
  · split at h
    · exact Except.error.inj h ▸ fun e => by simp
    · obtain ⟨x, hx⟩ := rowsFrom_error h
      exact realRow_plain hf hx
  · next hp => exact Except.error.inj h ▸ pow2_plain hp
  · next hp _ => exact Except.error.inj h ▸ pow2_plain hp

theorem fold_plain [Platform] {s : Spec} {f : Fault} (h : fold s = .error f) : f.Plain := by
  unfold fold at h
  split at h
  · exact Except.error.inj h ▸ fun e => by simp
  split at h
  · next hp =>
      exact Except.error.inj h ▸ moveFault_plain hp
  split at h
  · obtain ⟨x, hx⟩ := rowsFrom_error h
    rw [reluRow, Quantity.rescale?_eq] at hx
    split at hx
    · next hr => exact Except.error.inj hx ▸ rescaleFault_plain hr
    · exact absurd hx (by simp)
  · exact foldReal_plain h

end Table

namespace Lowering

/-- A refusal with the report of it. An integer in its message that is too long to be written is
reported in its place. -/
def Told (f : Fault) : Prop :=
  ∃ e, f = .compile e ∧ e.kind ∈ refusals ∧
    (f.reported = f ∨
      f.reported = .invalid .unwritable ∧ ∃ n ∈ e.numbers, Numeral.isWritable n = false)

theorem Refused.told {f : Fault} (h : Refused f) : Told f := by
  obtain ⟨e, rfl, hk⟩ := h
  refine ⟨e, rfl, hk, ?_⟩
  by_cases hall : e.numbers.all Numeral.isWritable = true
  · exact .inl (if_pos hall)
  · obtain ⟨n, hn, hw⟩ := List.all_eq_false.1 (Bool.eq_false_iff.2 hall)
    exact .inr ⟨if_neg hall, n, hn, by simpa using hw⟩

theorem Told.complaint {f : Fault} (h : Told f) :
    (CommandLine.Ending.ofFault f).complaint?.isSome = true := by
  obtain ⟨e, rfl, -, hr | ⟨hr, -⟩⟩ := h
  · rw [CommandLine.Ending.ofFault, hr]
    rfl
  · rw [CommandLine.Ending.ofFault, hr]
    rfl

variable {g : Circuit.Graph} {lookupBits : Json} {m : Int} {f : Fault}

theorem Escape.plain [Platform] (h : Escape g lookupBits m f) : f.Plain := by
  cases h with
  | axes | uncountable | scales => exact fun e => by simp
  | alpha _ _ h => exact Table.parameter_plain h
  | breakpoints _ _ _ h => exact Table.points_plain h
  | table _ _ _ _ _ h => exact Table.fold_plain h
  | shift _ _ _ h => exact Table.rescaleFault_plain h

end Lowering

namespace Program

open Circuit Lowering

variable [Platform] {doc given : Json} {g : Graph} {w : Witness} {name : String} {layout : Layout}
  {lookupBits : Json} {m : Int} {f : Fault}

theorem lower_ends (hc : w.Complete m g) (hids : (g.operations.map (·.id)).Nodup)
    (hgw : g.Written) (hw : w.Fitting m) (hm : 0 < m)
    (h : (lower name g w layout lookupBits m).1 = .error f) :
    Refused f ∨ Escape g lookupBits m f := by
  obtain ⟨hlawful, hends⟩ := plan_ends hc.measured hids layout lookupBits m
  rw [lower_eq_outlined hc, outlined] at h
  rcases hp : Lowering.plan g layout lookupBits with ⟨result, journal⟩
  rcases hf : Values.follow m w ⟨∅, ∅⟩ journal with ⟨values, done, stop⟩
  simp only [hp] at hlawful hends
  simp only [hp, hf] at h
  cases stop with
  | some e =>
    obtain rfl := Except.error.inj h
    have hstart : Values.Fit m ⟨∅, ∅⟩ := fun c => by
      simpa [Values.cell] using Field.fits_zero hm
    rcases Values.follow_stops hw hstart hlawful hf with hr | ⟨o, ho, shift, v, hb, hv, hs⟩
    · exact .inl hr
    · exact .inr (.shift ho hb hv hs)
  | none =>
    cases result with
    | ok p => exact absurd h (by simp)
    | error e =>
      obtain rfl := Except.error.inj h
      rcases hends with hd | he | ⟨-, hn⟩
      · exact .inl hd.refused
      · exact .inr he
      · exact absurd hgw hn

/-- A witness is refused, or a tensor in use is too large for any witness. A lowering with a
witness is refused, or an operation asks for what cannot be counted, written or computed; then it
ends in a fault that is no refusal. -/
theorem lower_refused_or_escapes (hdoc : doc.Legible) (hg : Circuit.read doc = .ok g)
    (hm : 0 < m) :
    (∀ f, Witness.read m g given = .error f →
      (∃ gap, f.reported = .compile (.witness gap)) ∨ g.Oversized) ∧
    (g.Oversized → ∃ f, Witness.read m g given = .error f) ∧
    ∀ w, Witness.read m g given = .ok w →
      ∀ f, (lower name g w layout lookupBits m).1 = .error f →
        Told f ∧ (CommandLine.Ending.ofFault f).complaint?.isSome = true ∨
          Escape g lookupBits m f ∧ ∀ e, f ≠ .compile e := by
  have hwf := Circuit.read_wellFormed hg
  refine ⟨?_, ?_, ?_⟩
  · intro f h
    rcases Witness.read_error hwf hm (fun t ht => (tensor_writable hdoc hg ht).2) h with hgap | ho
    · have hr := hgap.reported
      obtain ⟨gap, rfl, -⟩ := hgap
      exact .inl ⟨gap, hr⟩
    · exact .inr ho
  · intro ho
    cases hr : Witness.read m g given with
    | ok w => exact absurd ho (Witness.read_not_oversized hr)
    | error f => exact ⟨f, rfl⟩
  · intro w hw f h
    rcases lower_ends (Witness.read_complete hw) hwf.ids (read_written hdoc hg)
      (Witness.read_fitting hw) hm h with hr | he
    · exact .inl ⟨hr.told, hr.told.complaint⟩
    · exact .inr ⟨he, he.plain⟩

end Program

namespace NullSlope

def graph : Circuit.Graph :=
  ⟨[⟨"x", [1], 0, .priv⟩, ⟨"y", [1], 0, .priv⟩],
    [⟨1, "leaky_relu", ["x"], "y", 0, [("alpha", .null), ("bits", .int 2)]⟩], ["x"], ["y"]⟩

def circuit : Json := graph.document

def values : Json := .obj [("x", .arr [.int 0]), ("y", .arr [.int 0])]

def witness : Witness := [("x", ⟨[1], #[0]⟩), ("y", ⟨[1], #[0]⟩)]

theorem legible : circuit.Legible := List.all_eq_true.1 (by decide +kernel)

theorem read_circuit : Circuit.read circuit = .ok graph := by
  cbv

theorem read_values : Witness.read Field.defaultModulus graph values = .ok witness := by
  cbv

theorem lowers : (Program.lower "slope" graph witness default (.int 8) Field.defaultModulus).1 =
    .error .wrongKind := by
  have hm : ((Program.lower "slope" graph witness default (.int 8) Field.defaultModulus).1 matches
      .error .wrongKind) = true := by
    decide +kernel
  split at hm
  · assumption
  · exact absurd hm (by simp)

end NullSlope

theorem Program.null_slope_caused :
    NullSlope.circuit.Legible ∧ Circuit.read NullSlope.circuit = .ok NullSlope.graph ∧
    0 < Field.defaultModulus ∧
    Lowering.Escape NullSlope.graph (.int 8) Field.defaultModulus .wrongKind := by
  have hm : 0 < Field.defaultModulus := by decide
  refine ⟨NullSlope.legible, NullSlope.read_circuit, hm, ?_⟩
  have h := (lower_refused_or_escapes NullSlope.legible NullSlope.read_circuit hm).2.2
    NullSlope.witness NullSlope.read_values .wrongKind NullSlope.lowers
  rcases h with ⟨⟨e, he, -⟩, -⟩ | ⟨he, -⟩
  · exact absurd he (by simp)
  · exact he

/-- The run breaks off with no line that says why. -/
theorem Program.null_slope_escapes :
    NullSlope.circuit.Legible ∧ Circuit.read NullSlope.circuit = .ok NullSlope.graph ∧
    Witness.read Field.defaultModulus NullSlope.graph NullSlope.values = .ok NullSlope.witness ∧
    (lower "slope" NullSlope.graph NullSlope.witness default (.int 8) Field.defaultModulus).1 =
      .error .wrongKind ∧
    (CommandLine.Ending.ofFault .wrongKind).status = 1 ∧
    (CommandLine.Ending.ofFault .wrongKind).complaint? = none :=
  ⟨NullSlope.legible, NullSlope.read_circuit, NullSlope.read_values, NullSlope.lowers, rfl, rfl⟩

end TensorAsm
