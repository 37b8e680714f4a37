import TensorAsm.Proofs.Assignments
import TensorAsm.Proofs.Meaning
import TensorAsm.Proofs.RefinedPrograms
/-!
The values that the journal of a lowering leads to. Each cell gets its value once, before it is
read, so every derived cell holds the exact result of its instruction in the end.
-/

namespace TensorAsm

theorem Instruction.exact_congr [Platform] {k l : Int → Int} {i : Instruction}
    (h : ∀ c ∈ i.sources, k c = l c) : i.exact k = i.exact l := by
  cases i <;> simp_all [Instruction.sources, Instruction.exact]

namespace Quantity

theorem toOption_rescale? [Platform] (v shift : Int) :
    (rescale? v shift).toOption = Semantics.exact.moved shift v := by
  rw [rescale?_eq, Semantics.moved]
  simp only [Semantics.exact, id_eq]
  cases rescaleFault? v shift <;> rfl

end Quantity

theorem Instruction.toOption_exact [Platform] {i : Instruction} (h : i.isArithmetic = true)
    (look : Int → List Table.Row) (k : Int → Int) :
    (i.exact k).toOption = i.eval .exact look k := by
  cases i with
  | rescale _ a shift => exact Quantity.toOption_rescale? _ _
  | lookup | halt => simp [Instruction.isArithmetic] at h
  | _ => rfl

namespace Lowering

/-- The cells that an event gives values to. -/
def Event.sets : Event → List Int
  | .allocated b => if b.kind = .tensor then b.cells else []
  | .emitted _ ss => dests true ss
  | _ => []

def setsOf (evs : List Event) : List Int := evs.flatMap Event.sets

theorem setsOf_perm (evs : List Event) :
    (setsOf evs).Perm
      ((ofKind .tensor (blocksOf evs)).flatMap Allocation.cells ++ dests true (stepsOf evs)) := by
  induction evs with
  | nil => exact .refl _
  | cons e evs ih =>
    have hs : setsOf (e :: evs) = e.sets ++ setsOf evs := rfl
    rw [hs, blocksOf_cons, stepsOf_cons, dests_append]
    refine (ih.append_left _).trans ?_
    cases e with
    | allocated b =>
      by_cases hk : b.kind = .tensor <;>
        simp [Event.sets, Event.block?, Event.steps, ofKind, hk]
    | emitted n ss =>
      simp only [Event.sets, Event.block?, Event.steps, Option.toList_none, List.nil_append]
      rw [← List.append_assoc, ← List.append_assoc]
      exact List.perm_append_comm.append_right _
    | folded t | dropped s | lowered b => simp [Event.sets, Event.block?, Event.steps]

end Lowering

namespace Program.Values

open Lowering

variable {m node : Int} {w : Witness} {v v' : Values} {c : Int}

theorem step_cases [Platform] {s : Step} (h : step m node v s = .ok v') :
    dests true [s] = [] ∧ v' = v ∨ ∃ d value, s.derived = true ∧ s.instruction.dest? = some d ∧
      s.instruction.exact v.cell = .ok value ∧ Field.Fits m value ∧ v' = v.record d value := by
  unfold step at h
  split at h
  · next dest hd hi =>
      split at h
      · exact absurd h (by simp)
      · next value hx =>
          split at h
          · next hf => exact .inr ⟨dest, value, hd, hi, hx, hf, (Except.ok.inj h).symm⟩
          · exact absurd h (by simp)
  · next hne =>
      refine .inl ⟨?_, (Except.ok.inj h).symm⟩
      rw [dests_cons]
      cases hd : s.derived with
      | false => simp
      | true =>
        cases hi : s.instruction.dest? with
        | none => simp
        | some d => exact absurd hi (hne d hd)

/-- A cell that events do not set keeps what is known of it. -/
def Keeps (v v' : Values) (c : Int) : Prop :=
  v'.cell c = v.cell c ∧ v'.derived[c]? = v.derived[c]?

theorem Keeps.trans {u : Values} (h : Keeps u v c) (h' : Keeps v v' c) : Keeps u v' c :=
  ⟨h'.1.trans h.1, h'.2.trans h.2⟩

theorem step_keeps [Platform] {s : Step} (h : step m node v s = .ok v') (hc : c ∉ dests true [s]) :
    Keeps v v' c := by
  rcases step_cases h with ⟨-, rfl⟩ | ⟨d, value, hd, hi, -, -, rfl⟩
  · exact ⟨rfl, rfl⟩
  · have hne : d ≠ c := by
      rintro rfl
      exact hc (by simp [dests_cons, hd, hi])
    refine ⟨by rw [cell_record, if_neg hne], ?_⟩
    simp only [record, Std.TreeMap.getElem?_insert, compare_eq_iff_eq, if_neg hne]

theorem steps_keeps [Platform] {ss : List Step} (h : ss.foldlM (step m node) v = .ok v')
    (hc : c ∉ dests true ss) : Keeps v v' c := by
  induction ss generalizing v with
  | nil =>
    obtain rfl := Except.ok.inj h
    exact ⟨rfl, rfl⟩
  | cons s ss ih =>
    rw [List.foldlM_cons] at h
    rw [← List.singleton_append, dests_append, List.mem_append, not_or] at hc
    cases hs : step m node v s with
    | error f => simp [hs, bind, Except.bind] at h
    | ok u =>
      rw [hs] at h
      exact (step_keeps hs hc.1).trans (ih h hc.2)

theorem steps_split [Platform] {us vs : List Step} {s : Step}
    (h : (us ++ s :: vs).foldlM (step m node) v = .ok v') :
    ∃ t u, us.foldlM (step m node) v = .ok t ∧ step m node t s = .ok u ∧
      vs.foldlM (step m node) u = .ok v' := by
  rw [List.foldlM_append] at h
  cases ht : us.foldlM (step m node) v with
  | error f => simp [ht, bind, Except.bind] at h
  | ok t =>
    rw [ht] at h
    change (s :: vs).foldlM (step m node) t = .ok v' at h
    rw [List.foldlM_cons] at h
    cases hu : step m node t s with
    | error f => simp [hu, bind, Except.bind] at h
    | ok u =>
      rw [hu] at h
      exact ⟨t, u, rfl, hu, h⟩

/-- The blocks of tensors are as long as the values for them. -/
def Sized (w : Witness) (evs : List Event) : Prop :=
  ∀ b ∈ blocksOf evs, b.kind = .tensor → ∃ values, w.values? b.name = some values ∧
    (values.size : Int) = b.size

theorem advance_dropped [Platform] {s : Step} (h : v.advance m w (.dropped s) = .ok v') :
    v' = v := by
  unfold advance at h
  cases hx : s.instruction.exact v.cell with
  | error f => simp [hx, Except.map] at h
  | ok value => simpa [hx, Except.map, eq_comm] using h

theorem advance_keeps [Platform] {e : Event} (hw : Sized w [e]) (h : v.advance m w e = .ok v')
    (hc : c ∉ e.sets) : Keeps v v' c := by
  cases e with
  | allocated b =>
    by_cases hk : b.kind = .tensor
    · obtain ⟨values, hv, hs⟩ := hw b (by simp [Event.block?]) hk
      simp only [advance, hk, hv, Except.ok.injEq] at h
      subst h
      refine ⟨?_, rfl⟩
      rw [cell_place, if_neg]
      simpa [Event.sets, hk, Allocation.mem_cells, hs] using hc
    · have hv : v' = v := by
        rw [advance] at h
        split at h
        · next hkind _ => exact absurd hkind hk
        · exact (Except.ok.inj h).symm
      subst hv
      exact ⟨rfl, rfl⟩
  | emitted node ss => exact steps_keeps h hc
  | dropped s =>
    obtain rfl := advance_dropped h
    exact ⟨rfl, rfl⟩
  | folded | lowered =>
    obtain rfl := Except.ok.inj h
    exact ⟨rfl, rfl⟩

theorem follows_keeps [Platform] {evs : List Event} (hw : Sized w evs) (h : Follows m w v evs v')
    (hc : c ∉ setsOf evs) : Keeps v v' c := by
  induction evs generalizing v with
  | nil =>
    obtain rfl := follows_nil.1 h
    exact ⟨rfl, rfl⟩
  | cons e evs ih =>
    obtain ⟨u, hu, hrest⟩ := follows_cons.1 h
    have hsplit : c ∉ e.sets ∧ c ∉ setsOf evs := by
      simpa [setsOf] using hc
    have hone : Sized w [e] := fun b hb => hw b (by
      rw [← List.singleton_append, blocksOf_append]
      exact List.mem_append_left _ hb)
    have hmore : Sized w evs := fun b hb => hw b (by
      rw [← List.singleton_append, blocksOf_append]
      exact List.mem_append_right _ hb)
    exact (advance_keeps hone hu hsplit.1).trans (ih hmore hrest hsplit.2)

end Program.Values

namespace Lowering

/-- What is known in the end: zero in the zero cell, the values of the witness in the tensors, and
in every derived cell the exact result of its instruction, which fits the field. -/
structure Derivation [Platform] (m : Int) (w : Witness) (p : Plan) (values : Program.Values) :
    Prop where
  zero : values.cell p.zero = 0
  tensor : ∀ b ∈ p.allocator.allocations, b.kind = .tensor → ∀ i : Nat, (i : Int) < b.size →
    values.cell (b.address.absolute + i) = w.value b.name i
  derived : ∀ s ∈ p.steps, s.derived = true → ∀ d ∈ s.instruction.dest?,
    s.instruction.exact values.cell = .ok (values.cell d) ∧ Field.Fits m (values.cell d) ∧
      values.derived[d]? = some (values.cell d)

namespace Planned

variable {g : Circuit.Graph} {layout : Layout} {lookupBits : Json} {p : Plan}
  {journal : List Event} {zb : Allocation} {xs : List Entry} {outs : List Event} {m : Int}
  {w : Witness} {values : Program.Values}

theorem blocksOf_journal [Platform] (h : Planned g layout lookupBits p journal zb xs outs) :
    blocksOf journal = p.allocator.allocations := by
  rw [h.journal_eq, h.allocations]
  simp [Event.block?]

theorem stepsOf_eventsOf (h : ∀ x ∈ xs, Placements x.ins) :
    stepsOf (eventsOf xs) = xs.flatMap Entry.steps := by
  induction xs with
  | nil => rfl
  | cons x xs ih =>
    rw [eventsOf_cons, stepsOf_append, ih fun y hy => h y (by simp [hy]), List.flatMap_cons]
    simp [Entry.events, h x (by simp), Event.steps, Entry.steps]

theorem stepsOf_journal [Platform] (h : Planned g layout lookupBits p journal zb xs outs) :
    stepsOf journal = p.steps := by
  have hx : ∀ x ∈ xs, Placements x.ins := by
    intro x hx
    obtain ⟨before, hv⟩ := h.valid hx
    exact hv.placements
  rw [h.journal_eq, h.steps_eq, stepsOf_cons, stepsOf_append, stepsOf_eventsOf hx,
    h.placements.steps]
  simp [Event.steps]

theorem sized [Platform] (h : Planned g layout lookupBits p journal zb xs outs)
    (hw : w.Complete m g) :
    Program.Values.Sized w journal := by
  intro b hb hk
  rw [h.blocksOf_journal] at hb
  obtain ⟨hr, t, ht, hs, -⟩ := h.sound.tensor b hb hk
  obtain ⟨u, e, hu, he, hf⟩ := hw b.name hr
  obtain rfl : t = u := Option.some.inj (ht.symm.trans hu)
  exact ⟨e.values, by rw [Witness.values?, he]; rfl, by rw [hs, hf.size]⟩

theorem derived_perm [Platform] (h : Planned g layout lookupBits p journal zb xs outs) :
    (dests true p.steps).Perm
      ((ofKind .scratch p.allocator.allocations).flatMap Allocation.cells) := by
  rw [h.steps_eq, dests_flatMap, h.scratch_eq, List.flatMap_assoc]
  refine List.Perm.flatMap_left _ fun x hx => ?_
  obtain ⟨b, -, hf⟩ := h.fills hx
  exact hf.derived

theorem mem_setsOf [Platform] (h : Planned g layout lookupBits p journal zb xs outs) {c : Int} :
    c ∈ setsOf journal ↔ ∃ b ∈ p.allocator.allocations, c ∈ b.cells ∧
      (b.kind = .tensor ∨ b.kind = .scratch) := by
  rw [(setsOf_perm journal).mem_iff, h.blocksOf_journal, h.stepsOf_journal, List.mem_append,
    h.derived_perm.mem_iff, List.mem_flatMap, List.mem_flatMap]
  simp only [mem_ofKind]
  constructor
  · rintro (⟨b, ⟨hb, hk⟩, hc⟩ | ⟨b, ⟨hb, hk⟩, hc⟩)
    exacts [⟨b, hb, hc, .inl hk⟩, ⟨b, hb, hc, .inr hk⟩]
  · rintro ⟨b, hb, hc, hk | hk⟩
    exacts [.inl ⟨b, ⟨hb, hk⟩, hc⟩, .inr ⟨b, ⟨hb, hk⟩, hc⟩]

theorem setsOf_nodup [Platform] (h : Planned g layout lookupBits p journal zb xs outs) :
    (setsOf journal).Nodup := by
  have hsub (kind : BlockKind) :
      ((ofKind kind p.allocator.allocations).flatMap Allocation.cells).Nodup :=
    h.sound.tiles.cells_nodup.sublist (Sequences.sublist_flatMap _ List.filter_sublist)
  refine ((setsOf_perm journal).trans ?_).nodup_iff.2 (List.nodup_append.2
    ⟨hsub .tensor, hsub .scratch, ?_⟩)
  · rw [h.blocksOf_journal, h.stepsOf_journal]
    exact h.derived_perm.append_left _
  · rintro c hc _ hc' rfl
    obtain ⟨b, hb, hcb⟩ := List.mem_flatMap.1 hc
    obtain ⟨b', hb', hcb'⟩ := List.mem_flatMap.1 hc'
    obtain ⟨hb, hk⟩ := mem_ofKind.1 hb
    obtain ⟨hb', hk'⟩ := mem_ofKind.1 hb'
    obtain rfl := h.sound.tiles.owner_unique hb hb' hcb hcb'
    exact absurd (hk.symm.trans hk') (by simp)

theorem zero_unset [Platform] (h : Planned g layout lookupBits p journal zb xs outs) :
    p.zero ∉ setsOf journal := by
  intro hc
  obtain ⟨b, hb, hcb, hk⟩ := h.mem_setsOf.1 hc
  obtain ⟨hz, hcz⟩ := h.zero_mem
  obtain rfl := h.sound.tiles.owner_unique hb hz hcb hcz
  rcases hk with hk | hk <;> exact absurd (h.kind.symm.trans hk) (by simp)

theorem emitted_split [Platform] (h : Planned g layout lookupBits p journal zb xs outs) {n : Int}
    {ss : List Step} {pre post : List Event} (hj : journal = pre ++ .emitted n ss :: post) :
    ∃ before x after us vs, xs = before ++ x :: after ∧ x.rest = us ++ .emitted n ss :: vs ∧
      pre = .allocated zb :: (eventsOf before ++ x.ins) ++ us := by
  have hout : Event.emitted n ss ∉ outs := by
    intro he
    obtain ⟨b, hb, -⟩ := h.placements _ he
    simp at hb
  rw [h.journal_eq, ← List.singleton_append] at hj
  obtain ⟨ps, rfl, hps⟩ := Sequences.split_right hj (by simp)
  obtain ⟨qs, hq⟩ := Sequences.split_left hps hout
  obtain ⟨before, x, after, es, fs, hx, he, rfl⟩ := Sequences.flatMap_split hq
  have hins : Event.emitted n ss ∉ x.ins := by
    intro he
    obtain ⟨b, hb, -⟩ := (h.entry before x after hx).placements _ he
    simp at hb
  rw [Entry.events, List.append_assoc] at he
  obtain ⟨us, rfl, hr⟩ := Sequences.split_right he hins
  obtain ⟨vs, hv⟩ := Sequences.split_left hr (by simp)
  exact ⟨before, x, after, us, vs, hx, hv, by simp [eventsOf]⟩

theorem sources_set [Platform] (h : Planned g layout lookupBits p journal zb xs outs) {n : Int}
    {us vs : List Step} {s : Step} {pre post : List Event}
    (hj : journal = pre ++ .emitted n (us ++ s :: vs) :: post) :
    ∀ c ∈ s.instruction.sources, c = p.zero ∨ c ∈ setsOf pre ∨ c ∈ dests true us := by
  obtain ⟨before, x, after, es, fs, hx, hrest, rfl⟩ := h.emitted_split hj
  have hsteps : x.steps = (stepsOf es ++ us) ++ s :: (vs ++ stepsOf fs) := by
    rw [Entry.steps, hrest]
    simp [Event.steps]
  have hsets : setsOf (.allocated zb :: (eventsOf before ++ x.ins) ++ es) =
      setsOf (.allocated zb :: (eventsOf before ++ x.ins)) ++ setsOf es := List.flatMap_append
  obtain ⟨out, -, hf⟩ := h.fills (x := x) (by simp [hx])
  intro c hc
  rw [hsets, List.mem_append]
  rcases hf.bound.split hsteps c hc with (hz | ⟨id, hid, y, hy, i, hi, rfl⟩) | hd
  · exact .inl hz
  · refine .inr (.inl (.inl ?_))
    obtain ⟨b, hb, hk, hn⟩ := (h.entry before x after hx).inputs id hid
    obtain ⟨b', hb', -, hcells⟩ := hy.block h.sound
    have hall : b ∈ p.allocator.allocations := by
      rw [h.allocations, hx]
      simp only [eventsOf_append, eventsOf_cons, Entry.events, blocksOf_append, List.mem_cons,
        List.mem_append, List.cons_append] at hb ⊢
      tauto
    have hbb := h.sound.found b hall (.inl hk)
    rw [hk, hn, hb'] at hbb
    obtain rfl := Option.some.inj hbb
    rw [(setsOf_perm _).mem_iff, List.mem_append, List.mem_flatMap]
    refine .inl ⟨b', mem_ofKind.2 ⟨?_, hk⟩, by rw [hcells]; exact mem_elementCells.2 ⟨i, hi, rfl⟩⟩
    simpa [Event.block?] using hb
  · rw [dests_append, List.mem_append] at hd
    rcases hd with hd | hd
    · refine .inr (.inl (.inr ?_))
      rw [(setsOf_perm _).mem_iff]
      exact List.mem_append_right _ hd
    · exact .inr (.inr hd)

theorem cell_tensor [Platform] (h : Planned g layout lookupBits p journal zb xs outs)
    (hw : w.Complete m g) (hf : Program.Values.Follows m w ⟨∅, ∅⟩ journal values) {b : Allocation}
    (hb : b ∈ p.allocator.allocations) (hk : b.kind = .tensor) {i : Nat} (hi : (i : Int) < b.size) :
    values.cell (b.address.absolute + i) = w.value b.name i := by
  have hs := h.sized hw
  have hn := h.setsOf_nodup
  rw [← h.blocksOf_journal] at hb
  obtain ⟨found, hvalues, hsize⟩ := hs b hb hk
  obtain ⟨e, he, hbe⟩ := List.mem_filterMap.1 hb
  obtain rfl : e = .allocated b := by
    cases e <;> simp [Event.block?] at hbe
    rw [hbe]
  obtain ⟨pre, post, rfl⟩ := List.append_of_mem he
  obtain ⟨u, -, hf⟩ := Program.Values.follows_append.1 hf
  obtain ⟨t, ht, hf⟩ := Program.Values.follows_cons.1 hf
  simp only [Program.Values.advance, hk, hvalues, Except.ok.injEq] at ht
  subst ht
  have hset : b.address.absolute + i ∉ setsOf post := by
    simp only [setsOf, List.flatMap_append, List.flatMap_cons, Event.sets, hk, if_true] at hn
    have hd := (List.nodup_append.1 (List.nodup_append.1 hn).2.1).2.2
    exact fun hc => hd _ (Allocation.cell_mem hi) _ hc rfl
  have hpost : Program.Values.Sized w post := fun c hc => hs c (by simp [Event.block?, hc])
  rw [(Program.Values.follows_keeps hpost hf hset).1, Program.Values.cell_place,
    if_pos (by omega), Witness.value, hvalues]
  simp

theorem cell_derived [Platform] (h : Planned g layout lookupBits p journal zb xs outs)
    (hw : w.Complete m g) (hf : Program.Values.Follows m w ⟨∅, ∅⟩ journal values) {s : Step}
    (hs : s ∈ p.steps) (hd : s.derived = true) {d : Int} (hdest : s.instruction.dest? = some d) :
    s.instruction.exact values.cell = .ok (values.cell d) ∧ Field.Fits m (values.cell d) ∧
      values.derived[d]? = some (values.cell d) := by
  have hsize := h.sized hw
  have hn := h.setsOf_nodup
  have hz := h.zero_unset
  rw [← h.stepsOf_journal] at hs
  obtain ⟨e, he, hse⟩ := List.mem_flatMap.1 hs
  obtain ⟨n, ss, rfl⟩ : ∃ n ss, e = .emitted n ss := by
    cases e <;> simp [Event.steps] at hse ⊢
  obtain ⟨us, vs, rfl⟩ : ∃ us vs, ss = us ++ s :: vs := List.append_of_mem hse
  obtain ⟨pre, post, hj⟩ := List.append_of_mem he
  have hset := h.sources_set hj
  rw [hj] at hf hsize hn hz
  obtain ⟨t, -, hf⟩ := Program.Values.follows_append.1 hf
  obtain ⟨u, hu, hf⟩ := Program.Values.follows_cons.1 hf
  obtain ⟨before, after, -, hstep, hvs⟩ := Program.Values.steps_split hu
  have hpost : Program.Values.Sized w post := fun c hc => hsize c (by simp [Event.block?, hc])
  -- a cell that neither this step nor a later one sets is known already
  have hkeep : ∀ c, c ∉ dests true vs → c ∉ setsOf post → Program.Values.Keeps after values c :=
    fun c hv hp => (Program.Values.steps_keeps hvs hv).trans
      (Program.Values.follows_keeps hpost hf hp)
  have hsplit : setsOf (pre ++ .emitted n (us ++ s :: vs) :: post) =
      (setsOf pre ++ dests true us) ++ (dests true [s] ++ (dests true vs ++ setsOf post)) := by
    rw [show us ++ s :: vs = us ++ ([s] ++ vs) from rfl]
    simp only [setsOf, List.flatMap_append, List.flatMap_cons, Event.sets, dests_append,
      List.append_assoc]
  rw [hsplit] at hn hz
  obtain ⟨-, hn, hapart⟩ := List.nodup_append.1 hn
  have hsd : dests true [s] = [d] := by simp [dests_cons, hd, hdest]
  rcases Program.Values.step_cases hstep with ⟨hnone, -⟩ | ⟨d', value, -, hd', hx, hfit, rfl⟩
  · simp [hsd] at hnone
  obtain rfl : d = d' := Option.some.inj (hdest.symm.trans hd')
  have hlater : d ∉ dests true vs ++ setsOf post := by
    rw [hsd] at hn
    exact (List.nodup_cons.1 hn).1
  have hcell : values.cell d = value := by
    have hk := (hkeep d (fun hv => hlater (by simp [hv])) (fun hp => hlater (by simp [hp]))).1
    rw [hk, Program.Values.cell_record, if_pos rfl]
  have hsame : ∀ c ∈ s.instruction.sources, values.cell c = before.cell c := by
    intro c hc
    have hnot : c ∉ dests true [s] ++ (dests true vs ++ setsOf post) := by
      rcases hset c hc with rfl | hc | hc
      · exact fun hin => hz (List.mem_append_right _ hin)
      · exact fun hin => hapart c (List.mem_append_left _ hc) c hin rfl
      · exact fun hin => hapart c (List.mem_append_right _ hc) c hin rfl
    simp only [List.mem_append, not_or] at hnot
    exact ((Program.Values.step_keeps hstep hnot.1).trans (hkeep c hnot.2.1 hnot.2.2)).1
  refine ⟨by rw [Instruction.exact_congr hsame, hx, hcell], by rwa [hcell], ?_⟩
  rw [(hkeep d (fun hv => hlater (by simp [hv])) (fun hp => hlater (by simp [hp]))).2, hcell]
  simp [Program.Values.record]

theorem derivation [Platform] (h : Planned g layout lookupBits p journal zb xs outs)
    (hw : w.Complete m g) (hf : Program.Values.Follows m w ⟨∅, ∅⟩ journal values) :
    Derivation m w p values := by
  refine ⟨?_, fun b hb hk i hi => h.cell_tensor hw hf hb hk hi,
    fun s hs hd d hdest => h.cell_derived hw hf hs hd hdest⟩
  rw [(Program.Values.follows_keeps (h.sized hw) hf h.zero_unset).1]
  simp [Program.Values.cell]

end Planned

end Lowering

end TensorAsm

namespace TensorAsm.Program

variable [Platform]

/-- A program that was lowered for a circuit and a witness, with what its journal leads to. -/
structure Lowered (g : Circuit.Graph) (w : Witness) (lookupBits : Json) (m : Int) (p : Program)
    (values : Values) : Prop where
  wellFormed : g.WellFormed
  complete : w.Complete m g
  planned : ∃ layout journal zb xs outs,
    Lowering.Planned g layout lookupBits p.plan journal zb xs outs
  derivation : Lowering.Derivation m w p.plan values
  witness : p.witness = w
  derived : p.derived = values.derived
  modulus : p.modulus = m

variable {name : String} {g : Circuit.Graph} {w : Witness} {layout : Layout} {lookupBits : Json}
  {m : Int} {p : Program}

theorem Lowered.of_complete (hwf : g.WellFormed) (hc : w.Complete m g)
    (h : (lower name g w layout lookupBits m).1 = .ok p) :
    ∃ values, Lowered g w lookupBits m p values := by
  obtain ⟨plan, journal, values, done, hplan, hf, rfl⟩ := lower_eq_ok hc h
  obtain ⟨zb, xs, outs, hp⟩ := Lowering.plan_planned hc.measured hwf hplan
  exact ⟨values, hwf, hc, ⟨_, _, _, _, _, hp⟩, hp.derivation hc ⟨done, hf⟩, rfl, rfl, rfl⟩

theorem lower_lowered {doc given : Json} (hg : Circuit.read doc = .ok g)
    (hw : Witness.read m g given = .ok w) (h : (lower name g w layout lookupBits m).1 = .ok p) :
    ∃ values, Lowered g w lookupBits m p values :=
  Lowered.of_complete (Circuit.read_wellFormed hg) (Witness.read_complete hw) h

end TensorAsm.Program
