import TensorAsm.Proofs.Emission
/-!
Going through a journal with a witness. Placing blocks never stops it; a block of a tensor gets the
values of the tensor, and cells of other blocks keep theirs.
-/

namespace TensorAsm.Program.Values

open Lowering

variable {m node : Int} {w : Witness} {v v' : Values} {c : Int}

theorem cell_record (v : Values) (d value c : Int) :
    (v.record d value).cell c = if d = c then value else v.cell c := by
  unfold cell record
  simp only [Std.TreeMap.getD_insert, compare_eq_iff_eq]

theorem cell_place (v : Values) (base : Int) (values : Array Int) (c : Int) :
    (v.place base values).cell c =
      if base ≤ c ∧ c < base + values.size then values[(c - base).toNat]?.getD 0 else v.cell c := by
  have key (l : List Int) (t : Std.TreeMap Int Int) (base : Int) :
      (l.foldl (fun (p : Std.TreeMap Int Int × Int) x => (p.1.insert p.2 x, p.2 + 1))
        (t, base)).1.getD c 0 =
      if base ≤ c ∧ c < base + l.length then l[(c - base).toNat]?.getD 0 else t.getD c 0 := by
    induction l generalizing t base with
    | nil => rw [if_neg (by simp)]; rfl
    | cons x l ih =>
      rw [List.foldl_cons, ih]
      simp only [Std.TreeMap.getD_insert, compare_eq_iff_eq]
      by_cases hb : base = c
      · subst hb
        rw [if_neg (by omega), if_pos rfl, if_pos (by simp), Int.sub_self]
        rfl
      · rw [if_neg hb]
        by_cases hin : base + 1 ≤ c ∧ c < base + 1 + l.length
        · obtain ⟨j, hj⟩ : ∃ j, (c - base).toNat = j + 1 := ⟨(c - base).toNat - 1, by omega⟩
          have hj' : (c - (base + 1)).toNat = j := by omega
          rw [if_pos hin, if_pos (by rw [List.length_cons]; omega), hj, hj']
          rfl
        · rw [if_neg hin, if_neg (by rw [List.length_cons]; omega)]
  unfold cell place
  rw [← Array.foldl_toList, key values.toList]
  simp

/-- Events that can all be gone through, from some values to others. -/
def Follows [Platform] (m : Int) (w : Witness) (v : Values) (evs : List Event) (v' : Values) :
    Prop :=
  ∃ done, follow m w v evs = (v', done, none)

theorem follows_nil [Platform] : Follows m w v [] v' ↔ v' = v := by
  simp [Follows, follow, eq_comm]

theorem follows_cons [Platform] {e : Event} {evs : List Event} :
    Follows m w v (e :: evs) v' ↔ ∃ u, v.advance m w e = .ok u ∧ Follows m w u evs v' := by
  unfold Follows
  rw [follow]
  cases v.advance m w e with
  | error f => simp
  | ok u =>
    rcases hf : follow m w u evs with ⟨last, done, stop⟩
    simp [hf]

theorem follows_append [Platform] {xs ys : List Event} :
    Follows m w v (xs ++ ys) v' ↔ ∃ u, Follows m w v xs u ∧ Follows m w u ys v' := by
  induction xs generalizing v with
  | nil => simp [follows_nil]
  | cons e xs ih =>
    rw [List.cons_append, follows_cons]
    simp only [ih, follows_cons]
    constructor
    · rintro ⟨u, hu, t, ht, hy⟩
      exact ⟨t, ⟨u, hu, ht⟩, hy⟩
    · rintro ⟨t, ⟨u, hu, ht⟩, hy⟩
      exact ⟨u, hu, t, ht, hy⟩

theorem follow_done [Platform] {evs done : List Event} (h : follow m w v evs = (v', done, none)) :
    done = evs := by
  induction evs generalizing v done with
  | nil =>
    simp only [follow, Prod.mk.injEq] at h
    exact h.2.1.symm
  | cons e evs ih =>
    rw [follow] at h
    cases hu : v.advance m w e with
    | error f => simp [hu] at h
    | ok u =>
      rcases hf : follow m w u evs with ⟨last, rest, stop⟩
      simp only [hu, hf, Prod.mk.injEq] at h
      obtain ⟨rfl, rfl, rfl⟩ := h
      rw [ih hf]

theorem follow_append [Platform] (m : Int) (w : Witness) (v : Values) (xs ys : List Event) :
    follow m w v (xs ++ ys) =
      match follow m w v xs with
      | (u, done, some f) => (u, done, some f)
      | (u, done, none) =>
        ((follow m w u ys).1, done ++ (follow m w u ys).2.1, (follow m w u ys).2.2) := by
  induction xs generalizing v with
  | nil => rfl
  | cons e xs ih =>
    rw [List.cons_append, follow, follow]
    cases v.advance m w e with
    | error f => rfl
    | ok u =>
      simp only [ih]
      rcases follow m w u xs with ⟨t, done, _ | f⟩ <;> rfl

/-- The cells of a new tensor hold the values of the witness, and all others what they held. -/
theorem advance_allocated [Platform] {b : Allocation}
    (hw : b.kind = .tensor → ∃ values, w.values? b.name = some values ∧
      (values.size : Int) = b.size) (v : Values) :
    ∃ u, v.advance m w (.allocated b) = .ok u ∧ u.derived = v.derived ∧
      (∀ c, c ∉ b.cells → u.cell c = v.cell c) ∧
      (b.kind = .tensor → ∀ i : Nat, (i : Int) < b.size →
        u.cell (b.address.absolute + i) = w.value b.name i) := by
  by_cases hk : b.kind = .tensor
  · obtain ⟨values, hv, hs⟩ := hw hk
    refine ⟨v.place b.address.absolute values, by simp [advance, hk, hv], rfl, ?_, ?_⟩
    · intro c hc
      rw [cell_place, if_neg]
      rwa [Allocation.mem_cells, ← hs] at hc
    · intro _ i hi
      rw [cell_place, if_pos (by omega), Witness.value, hv]
      simp
  · refine ⟨v, ?_, rfl, fun _ _ => rfl, fun h => absurd h hk⟩
    rw [advance]
    split
    · next hkind _ => exact absurd hkind hk
    · rfl

/-- Events that neither emit nor drop steps. New blocks of tensors hold the values of the witness
behind them, and older blocks what they held. -/
theorem follow_quiet [Platform] {bs : List Allocation} {evs : List Event}
    (hkept : ∀ e ∈ evs, ∀ s, e ≠ .dropped s) (hsteps : stepsOf evs = [])
    (hn : ((bs ++ blocksOf evs).flatMap Allocation.cells).Nodup)
    (hw : ∀ b ∈ blocksOf evs, b.kind = .tensor → ∃ values, w.values? b.name = some values ∧
      (values.size : Int) = b.size) (v : Values) :
    ∃ v', follow m w v evs = (v', evs, none) ∧ v'.derived = v.derived ∧
      (∀ b ∈ bs, ∀ c ∈ b.cells, v'.cell c = v.cell c) ∧
      ∀ b ∈ blocksOf evs, b.kind = .tensor → ∀ i : Nat, (i : Int) < b.size →
        v'.cell (b.address.absolute + i) = w.value b.name i := by
  induction evs generalizing v bs with
  | nil => exact ⟨v, rfl, rfl, fun _ _ _ _ => rfl, by simp⟩
  | cons e evs ih =>
    have hkept' : ∀ e ∈ evs, ∀ s, e ≠ .dropped s := fun x hx => hkept x (by simp [hx])
    have hsteps' : stepsOf evs = [] := (List.append_eq_nil_iff.1 hsteps).2
    have hrest (u : Values) (hu : v.advance m w e = .ok u) (hd : u.derived = v.derived)
        (hnone : e.block? = none) (hc : u.cell = v.cell) :
        ∃ v', follow m w v (e :: evs) = (v', e :: evs, none) ∧ v'.derived = v.derived ∧
          (∀ b ∈ bs, ∀ c ∈ b.cells, v'.cell c = v.cell c) ∧
          ∀ b ∈ blocksOf (e :: evs), b.kind = .tensor → ∀ i : Nat, (i : Int) < b.size →
            v'.cell (b.address.absolute + i) = w.value b.name i := by
      have hb : blocksOf (e :: evs) = blocksOf evs := by rw [blocksOf_cons, hnone]; rfl
      rw [hb] at hn hw ⊢
      obtain ⟨v', hf, hder, hold, hnew⟩ := ih hkept' hsteps' hn hw u
      refine ⟨v', ?_, hder.trans hd, fun b hb c hcb => (hold b hb c hcb).trans ?_, hnew⟩
      · rw [follow, hu]
        simp [hf]
      · rw [hc]
    cases e with
    | dropped s => exact absurd rfl (hkept _ (by simp) s)
    | emitted n ss =>
      obtain rfl : ss = [] := (List.append_eq_nil_iff.1 hsteps).1
      exact hrest v rfl rfl rfl rfl
    | folded t => exact hrest v rfl rfl rfl rfl
    | lowered b => exact hrest v rfl rfl rfl rfl
    | allocated b =>
      rw [blocksOf_cons] at hn hw
      simp only [Event.block?, Option.toList_some, List.singleton_append] at hn hw
      have hsplit : bs ++ b :: blocksOf evs = (bs ++ [b]) ++ blocksOf evs := by simp
      obtain ⟨u, hu, hd, hold, hnew⟩ := advance_allocated (m := m) (hw b (by simp)) v
      rw [hsplit] at hn
      obtain ⟨v', hf, hder, hkeep, hmore⟩ :=
        ih hkept' hsteps' hn (fun c hc => hw c (by simp [hc])) u
      refine ⟨v', ?_, hder.trans hd, ?_, ?_⟩
      · rw [follow, hu]
        simp [hf]
      · intro a ha c hc
        rw [hkeep a (by simp [ha]) c hc]
        apply hold
        intro hcb
        rw [List.append_assoc, List.flatMap_append] at hn
        exact (List.nodup_append.1 hn).2.2 c (List.mem_flatMap.2 ⟨a, ha, hc⟩) c
          (List.mem_flatMap.2 ⟨b, by simp, hcb⟩) rfl
      · intro a ha hk i hi
        rcases List.mem_cons.1 (by simpa [Event.block?] using ha) with rfl | ha
        · rw [hkeep a (by simp) _ (Allocation.cell_mem hi)]
          exact hnew hk i hi
        · exact hmore a ha hk i hi

end TensorAsm.Program.Values
