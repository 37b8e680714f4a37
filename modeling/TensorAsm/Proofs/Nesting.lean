import TensorAsm.Json.Reader
import TensorAsm.Proofs.Files
/-!
A document that is read is nested no deeper than the platform allows. Going through one that is
there, from its lists down to its leaves, needs no other limit.
-/

namespace TensorAsm

namespace Json

/-- Lists and objects within one another at most so many times. -/
inductive Within : Nat → Json → Prop
  | leaf {n : Nat} {j : Json} (ha : ∀ items, j ≠ .arr items) (ho : ∀ fields, j ≠ .obj fields) :
      Within n j
  | arr {n : Nat} {items : List Json} (h : ∀ j ∈ items, Within n j) : Within (n + 1) (.arr items)
  | obj {n : Nat} {fields : List (String × Json)} (h : ∀ f ∈ fields, Within n f.2) :
      Within (n + 1) (.obj fields)

theorem readNumber_within {negative : Bool} {s rest : List Char} {j : Json} {n : Nat}
    (h : readNumber negative s = .ok (j, rest)) : Within n j := by
  unfold readNumber at h
  split at h
  · exact absurd h (by simp)
  dsimp only at h
  split at h
  · split at h
    · exact absurd h (by simp)
    · obtain ⟨rfl, -⟩ := Prod.mk.inj (Except.ok.inj h)
      exact .leaf (by simp) (by simp)
  · obtain ⟨rfl, -⟩ := Prod.mk.inj (Except.ok.inj h)
    exact .leaf (by simp) (by simp)

theorem readWord_within {s rest : List Char} {j : Json} {n : Nat}
    (h : readWord s = some (j, rest)) : Within n j := by
  obtain ⟨⟨w, k⟩, hw, hk⟩ := List.exists_of_findSome?_eq_some h
  obtain ⟨_, -, he⟩ := Option.map_eq_some_iff.1 hk
  obtain ⟨rfl, -⟩ := Prod.mk.inj he
  simp only [wordValues, List.mem_cons, Prod.mk.injEq, List.not_mem_nil, or_false] at hw
  rcases hw with ⟨-, rfl⟩ | ⟨-, rfl⟩ | ⟨-, rfl⟩ | ⟨-, rfl⟩ | ⟨-, rfl⟩ | ⟨-, rfl⟩ <;>
    exact .leaf (by simp) (by simp)

/-- A value is within the depth that is left, and so are the items and fields of what is read. -/
theorem readValue_within (fuel : Nat) :
    (∀ n s j rest, readValue fuel n s = .ok (j, rest) → Within n j) ∧
    (∀ n done s j rest, (∀ d ∈ done, Within n d) →
      readItems fuel n done s = .ok (j, rest) → Within (n + 1) j) ∧
    ∀ n done s j rest, (∀ f ∈ done, Within n f.2) →
      readFields fuel n done s = .ok (j, rest) → Within (n + 1) j := by
  induction fuel with
  | zero => simp [readValue, readItems, readFields]
  | succ fuel ih =>
    obtain ⟨ihv, ihi, ihf⟩ := ih
    refine ⟨fun n s j rest h => ?_, fun n done s j rest hd h => ?_, fun n done s j rest hd h => ?_⟩
    · unfold readValue at h
      split at h
      · split at h
        · obtain ⟨rfl, -⟩ := Prod.mk.inj (Except.ok.inj h)
          exact .leaf (by simp) (by simp)
        · exact absurd h (by simp)
      · split at h
        · exact absurd h (by simp)
        · obtain ⟨rfl, -⟩ := Prod.mk.inj (Except.ok.inj h)
          exact .arr (by simp)
        · exact ihi _ [] _ _ _ (by simp) h
      · split at h
        · exact absurd h (by simp)
        · obtain ⟨rfl, -⟩ := Prod.mk.inj (Except.ok.inj h)
          exact .obj (by simp)
        · exact ihf _ [] _ _ _ (by simp) h
      · split at h
        · next hw => exact readWord_within (hw.trans (congrArg some (Except.ok.inj h)))
        · split at h <;> exact readNumber_within h
    · unfold readItems at h
      split at h
      · exact absurd h (by simp)
      · next k s hv =>
          have hall : ∀ d ∈ k :: done, Within n d :=
            List.forall_mem_cons.2 ⟨ihv _ _ _ _ hv, hd⟩
          split at h
          · exact ihi _ _ _ _ _ hall h
          · obtain ⟨rfl, -⟩ := Prod.mk.inj (Except.ok.inj h)
            exact .arr fun d hm => hall d (List.mem_reverse.1 hm)
          · exact absurd h (by simp)
    · unfold readFields at h
      have hput {k : String} {v : Json} (hv : Within n v) :
          ∀ f ∈ Ordered.put k v done, Within n f.2 := by
        intro f hf
        rcases Ordered.mem_put hf with rfl | hf
        · exact hv
        · exact hd f hf
      split at h
      case h_2 => exact absurd h (by simp)
      split at h
      · exact absurd h (by simp)
      split at h
      case h_2 => exact absurd h (by simp)
      split at h
      · exact absurd h (by simp)
      · next hv =>
          split at h
          · exact ihf _ _ _ _ _ (hput (ihv _ _ _ _ hv)) h
          · obtain ⟨rfl, -⟩ := Prod.mk.inj (Except.ok.inj h)
            exact .obj (hput (ihv _ _ _ _ hv))
          · exact absurd h (by simp)

theorem read_within [Platform] {text : String} {j : Json} (h : read text = .ok j) :
    Within Platform.depthLimit j := by
  unfold read at h
  dsimp only at h
  split at h
  · exact absurd h (by simp)
  · next hv =>
      split at h
      · obtain rfl := Except.ok.inj h
        exact (readValue_within _).1 _ _ _ _ hv
      · exact absurd h (by simp)

end Json

end TensorAsm
