import Mathlib.Data.List.Forall2
import Mathlib.Data.List.Nodup
import Mathlib.Data.List.Pairwise
import Mathlib.Data.List.Perm.Basic
/-!
Sequences of results: a sequence of requests succeeds when each of them does. Fewer entries give
fewer results.
-/

namespace TensorAsm.Sequences

variable {α β ε : Type}

theorem bind_ok {x : Except ε α} {f : α → Except ε β} {b : β} (h : x >>= f = .ok b) :
    ∃ a, x = .ok a ∧ f a = .ok b := by
  cases x with
  | error e => simp [bind, Except.bind] at h
  | ok a => exact ⟨a, rfl, h⟩

theorem map_ok {x : Except ε α} {f : α → β} {b : β} (h : x.map f = .ok b) :
    ∃ a, x = .ok a ∧ f a = b := by
  cases x with
  | error e => simp [Except.map] at h
  | ok a => exact ⟨a, rfl, by simpa [Except.map] using h⟩

theorem map_error {x : Except ε α} {f : α → β} {e : ε} (h : x.map f = .error e) :
    x = .error e := by
  cases x with
  | error d => simpa [Except.map] using h
  | ok a => simp [Except.map] at h

section

variable {σ : Type} {s t : σ}

theorem run_bind_ok {x : ExceptT ε (StateM σ) α} {f : α → ExceptT ε (StateM σ) β} {a : α}
    (h : x.run s = (.ok a, t)) : (x >>= f).run s = (f a).run t :=
  congrArg (fun p : Except ε α × σ => ExceptT.bindCont f p.1 p.2) h

theorem run_bind_error {x : ExceptT ε (StateM σ) α} {f : α → ExceptT ε (StateM σ) β} {e : ε}
    (h : x.run s = (.error e, t)) : (x >>= f).run s = (.error e, t) :=
  congrArg (fun p : Except ε α × σ => ExceptT.bindCont f p.1 p.2) h

theorem run_get : (get : ExceptT ε (StateM σ) σ).run s = (.ok s, s) := rfl

theorem run_modify (f : σ → σ) : (modify f : ExceptT ε (StateM σ) PUnit).run s = (.ok (), f s) :=
  rfl

end

theorem mapM_ok {f : α → Except ε β} {xs : List α} {ys : List β} (h : xs.mapM f = .ok ys) :
    List.Forall₂ (fun x y => f x = .ok y) xs ys := by
  induction xs generalizing ys with
  | nil =>
    cases h
    exact .nil
  | cons x xs ih =>
    rw [List.mapM_cons] at h
    cases hx : f x with
    | error e => simp [hx, bind, Except.bind] at h
    | ok y =>
      cases hs : xs.mapM f with
      | error e => simp [hx, hs, bind, Except.bind] at h
      | ok zs =>
        simp only [hx, hs, bind, Except.bind, pure, Except.pure, Except.ok.injEq] at h
        subst h
        exact .cons hx (ih hs)

theorem mapM_of_forall₂ {f : α → Except ε β} {xs : List α} {ys : List β}
    (h : List.Forall₂ (fun x y => f x = .ok y) xs ys) : xs.mapM f = .ok ys := by
  induction h with
  | nil => rfl
  | cons hx _ ih =>
    rw [List.mapM_cons, hx, ih]
    rfl

theorem mapM_project {γ : Type} {f : α → Except ε β} {p : β → γ} {g : α → γ} {q : β → Prop}
    {xs : List α} (h : ∀ x ∈ xs, ∃ y, f x = .ok y ∧ p y = g x ∧ q y) :
    ∃ ys, xs.mapM f = .ok ys ∧ ys.map p = xs.map g ∧ ∀ y ∈ ys, q y := by
  induction xs with
  | nil => exact ⟨[], rfl, rfl, by simp⟩
  | cons x xs ih =>
    obtain ⟨y, hy, hp, hq⟩ := h x (by simp)
    obtain ⟨ys, hys, hps, hqs⟩ := ih fun x' hx => h x' (by simp [hx])
    refine ⟨y :: ys, ?_, by rw [List.map_cons, List.map_cons, hp, hps], ?_⟩
    · rw [List.mapM_cons, hy, hys]
      rfl
    · exact List.forall_mem_cons.2 ⟨hq, hqs⟩

theorem forall₂_of_mem {R : α → β → Prop} {xs : List α} {ys : List β} (h : List.Forall₂ R xs ys)
    {x : α} (hx : x ∈ xs) : ∃ y ∈ ys, R x y := by
  induction h with
  | nil => simp at hx
  | cons hr _ ih =>
    rcases List.mem_cons.1 hx with rfl | hx
    · exact ⟨_, by simp, hr⟩
    · obtain ⟨y, hy, hxy⟩ := ih hx
      exact ⟨y, by simp [hy], hxy⟩

theorem forall₂_mem_right {R : α → β → Prop} {xs : List α} {ys : List β}
    (h : List.Forall₂ R xs ys) {y : β} (hy : y ∈ ys) : ∃ x ∈ xs, R x y :=
  forall₂_of_mem (List.Forall₂.flip (R := flip R) h) hy

theorem forall₂_join {γ : Type*} {R : α → β → Prop} {S : α → γ → Prop} {xs : List α} {ys : List β}
    {zs : List γ} (h : List.Forall₂ R xs ys) (h' : List.Forall₂ S xs zs) :
    List.Forall₂ (fun y z => ∃ x ∈ xs, R x y ∧ S x z) ys zs := by
  induction h generalizing zs with
  | nil =>
    cases h'
    exact .nil
  | cons hr _ ih =>
    cases h' with
    | cons hs h' =>
      refine .cons ⟨_, by simp, hr, hs⟩ ((ih h').imp ?_)
      rintro y z ⟨x, hx, hxy⟩
      exact ⟨x, by simp [hx], hxy⟩

theorem forall₂_congr_mem {R S : α → β → Prop} {xs : List α} {ys : List β}
    (h : ∀ x ∈ xs, ∀ y ∈ ys, R x y ↔ S x y) : List.Forall₂ R xs ys ↔ List.Forall₂ S xs ys := by
  simp only [List.forall₂_iff_zip]
  apply and_congr_right
  intro _
  have hz {x : α} {y : β} (hxy : (x, y) ∈ xs.zip ys) : R x y ↔ S x y :=
    h x (List.of_mem_zip hxy).1 y (List.of_mem_zip hxy).2
  exact ⟨fun hr x y hxy => (hz hxy).1 (hr hxy), fun hs x y hxy => (hz hxy).2 (hs hxy)⟩

theorem mapM_mem {f : α → Except ε β} {xs : List α} {ys : List β} (h : xs.mapM f = .ok ys) {y : β}
    (hy : y ∈ ys) : ∃ x ∈ xs, f x = .ok y :=
  forall₂_mem_right (mapM_ok h) hy

theorem mapM_of_mem {f : α → Except ε β} {xs : List α} {ys : List β} (h : xs.mapM f = .ok ys)
    {x : α} (hx : x ∈ xs) : ∃ y ∈ ys, f x = .ok y :=
  forall₂_of_mem (mapM_ok h) hx

theorem mapM_congr {f g : α → Except ε β} {xs : List α} (h : ∀ x ∈ xs, f x = g x) :
    xs.mapM f = xs.mapM g := by
  induction xs with
  | nil => rfl
  | cons x xs ih =>
    rw [List.mapM_cons, List.mapM_cons, h x (by simp), ih fun y hy => h y (by simp [hy])]

theorem mapM_error {f : α → Except ε β} {xs : List α} {e : ε} (h : xs.mapM f = .error e) :
    ∃ x ∈ xs, f x = .error e := by
  induction xs with
  | nil => exact absurd h (by simp [pure, Except.pure])
  | cons x xs ih =>
    rw [List.mapM_cons] at h
    cases hx : f x with
    | error d =>
      obtain rfl : d = e := by simpa [hx, bind, Except.bind] using h
      exact ⟨x, by simp, hx⟩
    | ok y =>
      cases hs : xs.mapM f with
      | ok ys => simp [hx, hs, bind, Except.bind, pure, Except.pure] at h
      | error d =>
        obtain rfl : d = e := by simpa [hx, hs, bind, Except.bind] using h
        obtain ⟨z, hz, hf⟩ := ih hs
        exact ⟨z, by simp [hz], hf⟩

theorem mapM_map {f : α → Except ε β} {xs : List α} {ys : List β} (h : xs.mapM f = .ok ys)
    {key : β → α} (hk : ∀ x y, f x = .ok y → key y = x) : ys.map key = xs := by
  have hall := mapM_ok h
  clear h
  induction hall with
  | nil => rfl
  | cons hf _ ih => rw [List.map_cons, ih, hk _ _ hf]

theorem mapM_eq_some {f : α → Option β} {r : α → β} {xs : List α} (h : ∀ x ∈ xs, f x = some (r x)) :
    xs.mapM f = some (xs.map r) := by
  induction xs with
  | nil => rfl
  | cons x xs ih => simp [h x (by simp), ih fun y hy => h y (by simp [hy])]

theorem mapM_ok_of_forall {f : α → Except ε β} {xs : List α} (h : ∀ x ∈ xs, ∃ y, f x = .ok y) :
    ∃ ys, xs.mapM f = .ok ys := by
  induction xs with
  | nil => exact ⟨[], rfl⟩
  | cons x xs ih =>
    obtain ⟨y, hy⟩ := h x (by simp)
    obtain ⟨ys, hys⟩ := ih fun z hz => h z (by simp [hz])
    refine ⟨y :: ys, ?_⟩
    simp [List.mapM_cons, hy, hys, bind, Except.bind, pure, Except.pure]

theorem find?_forall₂ {R : α → β → Prop} {xs : List α} {ys : List β}
    (h : List.Forall₂ R xs ys) {p : α → Bool} {q : β → Bool} (hp : ∀ x y, R x y → q y = p x) :
    (xs.find? p = none ∧ ys.find? q = none) ∨
      ∃ z ∈ xs.zip ys, R z.1 z.2 ∧ xs.find? p = some z.1 ∧ ys.find? q = some z.2 := by
  induction h with
  | nil => exact .inl ⟨rfl, rfl⟩
  | @cons x y xs ys hxy _ ih =>
    rw [List.find?_cons, List.find?_cons, hp x y hxy]
    by_cases hf : p x = true
    · rw [hf]
      exact .inr ⟨(x, y), by simp, hxy, rfl, rfl⟩
    · rw [Bool.not_eq_true] at hf
      rw [hf]
      refine ih.imp id ?_
      rintro ⟨z, hz, hrest⟩
      exact ⟨z, by simp [hz], hrest⟩

theorem forall₂_map {γ : Type} {R : β → γ → Prop} {f : α → β} {g : α → γ} {xs : List α}
    (h : ∀ x ∈ xs, R (f x) (g x)) : List.Forall₂ R (xs.map f) (xs.map g) := by
  rw [List.forall₂_map_left_iff, List.forall₂_map_right_iff, List.forall₂_same]
  exact h

theorem forall₂_flatMap {γ : Type} {R : β → γ → Prop} {f : α → List β} {g : α → List γ}
    {xs : List α} (h : ∀ x ∈ xs, List.Forall₂ R (f x) (g x)) :
    List.Forall₂ R (xs.flatMap f) (xs.flatMap g) := by
  induction xs with
  | nil => exact .nil
  | cons x xs ih => exact List.rel_append (h x (by simp)) (ih fun y hy => h y (by simp [hy]))

theorem forall₂_filterMap {γ : Type} {R : β → γ → Prop} {f : α → Option β} {g : α → Option γ}
    {xs : List α} (h : ∀ x ∈ xs, ∃ y z, f x = some y ∧ g x = some z ∧ R y z) :
    List.Forall₂ R (xs.filterMap f) (xs.filterMap g) := by
  induction xs with
  | nil => exact .nil
  | cons x xs ih =>
    obtain ⟨y, z, hf, hg, hr⟩ := h x (by simp)
    rw [List.filterMap_cons_some hf, List.filterMap_cons_some hg]
    exact .cons hr (ih fun w hw => h w (by simp [hw]))

theorem filterMap_map_none {γ : Type} {f : β → Option γ} {g : α → β} (h : ∀ x, f (g x) = none)
    (xs : List α) : (xs.map g).filterMap f = [] := by
  rw [List.filterMap_map, List.filterMap_eq_nil_iff]
  exact fun x _ => h x

theorem filterMap_map_some {γ : Type} {f : β → Option γ} {g : α → β} {k : α → γ}
    (h : ∀ x, f (g x) = some (k x)) (xs : List α) : (xs.map g).filterMap f = xs.map k := by
  rw [List.filterMap_map, ← List.filterMap_eq_map]
  exact List.filterMap_congr fun x _ => h x

theorem sublist_flatMap (f : α → List β) {xs ys : List α} (h : xs.Sublist ys) :
    (xs.flatMap f).Sublist (ys.flatMap f) := by
  induction h with
  | slnil => exact .slnil
  | cons y _ ih => exact ih.trans (List.sublist_append_right _ _)
  | cons_cons y _ ih => exact (List.append_sublist_append_left _).2 ih

theorem eq_of_mem_both {f : α → List β} {xs : List α} (h : (xs.flatMap f).Nodup) {x y : α}
    (hx : x ∈ xs) (hy : y ∈ xs) {b : β} (hbx : b ∈ f x) (hby : b ∈ f y) : x = y := by
  by_contra hne
  have hp := (List.nodup_flatMap.1 h).2
  have : Std.Symm (Function.onFun List.Disjoint f) := ⟨fun _ _ h _ hb hc => h hc hb⟩
  exact hp.forall hx hy hne hbx hby

theorem eraseDups_nodup [BEq α] [LawfulBEq α] (xs : List α) : xs.eraseDups.Nodup := by
  induction hn : xs.length using Nat.strongRecOn generalizing xs with
  | ind n ih =>
    cases xs with
    | nil => simp
    | cons x xs =>
      rw [List.eraseDups_cons, List.nodup_cons, List.mem_eraseDups]
      refine ⟨by simp, ih _ ?_ _ rfl⟩
      have hle := List.length_filter_le (fun b => !b == x) xs
      rw [List.length_cons] at hn
      omega

theorem flatMap_split {f : α → List β} {l : List α} {ps qs : List β} {s : β}
    (h : l.flatMap f = ps ++ s :: qs) :
    ∃ pre a post us vs, l = pre ++ a :: post ∧ f a = us ++ s :: vs ∧ ps = pre.flatMap f ++ us := by
  induction l generalizing ps with
  | nil => simp at h
  | cons a l ih =>
    rw [List.flatMap_cons, List.append_eq_append_iff] at h
    rcases h with ⟨us, rfl, hr⟩ | ⟨us, hf, hr⟩
    · obtain ⟨pre, b, post, vs, ws, rfl, hb, rfl⟩ := ih hr
      exact ⟨a :: pre, b, post, vs, ws, rfl, hb, by simp⟩
    · cases us with
      | nil =>
        obtain ⟨pre, b, post, vs, ws, rfl, hb, hp⟩ :=
          ih (hr.symm.trans (List.nil_append _).symm)
        refine ⟨a :: pre, b, post, vs, ws, rfl, hb, ?_⟩
        rw [List.flatMap_cons, List.append_assoc, ← hp, hf, List.append_nil, List.append_nil]
      | cons u us =>
        obtain ⟨rfl, -⟩ := List.cons.inj hr
        exact ⟨[], a, l, ps, us, rfl, hf, rfl⟩

theorem append_split {l l' pre post : List α} {e : α} (h : l ++ l' = pre ++ e :: post) :
    (∃ us, l = pre ++ e :: us) ∨ ∃ us, pre = l ++ us ∧ l' = us ++ e :: post := by
  rcases List.append_eq_append_iff.1 h with ⟨us, hp, hl⟩ | ⟨us, hl, hp⟩
  · exact .inr ⟨us, hp, hl⟩
  · cases us with
    | nil => exact .inr ⟨[], by simpa using hl.symm, by simpa using hp.symm⟩
    | cons u us =>
      obtain ⟨rfl, -⟩ := List.cons.inj hp
      exact .inl ⟨us, hl⟩

theorem split_right {l l' pre post : List α} {e : α} (h : l ++ l' = pre ++ e :: post) (he : e ∉ l) :
    ∃ us, pre = l ++ us ∧ l' = us ++ e :: post :=
  (append_split h).resolve_left fun ⟨_, hl⟩ => he (by simp [hl])

theorem split_left {l l' pre post : List α} {e : α} (h : l ++ l' = pre ++ e :: post)
    (he : e ∉ l') : ∃ us, l = pre ++ e :: us :=
  (append_split h).resolve_right fun ⟨_, _, hl⟩ => he (by simp [hl])

end TensorAsm.Sequences
