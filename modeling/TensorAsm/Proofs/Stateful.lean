import TensorAsm.Fault
import TensorAsm.Lowering.Checks
/-!
Requests that work on a state and may end in a fault: what it is that one yields or fails with, and
that it keeps to an invariant however it ends.
-/

namespace TensorAsm.Stateful

variable {σ α β : Type} {d d' e : σ}

/-- The request succeeds with a result and leaves a state. -/
def Yields (x : Stateful σ α) (d : σ) (a : α) (d' : σ) : Prop :=
  Id.run (x.run d) = (.ok a, d')

/-- The request fails with a fault and leaves a state. -/
def Fails (x : Stateful σ α) (d : σ) (f : Fault) (d' : σ) : Prop :=
  Id.run (x.run d) = (.error f, d')

theorem run_bind (x : Stateful σ α) (f : α → Stateful σ β) (d : σ) :
    Id.run ((x >>= f).run d) = match Id.run (x.run d) with
      | (.ok a, e) => Id.run ((f a).run e)
      | (.error f, e) => (.error f, e) := by
  change (match x.run d with | (r, e) => ExceptT.bindCont f r e) = _
  rcases x.run d with ⟨_ | _, e⟩ <;> rfl

@[simp] theorem yields_pure {a b : α} :
    (pure a : Stateful σ α).Yields d b d' ↔ a = b ∧ d = d' := by
  change ((.ok a, d) : Except Fault α × σ) = (.ok b, d') ↔ _
  simp

@[simp] theorem yields_bind {x : Stateful σ α} {f : α → Stateful σ β} {b : β} :
    (x >>= f).Yields d b d' ↔ ∃ a e, x.Yields d a e ∧ (f a).Yields e b d' := by
  unfold Yields
  rw [run_bind]
  rcases Id.run (x.run d) with ⟨_ | a, e⟩ <;> simp [and_assoc]

@[simp] theorem yields_throw {f : Fault} {a : α} :
    (throw f : Stateful σ α).Yields d a d' ↔ False := by
  change ((.error f, d) : Except Fault α × σ) = (.ok a, d') ↔ _
  simp

@[simp] theorem yields_get : (get : Stateful σ σ).Yields d e d' ↔ d = e ∧ d = d' := by
  change ((.ok d, d) : Except Fault σ × σ) = (.ok e, d') ↔ _
  simp

@[simp] theorem yields_modify {f : σ → σ} {u : Unit} :
    (modify f : Stateful σ Unit).Yields d u d' ↔ f d = d' := by
  change ((.ok (), f d) : Except Fault Unit × σ) = (.ok u, d') ↔ _
  simp

@[simp] theorem yields_set {u : PUnit} : (set e : Stateful σ PUnit).Yields d u d' ↔ e = d' := by
  change ((.ok (), e) : Except Fault PUnit × σ) = (.ok u, d') ↔ _
  simp

@[simp] theorem yields_ite {c : Prop} [Decidable c] {x y : Stateful σ α} {a : α} :
    (if c then x else y).Yields d a d' ↔ (c ∧ x.Yields d a d') ∨ (¬c ∧ y.Yields d a d') := by
  split <;> simp_all

theorem yields_ite_bind {c : Prop} [Decidable c] {x y : Stateful σ α} {f : α → Stateful σ β}
    {b : β} :
    (if c then x >>= f else y >>= f).Yields d b d' ↔
      ∃ a e, ((c ∧ x.Yields d a e) ∨ (¬c ∧ y.Yields d a e)) ∧ (f a).Yields e b d' := by
  split <;> simp_all

@[simp] theorem yields_ofExcept {x : Except Fault α} {a : α} :
    (MonadExcept.ofExcept x : Stateful σ α).Yields d a d' ↔ x = .ok a ∧ d = d' := by
  cases x <;> simp [MonadExcept.ofExcept]

@[simp] theorem yields_checkWritten {ns : List Int} {u : Unit} :
    (Lowering.checkWritten ns : Stateful σ Unit).Yields d u d' ↔
      ns.all Numeral.isWritable = true ∧ d = d' := by
  unfold Lowering.checkWritten
  cases h : ns.all Numeral.isWritable <;> simp

theorem yields_or_fails (x : Stateful σ α) (d : σ) :
    (∃ a d', x.Yields d a d') ∨ ∃ f d', x.Fails d f d' := by
  unfold Yields Fails
  rcases Id.run (x.run d) with ⟨f | a, d'⟩
  · exact .inr ⟨f, d', rfl⟩
  · exact .inl ⟨a, d', rfl⟩

section

variable {x : Stateful σ α} {g : α → Stateful σ β} {a : α} {f : Fault}

theorem Yields.unique {a' : α} (h : x.Yields d a e) (h' : x.Yields d a' d') :
    a = a' ∧ e = d' := by
  have he := h.symm.trans h'
  simpa using he

theorem Yields.not_fails (h : x.Yields d a d') : ¬x.Fails d f e := by
  intro hf
  exact absurd (h.symm.trans hf) (by simp)

theorem Fails.bind (h : x.Fails d f d') : (x >>= g).Fails d f d' := by
  unfold Fails at h ⊢
  rw [run_bind, h]

theorem Yields.bind_fails (h : x.Yields d a e) (hg : (g a).Fails e f d') :
    (x >>= g).Fails d f d' := by
  unfold Yields at h
  unfold Fails at hg ⊢
  rw [run_bind, h]
  exact hg

end

/-- From a state in which `I` holds, the request leads to one in which it holds. It has a result
of which `Q` holds, or ends in a fault of which `F` holds. -/
def Meets (I : σ → Prop) (F : Fault → Prop) (x : Stateful σ α) (Q : α → Prop) : Prop :=
  ∀ d, I d → I (Id.run (x.run d)).2 ∧
    match (Id.run (x.run d)).1 with
    | .ok a => Q a
    | .error f => F f

variable {I : σ → Prop} {F : Fault → Prop} {P Q : α → Prop} {R : β → Prop}

theorem meets_pure {a : α} (h : Q a) : Meets I F (pure a) Q := fun _ hd => ⟨hd, h⟩

theorem meets_throw {f : Fault} (h : F f) : Meets I F (throw f) Q := fun _ hd => ⟨hd, h⟩

theorem Meets.bind {x : Stateful σ α} {f : α → Stateful σ β} (hx : Meets I F x P)
    (hf : ∀ a, P a → Meets I F (f a) R) : Meets I F (x >>= f) R := by
  intro d hd
  rw [run_bind]
  have h := hx d hd
  revert h
  rcases Id.run (x.run d) with ⟨_ | a, e⟩
  · exact id
  · exact fun h => hf a h.2 e h.1

theorem Meets.imp {x : Stateful σ α} (hx : Meets I F x P) (h : ∀ a, P a → Q a) :
    Meets I F x Q := by
  intro d hd
  have hd := hx d hd
  revert hd
  rcases Id.run (x.run d) with ⟨_ | a, e⟩
  · exact id
  · exact fun hd => ⟨hd.1, h a hd.2⟩

theorem Meets.ite_bind {c : Prop} [Decidable c] {x y : Stateful σ α} {f : α → Stateful σ β}
    (hx : Meets I F x P) (hy : Meets I F y P) (hf : ∀ a, P a → Meets I F (f a) R) :
    Meets I F (if c then x >>= f else y >>= f) R := by
  split
  · exact hx.bind hf
  · exact hy.bind hf

theorem Meets.guard {c : Prop} [Decidable c] {x : Stateful σ β} {f : β → Stateful σ α}
    {y : Stateful σ α} (hx : Meets I F x fun _ => False) (hy : Meets I F y Q) :
    Meets I F (if c then x >>= f else y) Q := by
  split
  · exact hx.bind fun _ h => h.elim
  · exact hy

theorem meets_modify {f : σ → σ} (h : ∀ d, I d → I (f d)) :
    Meets I F (modify f) fun _ => True := fun d hd => ⟨h d hd, trivial⟩

theorem meets_get : Meets I F get I := fun _ hd => ⟨hd, hd⟩

theorem meets_ofExcept {x : Except Fault α} (h : ∀ f, x = .error f → F f) :
    Meets I F (MonadExcept.ofExcept x) fun a => x = .ok a := by
  cases x with
  | error f => exact meets_throw (h f rfl)
  | ok a => exact meets_pure rfl

theorem meets_checkWritten {ns : List Int}
    (h : ∀ n ∈ ns, Numeral.isWritable n = false → F (.invalid .unwritable)) :
    Meets I F (Lowering.checkWritten ns) fun _ => True := by
  unfold Lowering.checkWritten
  split
  · next hn =>
      obtain ⟨n, hm, hw⟩ : ∃ n ∈ ns, Numeral.isWritable n = false := by simpa using hn
      exact meets_throw (h n hm hw)
  · exact meets_pure trivial

theorem meets_mapM {f : α → Stateful σ β} {xs : List α}
    (h : ∀ x ∈ xs, Meets I F (f x) fun _ => True) : Meets I F (xs.mapM f) fun _ => True := by
  induction xs with
  | nil => exact meets_pure trivial
  | cons x xs ih =>
    rw [List.mapM_cons]
    exact (h x (by simp)).bind fun _ _ =>
      (ih fun y hy => h y (by simp [hy])).bind fun _ _ => meets_pure trivial

theorem meets_forM {f : α → Stateful σ PUnit} {xs : List α}
    (h : ∀ x ∈ xs, Meets I F (f x) fun _ => True) : Meets I F (xs.forM f) fun _ => True := by
  induction xs with
  | nil => exact meets_pure trivial
  | cons x xs ih => exact (h x (by simp)).bind fun _ _ => ih fun y hy => h y (by simp [hy])

end TensorAsm.Stateful
