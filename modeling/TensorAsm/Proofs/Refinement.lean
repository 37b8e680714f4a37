import TensorAsm.Proofs.Lowerings
import TensorAsm.Proofs.Outcomes
import TensorAsm.Proofs.Valuation
/-!
An emitter beside the outline of the same circuit. Both ask for the same cells and refuse the same
operations, and the emitter has recorded what the journal of the outline leads to, or has stopped
where going through the journal stops.
-/

namespace TensorAsm

open Lowering Stateful
open Program (Values)

namespace Lowering.Emit

/-- A journal is gone on with. -/
abbrev Continues {α : Type} (j : List Event) (x : Emit α) : Prop :=
  x.Meets (fun d => j <+: d.journal) (fun _ => True) fun _ => True

end Lowering.Emit

namespace Emitter

variable {α β γ δ : Type}

/-- The emitter `x` goes along with the outline `y`. The events that `y` adds can be gone through
and both succeed or both fail, or `x` fails where going through them stops; calm are those of which
the latter is not to be expected. -/
inductive Refines [Platform] (s : Setting) (e : State) (d : Draft) (v : Values) (x : Emitter α)
    (y : Emit β) (Q : α → β → State → Draft → Values → Prop) : Bool → Prop
  | stops {j i : List Event} {u : Values} {f : Fault} {r : Except Fault β} {c : Draft} {t : State}
      (hy : Id.run (y.run d) = (r, c)) (hj : c.journal = d.journal ++ j)
      (hf : Values.follow s.modulus s.witness v j = (u, i, some f))
      (hx : Id.run (x.run e) = (.error f, t)) (hl : t.log = e.log ++ i.filterMap Event.entry?) :
      Refines s e d v x y Q false
  | fails {calm : Bool} {j : List Event} {u : Values} {f : Fault} {c : Draft} {t : State}
      (hy : Id.run (y.run d) = (.error f, c)) (hj : c.journal = d.journal ++ j)
      (hf : Values.follow s.modulus s.witness v j = (u, j, none))
      (hx : Id.run (x.run e) = (.error f, t)) (hl : t.log = e.log ++ j.filterMap Event.entry?) :
      Refines s e d v x y Q calm
  | goes {calm : Bool} {j : List Event} {u : Values} {a : α} {b : β} {c : Draft} {t : State}
      (hy : y.Yields d b c) (hj : c.journal = d.journal ++ j)
      (hf : Values.follow s.modulus s.witness v j = (u, j, none))
      (hx : Id.run (x.run e) = (.ok a, t)) (hl : t.log = e.log ++ j.filterMap Event.entry?)
      (hq : Q a b t c u) : Refines s e d v x y Q calm

namespace Refines

variable [Platform] {s : Setting} {e : State} {d : Draft} {v : Values} {x : Emitter α} {y : Emit β}
  {k : α → Emitter γ} {l : β → Emit δ} {Q : α → β → State → Draft → Values → Prop}
  {R : γ → δ → State → Draft → Values → Prop} {calm : Bool}

theorem pure {a : α} {b : β} (h : Q a b e d v) : Refines s e d v (pure a) (pure b) Q calm :=
  .goes (j := []) (Stateful.yields_pure.2 ⟨rfl, rfl⟩) (by simp) rfl rfl (by simp) h

theorem imp {P : α → β → State → Draft → Values → Prop} (h : Refines s e d v x y Q calm)
    (hq : ∀ a b e' d' v', Q a b e' d' v' → P a b e' d' v') : Refines s e d v x y P calm := by
  cases h with
  | stops hy hj hf hx hl => exact .stops hy hj hf hx hl
  | fails hy hj hf hx hl => exact .fails hy hj hf hx hl
  | goes hy hj hf hx hl h => exact .goes hy hj hf hx hl (hq _ _ _ _ _ h)

theorem of_run {y' : Emit β} (h : Refines s e d v x y' Q calm)
    (hy : Id.run (y.run d) = Id.run (y'.run d)) : Refines s e d v x y Q calm := by
  cases h with
  | stops hy' hj hf hx hl => exact .stops (hy.trans hy') hj hf hx hl
  | fails hy' hj hf hx hl => exact .fails (hy.trans hy') hj hf hx hl
  | goes hy' hj hf hx hl h => exact .goes (hy.trans hy') hj hf hx hl h

theorem yields {a : α} {e' : State} (h : Refines s e d v x y Q calm) (hx : x.Yields e a e') :
    ∃ b d' v', y.Yields d b d' ∧ Q a b e' d' v' := by
  cases h with
  | stops _ _ _ hx' => exact absurd hx' hx.not_fails
  | fails _ _ _ hx' => exact absurd hx' hx.not_fails
  | goes hy _ _ hx' _ hq =>
    obtain ⟨rfl, rfl⟩ := hx.unique hx'
    exact ⟨_, _, _, hy, hq⟩

theorem agitate (h : Refines s e d v x y Q true) : Refines s e d v x y Q calm := by
  cases h with
  | fails hy hj hf hx hl => exact .fails hy hj hf hx hl
  | goes hy hj hf hx hl h => exact .goes hy hj hf hx hl h

theorem fails_bind {evs : List Event} {u : Values} {f : Fault} {d' : Draft} {e' : State}
    (hy : Id.run (y.run d) = (.error f, d')) (hj : d'.journal = d.journal ++ evs)
    (hf : Values.follow s.modulus s.witness v evs = (u, evs, none))
    (hx : Id.run (x.run e) = (.error f, e')) (hl : e'.log = e.log ++ evs.filterMap Event.entry?) :
    Refines s e d v (x >>= k) (y >>= l) R calm :=
  .fails (by rw [run_bind, hy]) hj hf (by rw [run_bind, hx]) hl

theorem goes_bind {evs : List Event} {u : Values} {a : α} {b : β} {d' : Draft} {e' : State}
    (hy : y.Yields d b d') (hj : d'.journal = d.journal ++ evs)
    (hf : Values.follow s.modulus s.witness v evs = (u, evs, none))
    (hx : Id.run (x.run e) = (.ok a, e')) (hl : e'.log = e.log ++ evs.filterMap Event.entry?)
    (h : Refines s e' d' u (k a) (l b) R calm) : Refines s e d v (x >>= k) (y >>= l) R calm := by
  have hbx : Id.run ((x >>= k).run e) = Id.run ((k a).run e') := by rw [run_bind, hx]
  have hby : Id.run ((y >>= l).run d) = Id.run ((l b).run d') := by
    rw [run_bind, show _ = _ from hy]
  have hfollow (more : List Event) := Values.follow_append s.modulus s.witness v evs more
  simp only [hf] at hfollow
  cases h with
  | @stops more done _ _ _ _ _ hy' hj' hf' hx' hl' =>
    refine .stops (j := evs ++ more) (i := evs ++ done) (hby.trans hy') ?_
      (by rw [hfollow, hf']) (hbx.trans hx') ?_
    · rw [hj', hj, List.append_assoc]
    · rw [hl', hl, List.filterMap_append, List.append_assoc]
  | @fails _ more _ _ _ _ hy' hj' hf' hx' hl' =>
    refine .fails (j := evs ++ more) (hby.trans hy') ?_ (by rw [hfollow, hf']) (hbx.trans hx') ?_
    · rw [hj', hj, List.append_assoc]
    · rw [hl', hl, List.filterMap_append, List.append_assoc]
  | @goes _ more _ _ _ _ _ hy' hj' hf' hx' hl' hq =>
    refine .goes (j := evs ++ more) (hby.trans hy') ?_ (by rw [hfollow, hf']) (hbx.trans hx') ?_
      hq
    · rw [hj', hj, List.append_assoc]
    · rw [hl', hl, List.filterMap_append, List.append_assoc]

theorem bind (h : Refines s e d v x y Q true)
    (hk : ∀ a b e' d' v', Q a b e' d' v' → Refines s e' d' v' (k a) (l b) R calm) :
    Refines s e d v (x >>= k) (y >>= l) R calm := by
  cases h with
  | fails hy hj hf hx hl => exact fails_bind hy hj hf hx hl
  | goes hy hj hf hx hl hq => exact goes_bind hy hj hf hx hl (hk _ _ _ _ _ hq)

theorem ite_bind {c : Prop} [Decidable c] {x' : Emitter α} {y' : Emit β}
    (h : c → Refines s e d v x y Q true) (h' : ¬c → Refines s e d v x' y' Q true)
    (hk : ∀ a b e' d' v', Q a b e' d' v' → Refines s e' d' v' (k a) (l b) R calm) :
    Refines s e d v (if c then x >>= k else x' >>= k) (if c then y >>= l else y' >>= l) R calm := by
  split
  · next hc => exact (h hc).bind hk
  · next hc => exact (h' hc).bind hk

/-- If going through the events of the first request stops, the second still adds to them. -/
theorem bind_continues (h : Refines s e d v x y Q calm) (hl : ∀ b j, (l b).Continues j)
    (hk : ∀ a b e' d' v', Q a b e' d' v' → Refines s e' d' v' (k a) (l b) R false) :
    Refines s e d v (x >>= k) (y >>= l) R false := by
  cases h with
  | fails hy hj hf hx hl => exact fails_bind hy hj hf hx hl
  | goes hy hj hf hx hl hq => exact goes_bind hy hj hf hx hl (hk _ _ _ _ _ hq)
  | @stops evs done u f r d' e' hy hj hf hx hlog =>
    have hbx : Id.run ((x >>= k).run e) = (.error f, e') := by rw [run_bind, hx]
    cases r with
    | error g =>
      exact .stops (by rw [run_bind, hy]) hj hf hbx hlog
    | ok b =>
      obtain ⟨more, hmore⟩ := (hl b d'.journal d' (List.prefix_refl _)).1
      have hby : Id.run ((y >>= l).run d) = Id.run ((l b).run d') := by rw [run_bind, hy]
      have hall : (Id.run ((l b).run d')).2.journal = d.journal ++ (evs ++ more) := by
        rw [← hmore, hj, List.append_assoc]
      refine .stops (u := u) hby hall ?_ hbx hlog
      rw [Values.follow_append, hf]

end Refines

/-- Both look at the circuit alone and come to the same. -/
def Neutral (x : Emitter α) (y : Emit α) : Prop :=
  ∃ r : Except Fault α, (∀ e, Id.run (x.run e) = (r, e)) ∧ ∀ d, Id.run (y.run d) = (r, d)

namespace Neutral

variable {x : Emitter α} {y : Emit α} {k : α → Emitter β} {l : α → Emit β} {o : Circuit.Operation}

theorem pure (a : α) : Neutral (pure a) (pure a) := ⟨.ok a, fun _ => rfl, fun _ => rfl⟩

theorem throw (f : Fault) : Neutral (throw f : Emitter α) (throw f) :=
  ⟨.error f, fun _ => rfl, fun _ => rfl⟩

theorem bind (h : Neutral x y) (hk : ∀ a, Neutral (k a) (l a)) :
    Neutral (x >>= k) (y >>= l) := by
  obtain ⟨r, hx, hy⟩ := h
  cases r with
  | error f =>
    exact ⟨.error f, fun e => by rw [run_bind, hx], fun d => by rw [run_bind, hy]⟩
  | ok a =>
    obtain ⟨r, hkx, hky⟩ := hk a
    exact ⟨r, fun e => by rw [run_bind, hx]; exact hkx e,
      fun d => by rw [run_bind, hy]; exact hky d⟩

theorem ite {c : Prop} [Decidable c] {x' : Emitter α} {y' : Emit α} (h : Neutral x y)
    (h' : Neutral x' y') : Neutral (if c then x else x') (if c then y else y') := by
  split
  · exact h
  · exact h'

theorem ofExcept (r : Except Fault α) :
    Neutral (MonadExcept.ofExcept r) (MonadExcept.ofExcept r) := by
  cases r with
  | error f => exact throw f
  | ok a => exact pure a

theorem mapM {f : β → Emitter α} {g : β → Emit α} (h : ∀ b, Neutral (f b) (g b)) (bs : List β) :
    Neutral (bs.mapM f) (bs.mapM g) := by
  induction bs with
  | nil => exact pure []
  | cons b bs ih =>
    rw [List.mapM_cons, List.mapM_cons]
    exact (h b).bind fun _ => ih.bind fun _ => pure _

theorem refuse (c : CircuitDefect) :
    Neutral (Lowering.refuse c : Emitter α) (Lowering.refuse c) := throw _

theorem wrongCount (o : Circuit.Operation) (allowed : List Nat) :
    Neutral (Lowering.wrongCount o allowed : Emitter α) (Lowering.wrongCount o allowed) := throw _

theorem mismatch (o : Circuit.Operation) (operands : List (List Nat)) (output : List Nat)
    (c : ShapeComplaint) : Neutral (Lowering.mismatch o operands output c : Emitter α)
      (Lowering.mismatch o operands output c) := throw _

theorem checkWritten (ns : List Int) :
    Neutral (Lowering.checkWritten ns) (Lowering.checkWritten ns) := .ite (throw _) (pure _)

theorem checkAxes [Platform] (shape : List Nat) :
    Neutral (Lowering.checkAxes shape) (Lowering.checkAxes shape) := .ite (throw _) (pure _)

theorem checkCountable [Platform] (shape : List Nat) :
    Neutral (Lowering.checkCountable shape) (Lowering.checkCountable shape) :=
  .ite (throw _) (pure _)

theorem size (t : Circuit.Tensor) : Neutral (Lowering.size t) (Lowering.size t) := ofExcept _

theorem tensor (s : Lowering.Setting) (id : String) : Neutral (s.tensor id) (s.tensor id) := by
  unfold Lowering.Setting.tensor
  split
  · exact pure _
  · exact throw _

theorem checkOutput (s : Lowering.Setting) (o : Circuit.Operation) (operands : List (List Nat))
    (expected : List Nat) :
    Neutral (s.checkOutput o operands expected) (s.checkOutput o operands expected) :=
  (tensor s o.output).bind fun _ => .ite (mismatch o _ _ _) (pure _)

theorem scalarShape (s : Lowering.Setting) (o : Circuit.Operation) (operands : List (List Nat)) :
    Neutral (Lowering.scalarShape s o operands) (Lowering.scalarShape s o operands) :=
  (tensor s o.output).bind fun _ => .ite (pure _) (mismatch o _ _ _)

theorem convPair (o : Circuit.Operation) (name : String) (default : Int) :
    Neutral (Lowering.convPair o name default) (Lowering.convPair o name default) := by
  unfold Lowering.convPair
  split
  · exact pure _
  · exact refuse _

theorem checkWindow [Platform] (c : Window) :
    Neutral (Lowering.checkWindow c) (Lowering.checkWindow c) :=
  (checkCountable _).bind fun _ => .ite (checkCountable _) (pure _)

theorem clampBounds (o : Circuit.Operation) :
    Neutral (Lowering.clampBounds o) (Lowering.clampBounds o) := by
  unfold Lowering.clampBounds
  split
  · exact pure _
  · exact pure _
  · split
    · exact .ite (refuse _) (pure _)
    · exact refuse _
  · exact refuse _

variable {s : Setting} {e : State} {d : Draft} {v : Values} {calm : Bool}
  {R : β → γ → State → Draft → Values → Prop} {j : α → Emit γ}

theorem continues (h : Neutral x y) (j : List Event) : y.Continues j := by
  obtain ⟨r, -, hy⟩ := h
  intro d hd
  rw [hy]
  cases r <;> exact ⟨hd, trivial⟩

theorem refines [Platform] (h : Neutral x y) {Q : α → α → State → Draft → Values → Prop}
    (hq : ∀ a, y.Yields d a d → Q a a e d v) : Refines s e d v x y Q calm := by
  obtain ⟨r, hx, hy⟩ := h
  cases r with
  | error f => exact .fails (j := []) (hy d) (by simp) rfl (hx e) (by simp)
  | ok a => exact .goes (j := []) (hy d) (by simp) rfl (hx e) (by simp) (hq a (hy d))

theorem refines_bind [Platform] (h : Neutral x y)
    (hk : ∀ a, y.Yields d a d → Refines s e d v (k a) (j a) R calm) :
    Refines s e d v (x >>= k) (y >>= j) R calm := by
  refine Refines.bind (h.refines (Q := fun a b e' d' v' =>
    a = b ∧ e' = e ∧ d' = d ∧ v' = v ∧ y.Yields d a d) fun a ha => ⟨rfl, rfl, rfl, rfl, ha⟩) ?_
  rintro a _ _ _ _ ⟨rfl, rfl, rfl, rfl, ha⟩
  exact hk a ha

theorem guard_refines [Platform] {x : Emitter Unit} {y : Emit Unit} {k : Unit → Emitter β}
    {j : Unit → Emit γ} {c : Prop} [Decidable c] (h : Neutral x y)
    (hn : ∀ a d', ¬y.Yields d a d') (hk : ¬c → Refines s e d v (k ()) (j ()) R calm) :
    Refines s e d v (if c then x >>= k else k ()) (if c then y >>= j else j ()) R calm := by
  split
  · exact h.refines_bind fun a ha => absurd ha (hn a d)
  · next hc => exact hk hc

end Neutral

end Emitter

end TensorAsm
