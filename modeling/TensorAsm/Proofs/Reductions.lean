import TensorAsm.Proofs.Meaning
/-!
Reductions as chains, one for each element. Wherever the steps are cut, an element whose chain has
been run stands in its landing cell, and the sum so far in that of the last step.
-/

namespace TensorAsm.Lowering

variable {S : Semantics} {look : Int → List Table.Row} {k : Int → Int} {zero natural out : Int}
  {o : Circuit.Operation} {shape index : List Nat} {f : List Nat → List Term} {r : Reduction}
  {ss : List Step}

/-- Steps that are one chain for each element, and behind it what finishes the element. -/
structure Chained (zero : Int) (o : Circuit.Operation) (natural : Int) (shape : List Nat)
    (out : Int) (f : List Nat → List Term) (r : Reduction) (ss : List Step) : Prop where
  target : ∃ landing, r.target = ⟨out, landing, natural, o.scale⟩
  direct : natural = o.scale → r.target.landing = out
  length : ∀ index ∈ Shape.indices shape, (f index).length = r.steps
  nonempty : ∀ index ∈ Shape.indices shape, f index ≠ []
  steps : ss = (Shape.indices shape).flatMap fun index =>
    r.chain (elementLabel o index) (Shape.flat shape index) 0 zero (f index) ++
      r.target.finish (elementLabel o index) (Shape.flat shape index)

theorem Reduced.chained {terms : List (List Term)} {bs : List Allocation} {ok : Int → Prop}
    {n : Nat} (h : Reduced zero o natural shape out terms bs ss) (hu : Uniform ok shape terms n f) :
    ∃ r, Chained zero o natural shape out f r ss ∧ r.steps = n ∧ (Shape.indices shape ≠ [] →
      ∃ ps, ps ⊆ bs ∧ Partials o (Shape.volume shape) n r.partials ps) := by
  cases h with
  | empty he =>
    have hnone : Shape.indices shape = [] := List.map_eq_nil_iff.1 (hu.terms_eq.symm.trans he)
    exact ⟨⟨zero, 0, n, ⟨out, out, natural, o.scale⟩⟩, ⟨⟨out, rfl⟩, fun _ => rfl,
      by simp [hnone], by simp [hnone], by simp [hnone]⟩, rfl, fun hne => absurd hnone hne⟩
  | @chains c partials t ps ls hc hh hp hl =>
    have hlen : ∀ index ∈ Shape.indices shape, (f index).length = c := fun _ hi =>
      hu.length_head hh hi
    obtain rfl : c = n := by
      cases hix : Shape.indices shape with
      | nil => simp [hu.terms_eq, hix] at hh
      | cons first rest =>
        have hi : first ∈ Shape.indices shape := by simp [hix]
        rw [← hlen first hi, hu.length first hi]
    refine ⟨⟨zero, partials, c, t⟩, ⟨?_, ?_, hlen, ?_, ?_⟩, rfl, fun _ => ⟨ps, ?_, ?_⟩⟩
    · cases hl <;> exact ⟨_, rfl⟩
    · intro hn
      cases hl with
      | direct => rfl
      | apart hne => exact absurd hn hne
    · intro index hi he
      exact hc (by simpa [he] using (hlen index hi).symm)
    · rw [hu.terms_eq, reductionSteps_eq]
    · exact List.subset_append_left ps ls
    · rwa [hu.terms_eq, List.length_map, Shape.length_indices] at hp

theorem Settles.landing [Platform] {t : Target} {i : Nat} {z : Int} (h : Settles S look k t i z ss)
    (hd : ∀ s ∈ ss, Holds S look k s.instruction) : k (t.landing + i) = z := by
  unfold Settles at h
  split at h
  · exact h.2
  · have hmem : (t.landing + (i : Int), some z) ∈ finals S look k ss := by simp [h]
    obtain ⟨s, hs, -, hdest, heval⟩ := mem_finals.1 hmem
    exact Option.some.inj ((hd s hs _ hdest).symm.trans heval)

theorem chain_terms {label : String} {i j : Nat} {acc : Int} {ts : List Term} {s : Step}
    (h : s ∈ r.chain label i j acc ts) :
    ∃ t ∈ ts, ∃ dest acc, s.instruction = t.instruction dest acc := by
  induction ts generalizing j acc with
  | nil => simp [Reduction.chain] at h
  | cons t ts ih =>
    rcases List.mem_cons.1 h with rfl | h
    · exact ⟨t, by simp, _, _, rfl⟩
    · obtain ⟨u, hu, rest⟩ := ih h
      exact ⟨u, List.mem_cons_of_mem _ hu, rest⟩

theorem chain_step (label : String) (i j : Nat) (acc : Int) {n : Nat} {ts : List Term}
    (hn : n < ts.length) :
    ∃ s ∈ r.chain label i j acc ts, s.instruction.dest? = some (r.dest i (j + n)) ∧
      s.derived = (decide (j + n + 1 ≠ r.steps) || r.target.rescales) := by
  induction ts generalizing j n acc with
  | nil => simp at hn
  | cons t ts ih =>
    cases n with
    | zero => exact ⟨_, List.mem_cons_self, Term.dest_instruction, rfl⟩
    | succ n =>
      have hrest : n < ts.length := by simpa using hn
      obtain ⟨s, hs, hdest, hder⟩ := ih (j + 1) (r.dest i j) hrest
      rw [Nat.add_right_comm j 1 n] at hdest hder
      exact ⟨s, List.mem_cons_of_mem _ hs, hdest, hder⟩

/-- Wherever a chain is cut, the cell of its last step so far holds the sum of the summands up to
there and what it starts from, unless it is the output. -/
theorem chain_sum [Platform] (label : String) (i : Nat) {j n : Nat} {acc : Int} {ts : List Term}
    (hj : j + ts.length = r.steps) (hn : n < ts.length)
    (hder : j + n + 1 ≠ r.steps ∨ r.target.rescales = true)
    (hd : ∀ s ∈ r.chain label i j acc ts, s.derived = true → Holds S look k s.instruction) :
    k (r.dest i (j + n)) = S.wrap (k acc + ((ts.take (n + 1)).map (Term.value k)).sum) := by
  induction ts generalizing j n acc with
  | nil => simp at hn
  | cons t ts ih =>
    have hfirst (hone : j + 1 ≠ r.steps ∨ r.target.rescales = true) :
        k (r.dest i j) = S.wrap (k acc + t.value k) := by
      have hk := hd _ List.mem_cons_self (by simpa using hone) _ Term.dest_instruction
      rw [Reduction.step_instruction, Term.eval_instruction] at hk
      exact (Option.some.inj hk).symm
    cases n with
    | zero =>
      rw [Nat.add_zero] at hder ⊢
      simpa using hfirst hder
    | succ n =>
      have hlen : j + 1 + ts.length = r.steps := by
        simp only [List.length_cons] at hj
        omega
      have hlt : n < ts.length := by simpa using hn
      have hrest := ih hlen hlt (by rwa [Nat.add_right_comm j 1 n]) fun s hs =>
        hd s (List.mem_cons_of_mem _ hs)
      rw [hfirst (.inl (by omega)), S.wrap_add, Int.add_assoc,
        Nat.add_right_comm j 1 n] at hrest
      simpa [Nat.add_assoc] using hrest

namespace Chained

variable (h : Chained zero o natural shape out f r ss)

include h

theorem landed [Platform] (hz : k zero = 0) (hi : index ∈ Shape.indices shape)
    (hd : ∀ s ∈ r.chain (elementLabel o index) (Shape.flat shape index) 0 zero (f index),
      Holds S look k s.instruction) :
    k (r.target.landing + Shape.flat shape index) =
      S.wrap ((f index).map (Term.value k)).sum := by
  have hs := r.chain_settles (elementLabel o index) (Shape.flat shape index)
    (by simpa using h.length index hi) (h.nonempty index hi) fun s hs _ => hd s hs
  rw [hz, Int.zero_add] at hs
  exact hs.landing hd

theorem finish_eq (label : String) (i : Nat) :
    r.target.finish label i = if natural = o.scale then [] else
      [⟨.rescale (out + i) (r.target.landing + i) (natural - o.scale),
        label ++ scaleText natural o.scale, false⟩] := by
  obtain ⟨landing, ht⟩ := h.target
  rw [ht, Target.finish, Target.rescales]
  by_cases hn : natural = o.scale <;> simp [hn, Target.finishStep]

theorem rescale_mem (hn : natural ≠ o.scale) (hi : index ∈ Shape.indices shape) :
    ∃ s ∈ ss, s.instruction = .rescale (out + Shape.flat shape index)
      (r.target.landing + Shape.flat shape index) (natural - o.scale) := by
  refine ⟨⟨_, elementLabel o index ++ scaleText natural o.scale, false⟩, ?_, rfl⟩
  rw [h.steps]
  refine List.mem_flatMap.2 ⟨index, hi, List.mem_append_right _ ?_⟩
  rw [h.finish_eq, if_neg hn]
  exact List.mem_singleton_self _

theorem finished [Platform] (hi : index ∈ Shape.indices shape) {z : Int}
    (hz : k (r.target.landing + Shape.flat shape index) = S.wrap z)
    (hd : ∀ s ∈ ss, Holds S look k s.instruction) :
    S.moved (natural - o.scale) (S.wrap z) = some (k (out + Shape.flat shape index)) := by
  by_cases hn : natural = o.scale
  · rw [hn, Int.sub_self, Semantics.moved_zero (S.wrap_wrap z), ← hz, h.direct hn]
  · obtain ⟨s, hs, hinstr⟩ := h.rescale_mem hn hi
    have hk := hd s hs
    rw [hinstr] at hk
    rw [← hz]
    exact hk _ rfl

theorem rescale_behind {pre post : List Step} {s : Step} (hs : ss = pre ++ s :: post)
    {dest e shift : Int} (hr : s.instruction = .rescale dest e shift) :
    ∃ index ∈ Shape.indices shape, e = r.target.landing + Shape.flat shape index ∧
      shift = natural - o.scale ∧
      ∀ u ∈ r.chain (elementLabel o index) (Shape.flat shape index) 0 zero (f index), u ∈ pre := by
  obtain ⟨before, index, after, us, vs, hi, hindex, rfl⟩ := Sequences.flatMap_split (h.steps ▸ hs)
  have hnot : s ∉ r.chain (elementLabel o index) (Shape.flat shape index) 0 zero (f index) := by
    intro hin
    obtain ⟨t, -, d, acc, ht⟩ := chain_terms hin
    rw [hr, Term.instruction] at ht
    split at ht <;> simp at ht
  obtain ⟨ws, rfl, hfinish⟩ := Sequences.split_right hindex hnot
  refine ⟨index, by simp [hi], ?_⟩
  have hmem : s ∈ r.target.finish (elementLabel o index) (Shape.flat shape index) := by
    simp [hfinish]
  rw [h.finish_eq] at hmem
  split at hmem
  · simp at hmem
  · rw [List.mem_singleton.1 hmem] at hr
    obtain ⟨-, rfl, rfl⟩ := Instruction.rescale.inj hr
    exact ⟨rfl, rfl, fun u hu => by simp [hu]⟩

theorem mac_term {s : Step} (hs : s ∈ ss) {dest acc p q : Int}
    (hm : s.instruction = .mac dest acc p q) :
    ∃ index ∈ Shape.indices shape, ⟨p, some q⟩ ∈ f index := by
  rw [h.steps] at hs
  obtain ⟨index, hi, hs⟩ := List.mem_flatMap.1 hs
  refine ⟨index, hi, ?_⟩
  rcases List.mem_append.1 hs with hs | hs
  · obtain ⟨⟨a, b⟩, ht, d, e, heq⟩ := chain_terms hs
    rw [hm, Term.instruction] at heq
    cases b with
    | none => simp at heq
    | some b =>
      obtain ⟨-, -, rfl, rfl⟩ := Instruction.mac.inj heq
      exact ht
  · rw [h.finish_eq] at hs
    split at hs
    · simp at hs
    · rw [List.mem_singleton.1 hs] at hm
      simp at hm

end Chained

end TensorAsm.Lowering
