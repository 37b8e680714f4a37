import TensorAsm.Proofs.Loading
import TensorAsm.Proofs.Sequences
/-!
The order of lowering. The traversal counts the producers that an operation waits for, and keeps the
ready operations in a queue. So it takes a ready operation again and again, always the one with the
smallest id, until none is ready.
-/

namespace TensorAsm.Circuit

namespace Traversal

variable {id : Int} {queue : List Int}

@[simp]
theorem mem_enqueue {x : Int} : x ∈ enqueue id queue ↔ x = id ∨ x ∈ queue := by
  induction queue with
  | nil => simp [enqueue]
  | cons y queue ih =>
    rw [enqueue]
    split
    · simp
    · rw [List.mem_cons, ih, List.mem_cons, or_left_comm]

theorem enqueue_sorted (h : queue.Pairwise (· < ·)) (hid : id ∉ queue) :
    (enqueue id queue).Pairwise (· < ·) := by
  induction queue with
  | nil => simp [enqueue]
  | cons y queue ih =>
    obtain ⟨hy, hq⟩ := List.pairwise_cons.1 h
    obtain ⟨hne, hid⟩ : id ≠ y ∧ id ∉ queue := by simpa using hid
    rw [enqueue]
    split
    · next hle =>
        have hlt : id < y := lt_of_le_of_ne hle hne
        refine List.pairwise_cons.2 ⟨fun x hx => ?_, h⟩
        rcases List.mem_cons.1 hx with rfl | hx
        · exact hlt
        · exact hlt.trans (hy x hx)
    · next hle =>
        refine List.pairwise_cons.2 ⟨fun x hx => ?_, ih hq hid⟩
        rcases mem_enqueue.1 hx with rfl | hx
        · exact not_le.1 hle
        · exact hy x hx

theorem mem_foldr_enqueue {ids : List Int} {x : Int} : x ∈ ids.foldr enqueue [] ↔ x ∈ ids := by
  induction ids with
  | nil => rfl
  | cons y ids ih => rw [List.foldr_cons, mem_enqueue, ih, List.mem_cons]

theorem foldr_enqueue_sorted {ids : List Int} (h : ids.Nodup) :
    (ids.foldr enqueue []).Pairwise (· < ·) := by
  induction ids with
  | nil => exact .nil
  | cons y ids ih =>
    obtain ⟨hy, h⟩ := List.nodup_cons.1 h
    exact enqueue_sorted (ih h) (mt mem_foldr_enqueue.1 hy)

/-- Of all that are released at once, those are ready then that wait for none any more. -/
theorem foldl_release {us : List Int} {t : Traversal} (hus : us.Nodup)
    (hs : t.ready.Pairwise (· < ·)) (hr : ∀ u ∈ us, u ∉ t.ready) :
    (us.foldl release t).indegree =
        t.indegree.map (fun e => (e.1, if e.1 ∈ us then e.2 - 1 else e.2)) ∧
      (us.foldl release t).ready.Pairwise (· < ·) ∧
      ∀ id, id ∈ (us.foldl release t).ready ↔
        id ∈ t.ready ∨ id ∈ us ∧ (id, 0) ∈ (us.foldl release t).indegree := by
  induction us generalizing t with
  | nil => simp [hs]
  | cons u us ih =>
    obtain ⟨hu, hus⟩ := List.nodup_cons.1 hus
    have hfirst : u ∉ t.ready := hr u (by simp)
    have hmem (id : Int) : id ∈ (t.release u).ready ↔
        id ∈ t.ready ∨ id = u ∧ (u, 0) ∈ (t.release u).indegree := by
      rw [release]
      split
      · next h => simp [h, or_comm]
      · next h => simp [h]
    have hsorted : (t.release u).ready.Pairwise (· < ·) := by
      rw [release]
      split
      · exact enqueue_sorted hs hfirst
      · exact hs
    obtain ⟨hcounts, hs', hready⟩ := ih (t := t.release u) hus hsorted (by
      intro v hv hm
      rcases (hmem v).1 hm with hm | ⟨rfl, -⟩
      · exact hr v (by simp [hv]) hm
      · exact hu hv)
    refine ⟨?_, hs', fun id => ?_⟩
    · rw [List.foldl_cons, hcounts, release, List.map_map]
      refine List.map_congr_left fun ⟨id, n⟩ _ => ?_
      by_cases he : id = u
      · simp [he, hu]
      · simp [he]
    · -- the count of one that is released is not touched by those released after it
      have hkept : (u, 0) ∈ (us.foldl release (t.release u)).indegree ↔
          (u, 0) ∈ (t.release u).indegree := by
        rw [hcounts, List.mem_map]
        constructor
        · rintro ⟨⟨id, n⟩, hm, he⟩
          obtain ⟨rfl, hn⟩ := Prod.mk.inj he
          rw [if_neg hu] at hn
          rwa [← hn]
        · exact fun hm => ⟨_, hm, by simp [hu]⟩
      rw [List.foldl_cons, hready, hmem, or_assoc, List.mem_cons, or_and_right]
      refine or_congr_right (or_congr_left (and_congr_right ?_))
      rintro rfl
      exact hkept.symm

theorem run_subset (ops : List Operation) (users : List (Int × List Int)) (n : Nat)
    (t : Traversal) : (run ops users n t).1 ⊆ ops := by
  induction n generalizing t with
  | zero => simp [run]
  | succ n ih =>
    rw [run]
    split
    · simp
    · exact List.append_subset.2
        ⟨fun o ho => List.mem_of_find?_eq_some (Option.mem_toList.1 ho), ih _⟩

end Traversal

namespace Graph

variable {g : Graph} {gone : List Int}

theorem dependencies_nodup (g : Graph) (o : Operation) : (g.dependencies o).Nodup :=
  Sequences.eraseDups_nodup _

theorem users_lookup (hids : (g.operations.map (·.id)).Nodup) {p : Operation}
    (hp : p ∈ g.operations) : g.users.lookup p.id =
      some ((g.operations.filter (p.id ∈ g.dependencies ·)).map (·.id)) := by
  obtain ⟨pre, post, hs⟩ := List.append_of_mem hp
  have hbefore : ∀ q ∈ pre, p.id ≠ q.id := by
    intro q hq he
    rw [hs, List.map_append, List.map_cons] at hids
    exact List.disjoint_of_nodup_append hids (List.mem_map_of_mem hq) (by simp [he])
  have husers (q : Operation) :
      ((g.operations.map fun o => (o.id, g.dependencies o)).filter (q.id ∈ ·.2)).map (·.1) =
        (g.operations.filter (q.id ∈ g.dependencies ·)).map (·.id) := by
    rw [List.filter_map, List.map_map]
    rfl
  simp only [users, husers]
  generalize (fun q : Operation => (g.operations.filter (q.id ∈ g.dependencies ·)).map (·.id)) = f
  rw [hs, List.lookup_eq_some_iff]
  exact ⟨_, _, List.map_append, by simpa using hbefore⟩

theorem mem_waiters (hids : (g.operations.map (·.id)).Nodup) {d : Int} {q : Operation}
    (hq : q ∈ g.operations) :
    q.id ∈ (g.operations.filter (d ∈ g.dependencies ·)).map (·.id) ↔ d ∈ g.dependencies q := by
  rw [List.mem_map]
  constructor
  · rintro ⟨r, hr, he⟩
    obtain ⟨hr, hd⟩ := List.mem_filter.1 hr
    rw [← List.inj_on_of_nodup_map hids hr hq he]
    exact of_decide_eq_true hd
  · exact fun hd => ⟨q, List.mem_filter.2 ⟨hq, decide_eq_true hd⟩, rfl⟩

theorem find_id (hids : (g.operations.map (·.id)).Nodup) {p : Operation} (hp : p ∈ g.operations) :
    g.operations.find? (·.id = p.id) = some p := by
  cases h : g.operations.find? (·.id = p.id) with
  | none => exact absurd (List.find?_eq_none.1 h p hp) (by simp)
  | some q =>
    have he : q.id = p.id := by simpa using List.find?_some h
    rw [List.inj_on_of_nodup_map hids (List.mem_of_find?_eq_some h) hp he]

/-- The producers that an operation waits for when some operations have been taken. -/
def waiting (g : Graph) (gone : List Int) (o : Operation) : List Int :=
  (g.dependencies o).filter (· ∉ gone)

theorem waiting_cons (g : Graph) (gone : List Int) (id : Int) (o : Operation) :
    g.waiting (id :: gone) o = (g.waiting gone o).filter (· ≠ id) := by
  rw [waiting, waiting, List.filter_filter]
  refine List.filter_congr fun w _ => ?_
  simp

theorem length_waiting_cons {id : Int} (hid : id ∉ gone) (o : Operation) :
    (g.waiting (id :: gone) o).length = if id ∈ g.dependencies o
      then (g.waiting gone o).length - 1 else (g.waiting gone o).length := by
  have hn : (g.waiting gone o).Nodup := (g.dependencies_nodup o).filter _
  have hmem : id ∈ g.waiting gone o ↔ id ∈ g.dependencies o := by simp [waiting, hid]
  have herase : (g.waiting gone o).erase id = (g.waiting gone o).filter (· ≠ id) := by
    rw [hn.erase_eq_filter]
    exact List.filter_congr fun w _ => by simp [bne, beq_eq_decide]
  rw [waiting_cons, ← herase, List.length_erase]
  simp [hmem]

theorem waiting_eq_nil {o : Operation} :
    g.waiting gone o = [] ↔ ∀ d ∈ g.dependencies o, d ∈ gone := by
  simp [waiting, List.filter_eq_nil_iff]

/-- The operations that have not been taken. -/
def left (g : Graph) (gone : List Int) : List Operation := g.operations.filter (·.id ∉ gone)

@[simp]
theorem mem_left {o : Operation} : o ∈ g.left gone ↔ o ∈ g.operations ∧ o.id ∉ gone := by
  simp [left]

theorem left_nil (g : Graph) : g.left [] = g.operations := by
  simp [left]

/-- The operation has not been taken, and all have that produce its inputs. -/
@[mk_iff ready_def]
structure Ready (g : Graph) (gone : List Int) (o : Operation) : Prop where
  left : o ∈ g.left gone
  fed : ∀ d ∈ g.dependencies o, d ∈ gone

/-- Ready operations are taken, always the one with the smallest id, until none is ready. -/
inductive Takes (g : Graph) : List Int → List Operation → List Int → Prop
  | stop {gone : List Int} (hnone : ∀ o, ¬g.Ready gone o) : Takes g gone [] gone
  | next {gone all : List Int} {o : Operation} {ops : List Operation} (hr : g.Ready gone o)
      (hle : ∀ p, g.Ready gone p → o.id ≤ p.id) (h : Takes g (o.id :: gone) ops all) :
      Takes g gone (o :: ops) all

theorem left_cons (hids : (g.operations.map (·.id)).Nodup) {o : Operation} (h : o ∈ g.left gone) :
    (o :: g.left (o.id :: gone)).Perm (g.left gone) := by
  have hnodup : (g.left gone).Nodup := (List.Nodup.of_map _ hids).filter _
  have hrest : (g.left (o.id :: gone)).Nodup := (List.Nodup.of_map _ hids).filter _
  refine (List.perm_ext_iff_of_nodup (List.nodup_cons.2 ⟨by simp, hrest⟩) hnodup).2 fun p => ?_
  obtain ⟨ho, hid⟩ := mem_left.1 h
  rw [List.mem_cons, mem_left, mem_left, List.mem_cons, not_or]
  constructor
  · rintro (rfl | ⟨hp, -, hgone⟩)
    exacts [⟨ho, hid⟩, ⟨hp, hgone⟩]
  · rintro ⟨hp, hgone⟩
    by_cases he : p.id = o.id
    · exact .inl (List.inj_on_of_nodup_map hids hp ho he)
    · exact .inr ⟨hp, he, hgone⟩

/-- When an operation has been taken, those are ready that were, and those that waited for it
alone. -/
theorem Ready.cons_iff (hids : (g.operations.map (·.id)).Nodup) {o q : Operation}
    (hr : g.Ready gone o) (hq : q ∈ g.operations)
    (hs : q.id ∈ gone → ∀ d ∈ g.dependencies q, d ∈ gone) :
    g.Ready (o.id :: gone) q ↔ q.id ≠ o.id ∧ g.Ready gone q ∨
      o.id ∈ g.dependencies q ∧ g.waiting (o.id :: gone) q = [] := by
  obtain ⟨ho, hid⟩ := mem_left.1 hr.left
  rw [waiting_eq_nil, ready_def, ready_def, mem_left, mem_left, List.mem_cons, not_or]
  constructor
  · rintro ⟨⟨-, hne, hgone⟩, hfed⟩
    by_cases hd : o.id ∈ g.dependencies q
    · exact .inr ⟨hd, hfed⟩
    · refine .inl ⟨hne, ⟨hq, hgone⟩, fun d hm => ?_⟩
      exact (List.mem_cons.1 (hfed d hm)).resolve_left fun he => hd (he ▸ hm)
  · rintro (⟨hne, ⟨-, hgone⟩, hfed⟩ | ⟨hd, hfed⟩)
    · exact ⟨⟨hq, hne, hgone⟩, fun d hm => List.mem_cons_of_mem _ (hfed d hm)⟩
    · refine ⟨⟨hq, fun he => ?_, fun hgone => hid (hs hgone _ hd)⟩, hfed⟩
      exact hid (hr.fed _ (List.inj_on_of_nodup_map hids hq ho he ▸ hd))

end Graph

/-- A traversal that has taken some operations, none of them too early. -/
structure Traversal.Reached (g : Graph) (gone : List Int) (t : Traversal) : Prop where
  counts : t.indegree = g.operations.map fun o => (o.id, (g.waiting gone o).length)
  sorted : t.ready.Pairwise (· < ·)
  ready : ∀ id, id ∈ t.ready ↔ ∃ o, g.Ready gone o ∧ o.id = id
  settled : ∀ o ∈ g.operations, o.id ∈ gone → ∀ d ∈ g.dependencies o, d ∈ gone

namespace Traversal.Reached

variable {g : Graph} {gone : List Int} {t : Traversal}

theorem start (hids : (g.operations.map (·.id)).Nodup) : Reached g [] g.start where
  counts := by simp [Graph.start, Graph.waiting]
  sorted := by
    refine foldr_enqueue_sorted (List.Nodup.sublist (List.filter_sublist.map _) ?_)
    rwa [List.map_map]
  ready := by
    intro id
    have hready (o : Operation) : g.Ready [] o ↔ o ∈ g.operations ∧ g.dependencies o = [] :=
      ⟨fun h => ⟨(Graph.mem_left.1 h.left).1,
        List.eq_nil_iff_forall_not_mem.2 (by simpa using h.fed)⟩,
        fun h => ⟨by simp [h.1], by simp [h.2]⟩⟩
    rw [Graph.start, mem_foldr_enqueue]
    simp [hready, and_assoc, and_comm (a := g.dependencies _ = [])]
  settled := by simp

/-- The operation at the head of the queue is taken, and those that wait for it are released. -/
theorem next (hids : (g.operations.map (·.id)).Nodup) (h : Reached g gone t) {o : Operation}
    (hr : g.Ready gone o) {rest : List Int} (ht : t.ready = o.id :: rest) :
    Reached g (o.id :: gone)
      (((g.users.lookup o.id).getD []).foldl release { t with ready := rest }) := by
  obtain ⟨ho, hid⟩ := Graph.mem_left.1 hr.left
  rw [Graph.users_lookup hids ho, Option.getD_some]
  have hnodup : ((g.operations.filter (o.id ∈ g.dependencies ·)).map (·.id)).Nodup :=
    hids.sublist (List.filter_sublist.map _)
  have huser {q : Operation} (hq : q ∈ g.operations) := Graph.mem_waiters hids (d := o.id) hq
  generalize (g.operations.filter (o.id ∈ g.dependencies ·)).map (·.id) = us at hnodup huser ⊢
  obtain ⟨hlt, hrest⟩ := List.pairwise_cons.1 (ht ▸ h.sorted)
  have hqueue (id : Int) : id ∈ rest ↔ id ≠ o.id ∧ ∃ q, g.Ready gone q ∧ q.id = id := by
    rw [← h.ready, ht, List.mem_cons]
    exact ⟨fun hm => ⟨(hlt id hm).ne', .inr hm⟩, fun hm => hm.2.resolve_left hm.1⟩
  -- a user of the operation was not ready, as it waited for it
  have hidle : ∀ u ∈ us, u ∉ rest := by
    intro u hu hm
    obtain ⟨-, q, hq, rfl⟩ := (hqueue u).1 hm
    exact hid (hq.fed _ ((huser (Graph.mem_left.1 hq.left).1).1 hu))
  obtain ⟨hcounts, hsorted, hready⟩ :=
    foldl_release (t := { t with ready := rest }) hnodup hrest hidle
  generalize us.foldl release { t with ready := rest } = t' at hcounts hsorted hready
  have hcounts' : t'.indegree =
      g.operations.map fun q => (q.id, (g.waiting (o.id :: gone) q).length) := by
    rw [hcounts, h.counts, List.map_map]
    refine List.map_congr_left fun q hq => ?_
    simp only [Function.comp_apply, huser hq, Graph.length_waiting_cons hid]
  refine ⟨hcounts', hsorted, fun id => ?_, fun q hq hm d hd => ?_⟩
  · have hnext {q : Operation} (hq : q ∈ g.operations) :=
      hr.cons_iff hids hq (h.settled q hq)
    rw [hready, hqueue, hcounts']
    constructor
    · rintro (⟨hne, q, hq, rfl⟩ | ⟨hu, hm⟩)
      · exact ⟨q, (hnext (Graph.mem_left.1 hq.left).1).2 (.inl ⟨hne, hq⟩), rfl⟩
      · obtain ⟨q, hq, he⟩ := List.mem_map.1 hm
        obtain ⟨rfl, hzero⟩ := Prod.mk.inj he
        exact ⟨q, (hnext hq).2 (.inr ⟨(huser hq).1 hu, List.length_eq_zero_iff.1 hzero⟩), rfl⟩
    · rintro ⟨q, hq, rfl⟩
      have hqo := (Graph.mem_left.1 hq.left).1
      rcases (hnext hqo).1 hq with ⟨hne, hq⟩ | ⟨hd, hw⟩
      · exact .inl ⟨hne, q, hq, rfl⟩
      · exact .inr ⟨(huser hqo).2 hd, List.mem_map.2 ⟨q, hqo, by rw [hw]; rfl⟩⟩
  · rcases List.mem_cons.1 hm with he | hgone
    · rw [List.inj_on_of_nodup_map hids hq ho he] at hd
      exact List.mem_cons_of_mem _ (hr.fed d hd)
    · exact List.mem_cons_of_mem _ (h.settled q hq hgone d hd)

/-- The traversal takes ready operations until none is ready. -/
theorem run (hids : (g.operations.map (·.id)).Nodup) {n : Nat} (h : Reached g gone t)
    (hn : (g.left gone).length ≤ n) :
    ∃ all, Reached g all (Traversal.run g.operations g.users n t).2 ∧
      g.Takes gone (Traversal.run g.operations g.users n t).1 all := by
  induction n generalizing gone t with
  | zero =>
    have hnil := List.length_eq_zero_iff.1 (Nat.le_zero.1 hn)
    exact ⟨gone, h, .stop fun o hr => List.not_mem_nil (hnil ▸ hr.left)⟩
  | succ n ih =>
    rw [Traversal.run]
    split
    · next ht =>
        exact ⟨gone, h, .stop fun o hr => by simpa [ht] using (h.ready o.id).2 ⟨o, hr, rfl⟩⟩
    · next id rest ht =>
        obtain ⟨o, hr, rfl⟩ := (h.ready id).1 (by simp [ht])
        have hlen := (Graph.left_cons hids hr.left).length_eq
        rw [List.length_cons] at hlen
        obtain ⟨all, hall, htakes⟩ := ih (h.next hids hr ht) (by omega)
        rw [Graph.find_id hids (Graph.mem_left.1 hr.left).1]
        refine ⟨all, hall, .next hr (fun p hp => ?_) htakes⟩
        have hmem := (h.ready p.id).2 ⟨p, hp, rfl⟩
        have hs := h.sorted
        rw [ht] at hmem hs
        rcases List.mem_cons.1 hmem with he | hmem
        · exact he.ge
        · exact ((List.pairwise_cons.1 hs).1 _ hmem).le

end Traversal.Reached

namespace Graph

namespace Takes

variable {g : Graph} {gone all : List Int} {ops : List Operation}

theorem stuck (h : g.Takes gone ops all) (o : Operation) : ¬g.Ready all o := by
  induction h with
  | stop hnone => exact hnone o
  | next _ _ _ ih => exact ih

theorem perm (hids : (g.operations.map (·.id)).Nodup) (h : g.Takes gone ops all) :
    (ops ++ g.left all).Perm (g.left gone) := by
  induction h with
  | stop => exact .refl _
  | next hr _ _ ih => exact (ih.cons _).trans (left_cons hids hr.left)

theorem perm_operations (hids : (g.operations.map (·.id)).Nodup) (h : g.Takes [] ops all) :
    (ops ++ g.left all).Perm g.operations := by
  simpa [left_nil] using h.perm hids

theorem behind (h : g.Takes gone ops all) {pre post : List Operation} {o : Operation}
    (hs : ops = pre ++ o :: post) {d : Int} (hd : d ∈ g.dependencies o) :
    d ∈ gone ∨ d ∈ pre.map (·.id) := by
  induction h generalizing pre with
  | stop => simp at hs
  | next hr _ _ ih =>
    cases pre with
    | nil =>
      obtain ⟨rfl, -⟩ := List.cons.inj hs
      exact .inl (hr.fed d hd)
    | cons p pre =>
      obtain ⟨rfl, htail⟩ := List.cons.inj hs
      rcases ih htail with hm | hm
      · rcases List.mem_cons.1 hm with rfl | hm
        exacts [.inr (by simp), .inl hm]
      · exact .inr (by simp [hm])

theorem unique (hids : (g.operations.map (·.id)).Nodup) {ops' : List Operation} {all' : List Int}
    (h : g.Takes gone ops all) (h' : g.Takes gone ops' all') : ops = ops' ∧ all = all' := by
  induction h generalizing ops' with
  | stop hnone =>
    cases h' with
    | stop => exact ⟨rfl, rfl⟩
    | next hr => exact absurd hr (hnone _)
  | next hr hle _ ih =>
    cases h' with
    | stop hnone => exact absurd hr (hnone _)
    | next hr' hle' h' =>
      obtain rfl := List.inj_on_of_nodup_map hids (mem_left.1 hr.left).1 (mem_left.1 hr'.left).1
        (le_antisymm (hle _ hr') (hle' _ hr))
      exact (ih h').imp_left (congrArg _)

end Takes

variable {g : Graph} {ops : List Operation}

/-- All is taken that can be, and what is left over is reported. -/
theorem order_takes (hids : (g.operations.map (·.id)).Nodup) :
    ∃ ops all, g.Takes [] ops all ∧ g.order = if g.left all = [] then .ok ops
      else .error (.cycle (((g.left all).map (·.id)).mergeSort fun a b => decide (a ≤ b))) := by
  obtain ⟨all, hall, htakes⟩ := (Traversal.Reached.start hids).run hids
    (n := g.operations.length) (by rw [left_nil])
  refine ⟨_, all, htakes, ?_⟩
  -- what is left over waits, and what is taken does not
  have hstuck : g.operations.filter (fun o => 0 < (g.waiting all o).length) = g.left all := by
    refine List.filter_congr fun o ho => decide_eq_decide.2 ?_
    rw [List.length_pos_iff, ne_eq, waiting_eq_nil]
    exact ⟨mt (hall.settled o ho), fun hid hfed => htakes.stuck o ⟨by simp [ho, hid], hfed⟩⟩
  have hlen := (htakes.perm_operations hids).length_eq
  rw [List.length_append] at hlen
  have hdone : (Traversal.run g.operations g.users g.operations.length g.start).1.length =
      g.operations.length ↔ g.left all = [] := by
    rw [← List.length_eq_zero_iff]
    omega
  simp only [order, hall.counts, List.filter_map, List.map_map, hdone]
  rw [← hstuck]
  rfl

theorem takes_of_order (hids : (g.operations.map (·.id)).Nodup) (h : g.order = .ok ops) :
    ∃ all, g.Takes [] ops all ∧ g.left all = [] := by
  obtain ⟨ops', all, htakes, ho⟩ := order_takes hids
  rw [ho] at h
  split at h
  · next hl => exact ⟨all, Except.ok.inj h ▸ htakes, hl⟩
  · exact absurd h (by simp)

theorem order_of_takes (hids : (g.operations.map (·.id)).Nodup) {all : List Int}
    (h : g.Takes [] ops all) (hl : g.left all = []) : g.order = .ok ops := by
  obtain ⟨ops', all', htakes, ho⟩ := order_takes hids
  obtain ⟨rfl, rfl⟩ := h.unique hids htakes
  rw [ho, if_pos hl]

theorem order_perm (hids : (g.operations.map (·.id)).Nodup) (h : g.order = .ok ops) :
    ops.Perm g.operations := by
  obtain ⟨all, htakes, hl⟩ := takes_of_order hids h
  simpa [hl] using htakes.perm_operations hids

/-- All operations of a graph, each behind those that produce its inputs. -/
structure Topological (g : Graph) (ops : List Operation) : Prop where
  perm : ops.Perm g.operations
  behind : ∀ pre o post, ops = pre ++ o :: post → ∀ p ∈ g.operations, p.output ∈ o.inputs → p ∈ pre

theorem order_topological (hg : g.WellFormed) (h : g.order = .ok ops) : g.Topological ops where
  perm := order_perm hg.ids h
  behind := by
    intro pre o post hs p hp hi
    obtain ⟨all, htakes, -⟩ := takes_of_order hg.ids h
    have hdep : p.id ∈ g.dependencies o := by
      rw [dependencies, List.mem_eraseDups, List.mem_filterMap]
      exact ⟨p.output, hi, by rw [hg.producer_eq hp]; rfl⟩
    obtain ⟨r, hr, he⟩ := List.mem_map.1 ((htakes.behind hs hdep).resolve_left (by simp))
    have hrm : r ∈ g.operations := (order_perm hg.ids h).mem_iff.1 (by rw [hs]; simp [hr])
    rwa [← hg.same_id hrm hp he]

theorem Topological.apart (hg : g.WellFormed) (h : g.Topological ops) {o : Operation}
    (ho : o ∈ ops) : o.output ∉ o.inputs := by
  intro hin
  obtain ⟨pre, post, hs⟩ := List.append_of_mem ho
  have hnodup : ops.Nodup := h.perm.nodup_iff.2 (List.Nodup.of_map _ hg.ids)
  have hbefore := h.behind pre o post hs o (h.perm.mem_iff.1 ho) hin
  rw [hs] at hnodup
  exact (List.nodup_append.1 hnodup).2.2 o hbefore o (by simp) rfl

end Graph

end TensorAsm.Circuit
