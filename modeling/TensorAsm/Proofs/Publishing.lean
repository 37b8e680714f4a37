import TensorAsm.Proofs.Transactions
/-!
Publishing is all or nothing. What was moved is taken back and what was kept is restored, so a fault
leaves every place as it was; and unless a call is made to fail, temporary files never stay.
-/

namespace TensorAsm.Publish

open Sequences

variable {failures : Failures} {tree : FileTree} {ms : List Move} {t : Transaction}

theorem change_ok {act : Disk → Except Fault Disk} {d e : Disk} (h : act d = .ok e) :
    (change act).run d = (.ok (), e) := by
  rw [change, run_bind_ok run_get, h]
  rfl

def remaining (ks : List Nat) (files : List (Nat × String)) : List (Nat × String) :=
  files.filter fun p => p.1 ∉ ks

theorem remaining_nil (files : List (Nat × String)) : remaining [] files = files := by
  simp [remaining]

theorem remaining_cons (k : Nat) (ks : List Nat) (d : Disk) :
    remaining (k :: ks) d.temporaries = remaining ks (d.discard k).temporaries := by
  rw [remaining, remaining, Disk.discard, List.filter_filter]
  refine List.filter_congr fun p _ => ?_
  rw [Bool.eq_iff_iff]
  simp [and_comm]

theorem remaining_eq_nil {ks : List Nat} {files : List (Nat × String)}
    (h : ∀ k ∈ files.map Prod.fst, k ∈ ks) : remaining ks files = [] := by
  rw [remaining, List.filter_eq_nil_iff]
  intro p hp
  simpa using h p.1 (List.mem_map_of_mem hp)

theorem removes_run {d : Disk} (ha : FileTree.Alike tree d.tree) (hl : ∀ m ∈ ms, Leads tree m)
    (hfile : ∀ m ∈ ms, ∃ text, d.tree.node? m.place = some (.file text))
    (hn : (ms.map (·.place)).Nodup) :
    ∃ left, ((ms.map (·.path)).forM fun path => change (Disk.remove path)).run d =
        (.ok (), { d with tree := left }) ∧ FileTree.Alike tree left ∧
      ∀ x, left.node? x = if x ∈ ms.map (·.place) then none else d.tree.node? x := by
  induction ms generalizing d with
  | nil => exact ⟨d.tree, rfl, ha, by simp⟩
  | cons m ms ih =>
    rw [List.map_cons, List.nodup_cons] at hn
    obtain ⟨text, hm⟩ := hfile m (by simp)
    have hne : m.place ≠ [] := FileTree.ne_nil_of_not_directory (t := d.tree) (by simp [hm])
    have hlead := hl m (by simp)
    have htake := FileTree.take_eq_ok (ha.resolve hlead.resolves) hm hlead.bare
    have hrun : (change (Disk.remove m.path)).run d =
        (.ok (), { d with tree := d.tree.erase m.place }) :=
      change_ok (by rw [Disk.remove, htake])
    have hnext : FileTree.Alike d.tree (d.tree.erase m.place) :=
      FileTree.alike_update rfl (n := none) (by simp) (by simp [hm]) (FileTree.node_erase hne)
    have hother : ∀ n ∈ ms, n.place ≠ m.place :=
      fun n hnm he => hn.1 (he ▸ List.mem_map_of_mem hnm)
    obtain ⟨left, hrest, halike, hleft⟩ := ih (d := { d with tree := d.tree.erase m.place })
      (ha.trans hnext) (fun n hnm => hl n (by simp [hnm]))
      (fun n hnm => by
        rw [FileTree.node_erase hne, Function.update_of_ne (hother n hnm)]
        exact hfile n (by simp [hnm])) hn.2
    refine ⟨left, ?_, halike, ?_⟩
    · rw [List.map_cons, List.forM, run_bind_ok hrun]
      exact hrest
    · intro x
      rw [hleft, FileTree.node_erase hne]
      by_cases hx : x = m.place
      · simp [hx]
      · simp [hx]

theorem restore_step {d : Disk} (ha : FileTree.Alike tree d.tree) {m : Move} (hl : Leads tree m)
    (hfree : d.tree.node? m.place = none) {b : Nat × String}
    (hkept : Ordered.get? b.1 d.temporaries = some b.2) :
    ∃ left, (change (Disk.settle b.1 m.path)).run d =
        (.ok (), { d with tree := left }.discard b.1) ∧ FileTree.Alike tree left ∧
        left.node? = Function.update d.tree.node? m.place (some (.file b.2)) := by
  have hne : m.place ≠ [] := FileTree.ne_nil_of_not_directory (t := d.tree) (by simp [hfree])
  have hmove : d.tree.moveTo m.path b.2 = .ok (d.tree.put m.place (.file b.2)) :=
    FileTree.moveTo_eq_ok.2
      ⟨m.place, ha.resolve hl.resolves, hl.named, hl.bare, by simp [hfree], rfl⟩
  have hput := FileTree.node_put (t := d.tree) hne (.file b.2)
  have hnext : FileTree.Alike d.tree (d.tree.put m.place (.file b.2)) :=
    FileTree.alike_update rfl (by simp) (by simp [hfree]) hput
  exact ⟨_, change_ok (settle_eq_ok hkept hmove), ha.trans hnext, hput⟩

theorem restores_run {d : Disk} (ha : FileTree.Alike tree d.tree) (hl : ∀ m ∈ ms, Leads tree m)
    (hfree : ∀ m ∈ ms, d.tree.node? m.place = none)
    (hkept : ∀ m ∈ ms, ∀ b, m.backup = some b → Ordered.get? b.1 d.temporaries = some b.2)
    (hn : (ms.map (·.place)).Nodup) (hb : ((backupsOf ms).map Prod.snd).Nodup) :
    ∃ e, ((backupsOf ms).forM fun b => change (Disk.settle b.2 b.1)).run d = (.ok (), e) ∧
      FileTree.Alike tree e.tree ∧ (∀ x ∉ ms.map (·.place), e.tree.node? x = d.tree.node? x) ∧
      (∀ m ∈ ms, e.tree.node? m.place = m.backup.map fun b => .file b.2) ∧
      e.temporaries = remaining ((backupsOf ms).map Prod.snd) d.temporaries := by
  induction ms generalizing d with
  | nil => exact ⟨d, rfl, ha, by simp, by simp, (remaining_nil _).symm⟩
  | cons m ms ih =>
    rw [List.map_cons, List.nodup_cons] at hn
    have hother : ∀ n ∈ ms, n.place ≠ m.place :=
      fun n hnm he => hn.1 (he ▸ List.mem_map_of_mem hnm)
    have hm := hfree m (by simp)
    cases hback : m.backup with
    | none =>
      have hcons : backupsOf (m :: ms) = backupsOf ms :=
        List.filterMap_cons_none (by rw [hback]; rfl)
      rw [hcons] at hb ⊢
      obtain ⟨e, hrun, halike, hsame, hrestored, hleft⟩ := ih ha
        (fun n hnm => hl n (by simp [hnm])) (fun n hnm => hfree n (by simp [hnm]))
        (fun n hnm => hkept n (by simp [hnm])) hn.2 hb
      refine ⟨e, hrun, halike, ?_, ?_, hleft⟩
      · intro x hx
        rw [List.map_cons, List.mem_cons, not_or] at hx
        exact hsame x hx.2
      · rw [List.forall_mem_cons, hback]
        exact ⟨(hsame _ hn.1).trans hm, hrestored⟩
    | some b =>
      have hcons : backupsOf (m :: ms) = (m.path, b.1) :: backupsOf ms :=
        List.filterMap_cons_some (by rw [hback]; rfl)
      rw [hcons, List.map_cons, List.nodup_cons] at hb
      obtain ⟨left, hrun, hnext, hput⟩ :=
        restore_step ha (hl m (by simp)) hm (hkept m (by simp) b hback)
      obtain ⟨e, hrest, halike, hsame, hrestored, hleft⟩ := ih
        (d := { d with tree := left }.discard b.1) hnext
        (fun n hnm => hl n (by simp [hnm]))
        (fun n hnm => by
          refine (congrFun hput n.place).trans ?_
          rw [Function.update_of_ne (hother n hnm)]
          exact hfree n (by simp [hnm]))
        (fun n hnm c hc => by
          rw [get_discard, if_neg, hkept n (by simp [hnm]) c hc]
          rw [beq_iff_eq]
          exact fun he => hb.1 (he ▸ mem_backupsOf hnm hc)) hn.2 hb.2
      refine ⟨e, ?_, halike, ?_, ?_, ?_⟩
      · rw [hcons, List.forM, run_bind_ok hrun]
        exact hrest
      · intro x hx
        rw [List.map_cons, List.mem_cons, not_or] at hx
        refine (hsame x hx.2).trans ((congrFun hput x).trans ?_)
        rw [Function.update_of_ne hx.1]
      · rw [List.forall_mem_cons, hback]
        refine ⟨(hsame _ hn.1).trans ((congrFun hput _).trans ?_), hrestored⟩
        rw [Function.update_self, Option.map_some]
      · rw [hleft, hcons, List.map_cons]
        exact (remaining_cons b.1 _ { d with tree := left }).symm

theorem discards_run (staged : List (Nat × String)) (d : Disk) :
    ∃ e, ((staged.forM fun r => modify (Disk.discard r.1)) : Undoing Unit).run d = (.ok (), e) ∧
      e.tree = d.tree ∧ e.temporaries = remaining (staged.map Prod.fst) d.temporaries := by
  induction staged generalizing d with
  | nil => exact ⟨d, rfl, rfl, (remaining_nil _).symm⟩
  | cons r staged ih =>
    obtain ⟨e, hrun, htree, hleft⟩ := ih (d.discard r.1)
    refine ⟨e, ?_, htree, ?_⟩
    · rw [List.forM, run_bind_ok (run_modify _)]
      exact hrun
    · rw [List.map_cons, remaining_cons, hleft]

/-- What was moved to different places and what was only set aside: enough is known of it to get
back to the tree at the start. -/
structure Reversible (tree : FileTree) (ms aside : List Move) (t : Transaction) : Prop where
  alike : FileTree.Alike tree t.disk.tree
  published : t.published = ms.map (·.path)
  backups : t.backups = backupsOf (ms ++ aside)
  numbers : (t.backups.map Prod.snd).Nodup
  apart : ((ms ++ aside).map (·.place)).Nodup
  leads : ∀ m ∈ ms ++ aside, Leads tree m
  kept : ∀ m ∈ ms ++ aside, ∀ b, m.backup = some b →
    Ordered.get? b.1 t.disk.temporaries = some b.2
  old : ∀ m ∈ ms ++ aside, tree.node? m.place = m.backup.map fun b => .file b.2
  filled : ∀ m ∈ ms, ∃ text, t.disk.tree.node? m.place = some (.file text)
  cleared : ∀ m ∈ aside, t.disk.tree.node? m.place = none
  others : ∀ x ∉ (ms ++ aside).map (·.place), t.disk.tree.node? x = tree.node? x

/-- Taking back leads to the tree at the start. Of the temporary files those stay that nothing is
known of. -/
theorem Reversible.undo_run {aside : List Move} (h : Reversible tree ms aside t) :
    ∃ e, (undo t).run t.disk = (.ok (), e) ∧ e.tree.node? = tree.node? ∧
      e.tree.here = tree.here ∧ e.temporaries = remaining (t.staged.map Prod.fst)
        (remaining (t.backups.map Prod.snd) t.disk.temporaries) := by
  have hplaces : ∀ m ∈ ms, m.place ∈ ms.map (·.place) := fun m hm => List.mem_map_of_mem hm
  have hapart := h.apart
  rw [List.map_append, List.nodup_append] at hapart
  obtain ⟨left, hremove, halike, hleft⟩ := removes_run h.alike
    (fun m hm => h.leads m (List.mem_append_left _ hm)) h.filled hapart.1
  have hfree : ∀ m ∈ ms ++ aside, left.node? m.place = none := by
    intro m hm
    rw [hleft]
    rcases List.mem_append.1 hm with hm | hm
    · rw [if_pos (hplaces m hm)]
    · rw [if_neg fun hx => hapart.2.2 _ hx _ (List.mem_map_of_mem hm) rfl, h.cleared m hm]
  obtain ⟨e, hrestore, halike', hsame, hrestored, hkeys⟩ := restores_run
    (d := { t.disk with tree := left }) halike h.leads hfree h.kept h.apart
    (h.backups ▸ h.numbers)
  obtain ⟨last, hdiscard, htree, hlast⟩ := discards_run t.staged e
  refine ⟨last, ?_, ?_, ?_, ?_⟩
  · rw [undo, h.published, h.backups, run_bind_ok hremove]
    exact (run_bind_ok hrestore).trans hdiscard
  · funext x
    rw [htree]
    by_cases hx : x ∈ (ms ++ aside).map (·.place)
    · obtain ⟨m, hm, rfl⟩ := List.mem_map.1 hx
      rw [hrestored m hm, h.old m hm]
    · have hms : x ∉ ms.map (·.place) := by
        rw [List.map_append, List.mem_append, not_or] at hx
        exact hx.1
      refine (hsame x hx).trans ((hleft x).trans ?_)
      rw [if_neg hms, h.others x hx]
  · rw [htree]
    exact halike'.here.symm
  · rw [hlast, hkeys, h.backups]

theorem Trail.reversible (h : Trail tree ms t) (hb : (t.backups.map Prod.snd).Nodup)
    (hn : (ms.map (·.place)).Nodup) : Reversible tree ms [] t := by
  constructor
  case alike => exact h.alike
  case published => exact h.published
  case numbers => exact hb
  case filled =>
    intro m hm
    rw [h.nodes]
    exact moved_of_mem _ (List.mem_map_of_mem hm)
  case cleared => simp
  case others =>
    intro x hx
    rw [List.append_nil] at hx
    rw [h.nodes, moved_of_notMem hx]
  all_goals rw [List.append_nil]
  · exact h.backups
  · exact hn
  · exact h.leads
  · exact h.kept
  · exact h.old hn

theorem Accounted.numbers {waiting : List Nat} (h : Accounted waiting t) :
    (t.backups.map Prod.snd).Nodup := (List.nodup_append.1 h.nodup).2.1

theorem Accounted.remaining_eq {waiting : List Nat} (h : Accounted waiting t) :
    remaining (t.staged.map Prod.fst) (remaining (t.backups.map Prod.snd) t.disk.temporaries) =
      [] := by
  apply remaining_eq_nil
  intro k hk
  obtain ⟨p, hp, rfl⟩ := List.mem_map.1 hk
  obtain ⟨hp, hnot⟩ := List.mem_filter.1 hp
  rcases List.mem_append.1 (h.known p.1 (List.mem_map_of_mem hp)) with hk | hk
  · exact h.staged hk
  · exact absurd hk (by simpa using hnot)

theorem publishWith_ok {files : List (String × Option String)} {next : Transaction}
    (h : (commit failures files).run (start tree) = (.ok (), next)) :
    publishWith failures tree files =
      ⟨.ok (), next.backups.foldl (fun d b => d.discard b.2) next.disk, next.log⟩ := by
  rw [publishWith, h]

theorem publishWith_error {files : List (String × Option String)} {next : Transaction} {f : Fault}
    {e : Disk} (h : (commit failures files).run (start tree) = (.error f, next))
    (hu : (undo next).run next.disk = (.ok (), e)) :
    publishWith failures tree files = ⟨.error f, e, next.log ++ [rolledBackEntry next]⟩ := by
  rw [publishWith, h]
  simp only [hu]

theorem discards_fold (backups : List (String × Nat)) (d : Disk) :
    (backups.foldl (fun d b => d.discard b.2) d).tree = d.tree ∧
      (backups.foldl (fun d b => d.discard b.2) d).temporaries =
        remaining (backups.map Prod.snd) d.temporaries := by
  induction backups generalizing d with
  | nil => exact ⟨rfl, (remaining_nil _).symm⟩
  | cons b backups ih =>
    obtain ⟨htree, hleft⟩ := ih (d.discard b.2)
    refine ⟨htree, ?_⟩
    rw [List.foldl_cons, hleft, List.map_cons, remaining_cons]

theorem publishWith_done {files : List (String × Option String)} {next : Transaction}
    (h : (commit failures files).run (start tree) = (.ok (), next)) (htrail : Trail tree ms next)
    (hacc : Accounted [] next) :
    (publishWith failures tree files).result = .ok () ∧
      (publishWith failures tree files).disk.tree.node? = moved tree.node? ms ∧
      (publishWith failures tree files).disk.tree.here = tree.here ∧
      (publishWith failures tree files).disk.temporaries = [] := by
  rw [publishWith_ok h]
  obtain ⟨htree, hleft⟩ := discards_fold next.backups next.disk
  refine ⟨rfl, ?_, ?_, ?_⟩
  · rw [htree, htrail.nodes]
  · rw [htree, htrail.here]
  · rw [hleft]
    exact remaining_eq_nil hacc.known

theorem publishWith_undone {files : List (String × Option String)} {next : Transaction} {f : Fault}
    {aside : List Move} (h : (commit failures files).run (start tree) = (.error f, next))
    (hback : Reversible tree ms aside next) :
    (publishWith failures tree files).result = .error f ∧
      (publishWith failures tree files).disk.tree.node? = tree.node? ∧
      (publishWith failures tree files).disk.tree.here = tree.here ∧
      (publishWith failures tree files).disk.temporaries = remaining (next.staged.map Prod.fst)
        (remaining (next.backups.map Prod.snd) next.disk.temporaries) := by
  obtain ⟨e, hundo, hnodes, hhere, htemps⟩ := hback.undo_run
  rw [publishWith_error h hundo]
  exact ⟨rfl, hnodes, hhere, htemps⟩

theorem publishWith_restored {files : List (String × Option String)} {next : Transaction}
    {f : Fault} {waiting : List Nat}
    (h : (commit failures files).run (start tree) = (.error f, next)) (htrail : Trail tree ms next)
    (hacc : Accounted waiting next) (hn : (ms.map (·.place)).Nodup) :
    (publishWith failures tree files).result = .error f ∧
      (publishWith failures tree files).disk.tree.node? = tree.node? ∧
      (publishWith failures tree files).disk.tree.here = tree.here ∧
      (publishWith failures tree files).disk.temporaries = [] := by
  rw [← hacc.remaining_eq]
  exact publishWith_undone h (htrail.reversible hacc.numbers hn)

theorem Broken.noFailures {path text : String} {c : Call} {next : Transaction}
    (h : Broken noFailures tree t path text c next) : ∃ n, next = { t with calls := n } := by
  cases h with
  | untouched hc n => exact ⟨n, rfl⟩
  | reserved hf => cases hf
  | aside hf => cases hf

theorem places_nodup (hl : ∀ m ∈ ms, Leads tree m)
    (hd : ms.Pairwise fun m n => ∀ x, tree.resolve m.path = .ok x → tree.resolve n.path ≠ .ok x) :
    (ms.map (·.place)).Nodup := by
  refine List.pairwise_map.2 (hd.imp_of_mem ?_)
  intro m n hm hn hapart he
  exact hapart m.place (hl m hm).resolves (he ▸ (hl n hn).resolves)

end TensorAsm.Publish
