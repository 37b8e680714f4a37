import TensorAsm.Proofs.Moves
/-!
Whole runs of publishing: files are staged one after another, then moved into place one after
another, until all are there or a call fails.
-/

namespace TensorAsm.Publish

open Sequences

variable {failures : Failures} {tree : FileTree} {ms : List Move} {t : Transaction}

/-- The files that wait have their texts under their numbers. -/
def Ready (t : Transaction) (f : String × Option String) (r : Nat × String) : Prop :=
  f.1 = r.2 ∧ ∃ text, f.2 = some text ∧ Ordered.get? r.1 t.disk.temporaries = some text

/-- Moves were made until that of a text to a path failed. -/
structure Halted (failures : Failures) (tree : FileTree) (n : Nat) (ms ns : List Move)
    (files : List (String × Option String)) (mid next : Transaction) (path text : String)
    (c : Call) (f : Fault) : Prop where
  trail : Trail tree (ms ++ ns) mid
  accounted : ∃ waiting, Accounted waiting mid
  broken : Broken failures tree mid path text c next
  files : ∃ left, files = ns.map (fun m => (m.path, some m.text)) ++ (path, some text) :: left
  stops : Stops failures tree n (ns.flatMap Move.calls ++ callsAt mid.disk.tree path text) c f

theorem Halted.cons {n : Nat} {m : Move} {ns : List Move} {files : List (String × Option String)}
    {mid next : Transaction} {path text : String} {c : Call} {f : Fault}
    (hclear : Clear failures n m.calls.length)
    (h : Halted failures tree (n + m.calls.length) (ms ++ [m]) ns files mid next path text c f) :
    Halted failures tree n ms (m :: ns) ((m.path, some m.text) :: files) mid next path text c
      f where
  trail := by
    rw [List.append_cons]
    exact h.trail
  accounted := h.accounted
  broken := h.broken
  files := by
    obtain ⟨left, rfl⟩ := h.files
    exact ⟨left, rfl⟩
  stops := by
    rw [List.flatMap_cons, List.append_assoc]
    exact .behind hclear h.stops

theorem installs_run (failures : Failures) (hr : tree.Rooted)
    {files : List (String × Option String)} {rest : List (Nat × String)} (h : Trail tree ms t)
    (ha : Accounted (rest.map Prod.fst) t) (hfiles : List.Forall₂ (Ready t) files rest)
    (hnodup : (ms.map (·.path) ++ files.map Prod.fst).Nodup) :
    ∃ result next ns, (rest.forM fun r => install failures r.1 r.2).run t = (result, next) ∧
      ((result = .ok () ∧ Trail tree (ms ++ ns) next ∧ Accounted [] next ∧
          files = ns.map (fun m => (m.path, some m.text)) ∧
            Clear failures t.calls (ns.flatMap Move.calls).length) ∨
        ∃ f mid path text c, result = .error f ∧
          Halted failures tree t.calls ms ns files mid next path text c f) := by
  induction rest generalizing files ms t with
  | nil =>
    cases hfiles
    refine ⟨.ok (), t, [], rfl, .inl ⟨rfl, ?_, ha, rfl, by simp [Clear]⟩⟩
    rwa [List.append_nil]
  | cons r rest ih =>
    cases hfiles with
    | @cons f _ files _ hready hrest =>
      obtain ⟨hpath, text, htext, hget⟩ := hready
      have hp : r.2 ∉ ms.map (·.path) := by
        rw [← hpath]
        exact fun hm => (List.nodup_append.1 hnodup).2.2 _ hm _ (by simp) rfl
      rw [List.forM]
      rcases install_step hr h ha hp hget with ⟨g, c, next, hrun, hstops, hbroken⟩ |
        ⟨m, mid, hrun, hm, hmt, hclear, hcalls, htrail, hacc, -, hkeep⟩
      · rw [run_bind_error hrun]
        refine ⟨_, next, [], rfl, .inr ⟨g, t, r.2, text, c, rfl, ?_, ⟨_, ha⟩, hbroken,
          ⟨files, ?_⟩, hstops⟩⟩
        · rwa [List.append_nil]
        · rw [← hpath, ← htext]
          rfl
      · have hf : f = (m.path, some m.text) := by rw [hm, hmt, ← hpath, ← htext]
        have hready : List.Forall₂ (Ready mid) files rest := by
          refine (Sequences.forall₂_congr_mem fun g _ q hq => ?_).1 hrest
          rw [Ready, Ready, hkeep q.1 (List.mem_map_of_mem hq)]
        have hnodup' : ((ms ++ [m]).map (·.path) ++ files.map Prod.fst).Nodup := by
          rw [hf] at hnodup
          simpa using hnodup
        obtain ⟨result, next, ns, hrest, hcases⟩ := ih htrail hacc hready hnodup'
        rw [run_bind_ok hrun, hf]
        rw [hcalls] at hcases
        refine ⟨result, next, m :: ns, hrest, hcases.imp ?_ ?_⟩
        · rintro ⟨rfl, htr, hacc, rfl, hclear'⟩
          refine ⟨rfl, ?_, hacc, rfl, ?_⟩
          · rwa [List.append_cons]
          · rw [List.flatMap_cons, List.length_append]
            exact hclear.append hclear'
        · rintro ⟨g, last, path, text, c, rfl, hhalted⟩
          exact ⟨g, last, path, text, c, rfl, hhalted.cons hclear⟩

/-- The files staged so far; the tree is as it was. -/
structure Staged (tree : FileTree) (files : List (String × Option String)) (t : Transaction) :
    Prop where
  trail : Trail tree [] t
  accounted : Accounted (t.staged.map Prod.fst) t
  ready : List.Forall₂ (Ready t) files t.staged

theorem Staged.opened {done : List (String × Option String)} (h : Staged tree done t)
    (path : String) (next : Transaction) (htree : next.disk.tree = t.disk.tree)
    (hmade : next.disk.made = t.disk.made + 1)
    (hstaged : next.staged = t.staged ++ [(t.disk.made, path)])
    (hbackups : next.backups = t.backups) (hpublished : next.published = t.published)
    (hkeys : ∀ k ∈ next.disk.temporaries.map Prod.fst,
      k ∈ t.disk.temporaries.map Prod.fst ∨ k = t.disk.made) :
    Trail tree [] next ∧ Accounted (next.staged.map Prod.fst) next := by
  have hnone : t.backups = [] := h.trail.backups
  have hwaiting : next.staged.map Prod.fst ++ next.backups.map Prod.snd =
      t.staged.map Prod.fst ++ [t.disk.made] := by rw [hstaged, hbackups, hnone]; simp
  have hless (k : Nat) (hk : k ∈ t.staged.map Prod.fst) : k < t.disk.made :=
    h.accounted.made k (List.mem_append_left _ hk)
  constructor
  · refine ⟨?_, ?_, ?_, ?_, by simp, by simp, by simp⟩
    · rw [htree, h.trail.nodes]
    · rw [htree, h.trail.here]
    · rw [hpublished, h.trail.published]
    · rw [hbackups, h.trail.backups]
  · constructor
    · rw [hwaiting, List.nodup_append]
      refine ⟨(List.nodup_append.1 h.accounted.nodup).1, List.nodup_singleton _, ?_⟩
      rintro j hj i hi rfl
      rw [List.mem_singleton.1 hi] at hj
      exact absurd (hless _ hj) (Nat.lt_irrefl _)
    · exact fun k hk => hk
    · intro k hk
      rw [hwaiting, List.mem_append, List.mem_singleton] at hk
      rw [hmade]
      rcases hk with hk | rfl
      · exact Nat.lt_succ_of_lt (hless k hk)
      · exact Nat.lt_succ_self _
    · intro k hk
      rw [hwaiting, List.mem_append, List.mem_singleton]
      rcases hkeys k hk with hk | rfl
      · have hknown := h.accounted.known k hk
        rw [hnone, List.map_nil, List.append_nil] at hknown
        exact .inl hknown
      · exact .inr rfl

theorem Staged.written {done : List (String × Option String)} (h : Staged tree done t)
    (path text : String) (n : Nat) : Staged tree (done ++ [(path, some text)]) { t with
      calls := n
      disk := ⟨t.disk.tree, added t.disk text, t.disk.made + 1⟩
      staged := t.staged ++ [(t.disk.made, path)] } := by
  obtain ⟨htrail, hacc⟩ := h.opened path { t with
    calls := n
    disk := ⟨t.disk.tree, added t.disk text, t.disk.made + 1⟩
    staged := t.staged ++ [(t.disk.made, path)] } rfl rfl rfl rfl rfl fun k hk => mem_added.1 hk
  refine ⟨htrail, hacc, List.rel_append ?_ (.cons ⟨rfl, text, rfl, ?_⟩ .nil)⟩
  · refine (Sequences.forall₂_congr_mem fun f _ r hr => ?_).1 h.ready
    have hless := h.accounted.less (List.mem_append_left _ (List.mem_map_of_mem hr))
    rw [Ready, Ready, get_added, if_neg (by omega)]
  · rw [get_added, if_pos rfl]

theorem stage_step (failures : Failures) {done : List (String × Option String)}
    (h : Staged tree done t) (file : String × Option String) :
    ∃ result next, (stage failures file.1 file.2).run t = (result, next) ∧
      Trail tree [] next ∧ Accounted (next.staged.map Prod.fst) next ∧
        ((result = .ok () ∧ Staged tree (done ++ [file]) next ∧
            Clear failures t.calls (staging file).length ∧
              next.calls = t.calls + (staging file).length) ∨
          ∃ f, result = .error f ∧ (file.2 = none ∨
            ∃ c, c.setsAside = false ∧ Stops failures tree t.calls (staging file) c f)) := by
  obtain ⟨path, text⟩ := file
  rw [stage, run_bind_ok run_get]
  -- what is no text is refused only after its file has been made
  have hfirst {f : Fault}
      (hstops : ∀ more, Stops failures tree t.calls (.create path :: more) (.create path) f) :
      text = none ∨ ∃ c, c.setsAside = false ∧
        Stops failures tree t.calls (staging (path, text)) c f := by
    cases text with
    | none => exact .inl rfl
    | some text => exact .inr ⟨_, rfl, hstops _⟩
  rcases hf : failures t.calls with _ | g
  case some =>
    rw [run_bind_error (call_failed hf)]
    exact ⟨_, _, rfl, h.trail.calls _, h.accounted.calls _,
      .inr ⟨_, rfl, hfirst fun _ => .failed hf⟩⟩
  rcases hc : t.disk.tree.checkBeside path with f | u
  case error =>
    rw [run_bind_error (call_error hf (by rw [Disk.create, hc]))]
    refine ⟨_, _, rfl, h.trail.calls _, h.accounted.calls _,
      .inr ⟨_, rfl, hfirst fun _ => .refused hf fun hok => ?_⟩⟩
    simp [h.trail.alike.checkBeside hok] at hc
  rw [run_bind_ok (create_run hf hc), run_bind_ok (run_modify _)]
  have hopen (calls : Nat) := h.opened path { t with
    calls := calls
    disk := opened t.disk
    staged := t.staged ++ [(t.disk.made, path)] } rfl rfl rfl rfl rfl (by simp [opened])
  cases text with
  | none => exact ⟨_, _, rfl, (hopen _).1, (hopen _).2, .inr ⟨_, rfl, .inl rfl⟩⟩
  | some text =>
    rcases hf₁ : failures (t.calls + 1) with _ | g
    case some =>
      refine ⟨_, _, call_failed hf₁, (hopen _).1, (hopen _).2,
        .inr ⟨_, rfl, .inr ⟨.write text, rfl, (Stops.failed hf₁).next hf⟩⟩⟩
    cases hw : Text.halves? Text.isHalfCode text with
    | some place =>
      refine ⟨_, _, call_error hf₁ (by rw [Disk.write, hw]), (hopen _).1, (hopen _).2,
        .inr ⟨_, rfl, .inr ⟨.write text, rfl, Stops.next hf (.refused hf₁ ?_)⟩⟩⟩
      simp [Call.Refused, hw]
    | none =>
      have hnext := h.written path text (t.calls + 2)
      exact ⟨_, _, call_ok hf₁ (by rw [Disk.write, hw]; rfl), hnext.trail, hnext.accounted,
        .inl ⟨rfl, hnext, (Clear.one hf).append (.one hf₁), rfl⟩⟩

theorem stages_run (failures : Failures) (files : List (String × Option String))
    {done : List (String × Option String)} (h : Staged tree done t) :
    ∃ result next, (files.forM fun f => stage failures f.1 f.2).run t = (result, next) ∧
      Trail tree [] next ∧ Accounted (next.staged.map Prod.fst) next ∧
        ((result = .ok () ∧ Staged tree (done ++ files) next ∧
            Clear failures t.calls (files.flatMap staging).length ∧
              next.calls = t.calls + (files.flatMap staging).length) ∨
          ∃ f, result = .error f ∧ ((∃ file ∈ files, file.2 = none) ∨
            ∃ c, c.setsAside = false ∧
              Stops failures tree t.calls (files.flatMap staging) c f)) := by
  induction files generalizing done t with
  | nil =>
    refine ⟨_, _, rfl, h.trail, h.accounted, .inl ⟨rfl, ?_, by simp [Clear], by simp⟩⟩
    rwa [List.append_nil]
  | cons file files ih =>
    rw [List.forM]
    obtain ⟨result, mid, hrun, htrail, hacc, ⟨rfl, hmid, hclear, hcalls⟩ | ⟨g, rfl, hstop⟩⟩ :=
      stage_step failures h file
    · rw [run_bind_ok hrun]
      obtain ⟨result, next, hrest, htrail, hacc, hcases⟩ := ih hmid
      rw [List.append_assoc, List.singleton_append, hcalls] at hcases
      refine ⟨result, next, hrest, htrail, hacc, hcases.imp ?_ ?_⟩
      · rintro ⟨rfl, hnext, hclear', hcalls'⟩
        rw [List.flatMap_cons, List.length_append]
        exact ⟨rfl, hnext, hclear.append hclear', by rw [hcalls', Nat.add_assoc]⟩
      · rintro ⟨f, rfl, ⟨other, ho, hnone⟩ | ⟨c, hc, hstop⟩⟩
        · exact ⟨f, rfl, .inl ⟨other, List.mem_cons_of_mem _ ho, hnone⟩⟩
        · exact ⟨f, rfl, .inr ⟨c, hc, .behind hclear hstop⟩⟩
    · rw [run_bind_error hrun]
      refine ⟨_, _, rfl, htrail, hacc, .inr ⟨g, rfl, hstop.imp ?_ ?_⟩⟩
      · exact fun hnone => ⟨file, List.mem_cons_self, hnone⟩
      · rintro ⟨c, hc, hstop⟩
        exact ⟨c, hc, hstop.before _⟩

theorem start_staged (tree : FileTree) : Staged tree [] (start tree) where
  trail := ⟨rfl, rfl, rfl, rfl, by simp, by simp, by simp⟩
  accounted := ⟨by simp [start], by simp [start], by simp [start], by simp [start]⟩
  ready := .nil

theorem commit_run (failures : Failures) (hr : tree.Rooted)
    (files : List (String × Option String)) (hn : (files.map Prod.fst).Nodup) :
    ∃ result next, (commit failures files).run (start tree) = (result, next) ∧
      ((result = .ok () ∧ ∃ ns, Trail tree ns next ∧ Accounted [] next ∧
          files = ns.map (fun m => (m.path, some m.text)) ∧
            Clear failures 0 (files.flatMap staging ++ ns.flatMap Move.calls).length) ∨
        (∃ f, result = .error f ∧ Trail tree [] next ∧
          Accounted (next.staged.map Prod.fst) next ∧ ((∃ file ∈ files, file.2 = none) ∨
            ∃ c, c.setsAside = false ∧ Stops failures tree 0 (files.flatMap staging) c f)) ∨
        ∃ f ns mid path text c, result = .error f ∧
          Clear failures 0 (files.flatMap staging).length ∧
            Halted failures tree (files.flatMap staging).length [] ns files mid next path text c
              f) := by
  obtain ⟨result, mid, hstage, htrail, hacc, ⟨rfl, hstaged, hclear, hcalls⟩ | ⟨f, rfl, hstop⟩⟩ :=
    stages_run failures files (start_staged tree)
  · rw [List.nil_append] at hstaged
    rw [start, Nat.zero_add] at hcalls
    obtain ⟨result, next, ns, hinstall, hcases⟩ := installs_run failures hr hstaged.trail
      hstaged.accounted hstaged.ready (by simpa using hn)
    rw [hcalls] at hcases
    refine ⟨result, next, ?_, ?_⟩
    · rw [commit]
      refine (run_bind_ok hstage).trans ?_
      rw [run_bind_ok run_get]
      exact hinstall
    · rcases hcases with ⟨rfl, hnext, hacc, hfiles, hclear'⟩ |
        ⟨f, last, path, text, c, rfl, hhalted⟩
      · refine .inl ⟨rfl, ns, hnext, hacc, hfiles, ?_⟩
        rw [List.length_append]
        refine Clear.append hclear ?_
        rwa [Nat.zero_add]
      · exact .inr (.inr ⟨f, ns, last, path, text, c, rfl, hclear, hhalted⟩)
  · exact ⟨_, mid, run_bind_error hstage, .inr (.inl ⟨f, rfl, htrail, hacc, hstop⟩)⟩

end TensorAsm.Publish
