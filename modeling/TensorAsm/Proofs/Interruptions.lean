import TensorAsm.Proofs.Publishing
/-!
Publishing when calls fail, whichever they are. The tree is as it was, and nothing else stays, but
for one call: when a file cannot be set aside, the empty file reserved for it is left behind.
-/

namespace TensorAsm.Publish

variable {failures : Failures} {tree : FileTree} {ms : List Move} {t : Transaction}

/-- All calls of a run, in their order. -/
def schedule (tree : FileTree) (files : List (String × String)) : List Call :=
  (files.flatMap fun f => staging (f.1, some f.2)) ++ files.flatMap fun f => callsAt tree f.1 f.2

theorem remaining_append (ks : List Nat) (files more : List (Nat × String)) :
    remaining ks (files ++ more) = remaining ks files ++ remaining ks more := List.filter_append ..

theorem remaining_of_notMem {ks : List Nat} {k : Nat} (h : k ∉ ks) (text : String) :
    remaining ks [(k, text)] = [(k, text)] := by
  simp [remaining, h]

theorem Trail.opened (h : Trail tree ms t) (n : Nat) :
    Trail tree ms { t with calls := n, disk := opened t.disk } where
  nodes := h.nodes
  here := h.here
  published := h.published
  backups := h.backups
  leads := h.leads
  kept := by
    intro m hm b hb
    have hget : t.disk.temporaries.lookup b.1 = some b.2 := h.kept m hm b hb
    rw [Ordered.get?, Publish.opened, List.lookup_append, hget, Option.some_or]
  old := h.old

theorem Accounted.remaining_opened {waiting : List Nat} (h : Accounted waiting t) :
    remaining (t.staged.map Prod.fst)
      (remaining (t.backups.map Prod.snd) (opened t.disk).temporaries) = [(t.disk.made, "")] := by
  have hnew : t.disk.made ∉ t.staged.map Prod.fst ++ t.backups.map Prod.snd :=
    fun hk => absurd (h.made _ hk) (Nat.lt_irrefl _)
  rw [List.mem_append, not_or] at hnew
  rw [opened, remaining_append, remaining_append, h.remaining_eq, remaining_of_notMem hnew.2,
    remaining_of_notMem hnew.1, List.nil_append]

theorem Trail.keptAside (h : Trail tree ms t) {waiting : List Nat} (ha : Accounted waiting t)
    {path text old : String} {x : Place}
    (hlead : Leads tree ⟨path, x, text, some (t.disk.made, old)⟩)
    (hold : t.disk.tree.node? x = some (.file old)) (hn : (ms.map (·.place)).Nodup)
    (hx : x ∉ ms.map (·.place)) (n : Nat) :
    Reversible tree ms [⟨path, x, text, some (t.disk.made, old)⟩]
      { keptAside t path old x with calls := n } := by
  have hne : x ≠ [] := FileTree.ne_nil_of_not_directory (t := t.disk.tree) (by simp [hold])
  have hother : ∀ m ∈ ms, m.place ≠ x := fun m hm he => hx (he ▸ List.mem_map_of_mem hm)
  have herase (y : Place) (hy : y ≠ x) : (t.disk.tree.erase x).node? y = t.disk.tree.node? y := by
    rw [FileTree.node_erase hne, Function.update_of_ne hy]
  constructor
  case alike =>
    exact h.alike.trans (FileTree.alike_update rfl (n := none) (by simp) (by simp [hold])
      (FileTree.node_erase hne))
  case published => exact h.published
  case backups =>
    rw [backupsOf_snoc, ← h.backups]
    rfl
  case numbers => exact (ha.keptAside path old x).numbers
  case apart =>
    rw [List.map_append, List.nodup_append]
    refine ⟨hn, List.nodup_singleton _, ?_⟩
    rintro y hy z hz rfl
    obtain rfl : y = x := List.mem_singleton.1 hz
    exact hx hy
  case leads => exact List.forall_mem_append.2 ⟨h.leads, by simpa using hlead⟩
  case kept =>
    refine List.forall_mem_append.2 ⟨fun m hm b hb => ?_, ?_⟩
    · have hless : b.1 < t.disk.made := ha.less (List.mem_append_right _ (by
        rw [h.backups]
        exact mem_backupsOf hm hb))
      refine get_added.trans ?_
      rw [if_neg (by omega), h.kept m hm b hb]
    · simp only [List.mem_singleton, forall_eq, Option.some.injEq]
      rintro b rfl
      exact get_added.trans (if_pos rfl)
  case old =>
    refine List.forall_mem_append.2 ⟨h.old hn, ?_⟩
    simp only [List.mem_singleton, forall_eq, Option.map_some]
    rw [← hold, h.nodes, moved_of_notMem hx]
  case filled =>
    intro m hm
    obtain ⟨new, hnew⟩ := moved_of_mem tree.node? (List.mem_map_of_mem hm)
    exact ⟨new, (herase _ (hother m hm)).trans ((congrFun h.nodes _).trans hnew)⟩
  case cleared =>
    simp only [List.mem_singleton, forall_eq]
    exact (congrFun (FileTree.node_erase hne) x).trans (Function.update_self ..)
  case others =>
    intro y hy
    rw [List.map_append, List.mem_append, not_or, List.map_singleton, List.mem_singleton] at hy
    refine (herase y hy.2).trans ?_
    rw [h.nodes, moved_of_notMem hy.1]

/-- Whatever a failed move has left behind, the tree can be had back; only a file reserved in vain
stays. -/
theorem Broken.reversible (h : Trail tree ms t) {waiting : List Nat} (ha : Accounted waiting t)
    (hn : (ms.map (·.place)).Nodup) {path text : String}
    (hfresh : ∀ x, tree.resolve path = .ok x → x ∉ ms.map (·.place)) {c : Call}
    {next : Transaction} (hb : Broken failures tree t path text c next) :
    ∃ aside, Reversible tree ms aside next ∧
      (remaining (next.staged.map Prod.fst)
        (remaining (next.backups.map Prod.snd) next.disk.temporaries)).map Prod.snd =
          if c.setsAside then [""] else [] := by
  cases hb with
  | untouched hc n =>
    refine ⟨[], (h.calls n).reversible ha.numbers hn, ?_⟩
    rw [(ha.calls n).remaining_eq, hc]
    rfl
  | reserved hf n =>
    refine ⟨[], (h.opened n).reversible ha.numbers hn, ?_⟩
    rw [ha.remaining_opened]
    rfl
  | @aside i g hf old x hlead hold n =>
    refine ⟨_, h.keptAside ha hlead hold hn (hfresh x hlead.resolves) n, ?_⟩
    rw [((ha.keptAside path old x).calls n).remaining_eq]
    rfl

theorem Trail.isFile (h : Trail tree ms t) {path : String}
    (hfresh : ∀ x, tree.resolve path = .ok x → x ∉ ms.map (·.place)) :
    t.disk.tree.isFile path = tree.isFile path := by
  have hsame {x : Place} (hx : tree.resolve path = .ok x) :
      t.disk.tree.node? x = tree.node? x := by rw [h.nodes, moved_of_notMem (hfresh x hx)]
  rw [Bool.eq_iff_iff, FileTree.isFile_iff, FileTree.isFile_iff]
  constructor
  · rintro ⟨x, text, hx, hn, hbare⟩
    have hx := h.alike.symm.resolve hx
    exact ⟨x, text, hx, (hsame hx).symm.trans hn, hbare⟩
  · rintro ⟨x, text, hx, hn, hbare⟩
    exact ⟨x, text, h.alike.resolve hx, (hsame hx).trans hn, hbare⟩

theorem Move.calls_eq {m : Move} (hl : Leads tree m)
    (hold : tree.node? m.place = m.backup.map fun b => .file b.2) :
    m.calls = callsAt tree m.path m.text := by
  have hfile : tree.isFile m.path = m.backup.isSome := by
    rw [Bool.eq_iff_iff, FileTree.isFile_iff]
    constructor
    · rintro ⟨x, text, hx, hn, -⟩
      obtain rfl : m.place = x := Except.ok.inj (hl.resolves.symm.trans hx)
      rw [hold, Option.map_eq_some_iff] at hn
      obtain ⟨b, hb, -⟩ := hn
      rw [hb, Option.isSome_some]
    · intro hb
      obtain ⟨b, hb⟩ := Option.isSome_iff_exists.1 hb
      exact ⟨m.place, b.2, hl.resolves, by rw [hold, hb, Option.map_some], hl.bare⟩
  rw [Move.calls, callsAt, hfile]

theorem Trail.calls_eq (h : Trail tree ms t) (hn : (ms.map (·.place)).Nodup) :
    ms.flatMap Move.calls =
      (ms.map fun m => (m.path, m.text)).flatMap fun f => callsAt tree f.1 f.2 := by
  rw [List.flatMap_map]
  exact List.flatMap_congr fun m hm => Move.calls_eq (h.leads m hm) (h.old hn m hm)

theorem moved_self (nodes : Place → Option FileNode) (hn : (ms.map (·.place)).Nodup) {m : Move}
    (hm : m ∈ ms) : moved nodes ms m.place = some (.file m.text) := by
  induction ms generalizing nodes with
  | nil => simp at hm
  | cons n ms ih =>
    rw [List.map_cons, List.nodup_cons] at hn
    rcases List.mem_cons.1 hm with rfl | hm
    · exact (moved_of_notMem hn.1).trans (Function.update_self ..)
    · exact ih _ hn.2 hm

theorem Trail.read_moved (h : Trail tree ms t) (hn : (ms.map (·.place)).Nodup) {left : FileTree}
    (hnodes : left.node? = moved tree.node? ms) (hhere : left.here = tree.here) {m : Move}
    (hm : m ∈ ms) : left.read m.path = .ok m.text := by
  have halike : FileTree.Alike tree left := by
    refine ⟨hhere.symm, fun p => ?_⟩
    rw [hnodes, ← h.nodes]
    exact h.alike.directories p
  have hlead := h.leads m hm
  refine FileTree.read_eq_ok.2 ⟨m.place, halike.resolve hlead.resolves, ?_, hlead.bare⟩
  rw [hnodes, moved_self tree.node? hn hm]

def texts (files : List (String × String)) : List (String × Option String) :=
  files.map fun f => (f.1, some f.2)

theorem texts_keys (files : List (String × String)) :
    (texts files).map Prod.fst = files.map Prod.fst := by
  simp [texts]

theorem texts_injective {files files' : List (String × String)} (h : texts files = texts files') :
    files = files' := by
  refine List.map_injective_iff.2 ?_ h
  rintro ⟨p, s⟩ ⟨q, u⟩ he
  simpa using he

theorem staging_texts (files : List (String × String)) :
    (texts files).flatMap staging = files.flatMap fun f => staging (f.1, some f.2) :=
  List.flatMap_map ..

theorem Halted.split {n : Nat} {ns : List Move} {files : List (String × String)}
    {mid next : Transaction} {path text : String} {c : Call} {f : Fault}
    (h : Halted failures tree n [] ns (texts files) mid next path text c f) :
    ∃ left, files = ns.map (fun m => (m.path, m.text)) ++ (path, text) :: left := by
  obtain ⟨left, hfiles⟩ := h.files
  refine ⟨left.map fun g => (g.1, g.2.getD ""), ?_⟩
  have hplain := congrArg (List.map fun g => (g.1, g.2.getD "")) hfiles
  simpa [texts, Function.comp_def] using hplain

theorem Halted.stops_schedule {ns : List Move} {files : List (String × String)}
    {mid next : Transaction} {path text : String} {c : Call} {f : Fault}
    (h : Halted failures tree ((texts files).flatMap staging).length [] ns (texts files) mid next
      path text c f)
    (hclear : Clear failures 0 ((texts files).flatMap staging).length)
    (hn : (ns.map (·.place)).Nodup)
    (hfresh : ∀ x, tree.resolve path = .ok x → x ∉ ns.map (·.place)) :
    Stops failures tree 0 (schedule tree files) c f := by
  obtain ⟨left, hfiles⟩ := h.split
  have htrail : Trail tree ns mid := h.trail
  have hmoves : (files.flatMap fun f => callsAt tree f.1 f.2) =
      (ns.flatMap Move.calls ++ callsAt mid.disk.tree path text) ++
        left.flatMap fun f => callsAt tree f.1 f.2 := by
    rw [callsAt, htrail.isFile hfresh, htrail.calls_eq hn]
    nth_rewrite 1 [hfiles]
    rw [List.flatMap_append, List.flatMap_cons, List.append_assoc]
    rfl
  rw [schedule, hmoves, ← staging_texts, ← List.append_assoc]
  refine Stops.before (.behind hclear ?_) _
  rw [Nat.zero_add]
  exact h.stops

theorem Halted.apart {n : Nat} {ns : List Move} {files : List (String × Option String)}
    {mid next : Transaction} {path text : String} {c : Call} {f : Fault}
    (h : Halted failures tree n [] ns files mid next path text c f)
    (hd : files.Pairwise fun f g => ∀ x, tree.resolve f.1 = .ok x → tree.resolve g.1 ≠ .ok x) :
    (ns.map (·.place)).Nodup ∧ ∀ x, tree.resolve path = .ok x → x ∉ ns.map (·.place) := by
  obtain ⟨left, hfiles⟩ := h.files
  have htrail : Trail tree ns mid := h.trail
  rw [hfiles, List.pairwise_append] at hd
  refine ⟨places_nodup htrail.leads (List.pairwise_map.1 hd.1), ?_⟩
  rintro x hx hmem
  obtain ⟨m, hm, rfl⟩ := List.mem_map.1 hmem
  exact hd.2.2 (m.path, some m.text) (List.mem_map_of_mem hm) (path, some text) List.mem_cons_self
    m.place (htrail.leads m hm).resolves hx

theorem publishWith_halted {n : Nat} {ns : List Move} {files : List (String × Option String)}
    {mid next : Transaction} {path text : String} {c : Call} {f : Fault}
    (hrun : (commit failures files).run (start tree) = (.error f, next))
    (h : Halted failures tree n [] ns files mid next path text c f)
    (hd : files.Pairwise fun f g => ∀ x, tree.resolve f.1 = .ok x → tree.resolve g.1 ≠ .ok x) :
    (publishWith failures tree files).result = .error f ∧
      (publishWith failures tree files).disk.tree.node? = tree.node? ∧
      (publishWith failures tree files).disk.tree.here = tree.here ∧
      (publishWith failures tree files).disk.temporaries.map Prod.snd =
        if c.setsAside then [""] else [] := by
  obtain ⟨waiting, hacc⟩ := h.accounted
  -- no earlier move went to the place of the one that failed, so what was set aside there is old
  obtain ⟨hplaces, hfresh⟩ := h.apart hd
  obtain ⟨aside, hback, hleft⟩ := h.broken.reversible h.trail hacc hplaces hfresh
  obtain ⟨hf, hnodes, hhere, htemps⟩ := publishWith_undone hrun hback
  exact ⟨hf, hnodes, hhere, by rw [htemps, hleft]⟩

/-- When publishing goes through, every file is where its path leads, and nothing else has changed.
Nothing else stays. -/
theorem publishWith_moved (hr : tree.Rooted) {files : List (String × Option String)}
    (hn : (files.map Prod.fst).Nodup) (h : (publishWith failures tree files).result = .ok ()) :
    (∃ ns : List Move, files = ns.map (fun m => (m.path, some m.text)) ∧
        (∀ m ∈ ns, Leads tree m) ∧
          (publishWith failures tree files).disk.tree.node? = moved tree.node? ns) ∧
      (publishWith failures tree files).disk.tree.here = tree.here ∧
      (publishWith failures tree files).disk.temporaries = [] := by
  obtain ⟨result, next, hrun, ⟨rfl, ns, htrail, hacc, hfiles, -⟩ | hfailed⟩ :=
    commit_run failures hr files hn
  · obtain ⟨-, hnodes, hhere, htemps⟩ := publishWith_done hrun htrail hacc
    exact ⟨⟨ns, hfiles, htrail.leads, hnodes⟩, hhere, htemps⟩
  · obtain ⟨f, rfl⟩ : ∃ f, result = .error f := by
      rcases hfailed with ⟨f, hf, -⟩ | ⟨f, _, _, _, _, _, hf, -⟩ <;> exact ⟨f, hf⟩
    rw [publishWith, hrun] at h
    rcases hu : (undo next).run next.disk with ⟨_ | _, disk⟩ <;> simp [hu] at h

/-- When it does not, nothing has changed at all, and at most one empty file stays. Without calls
that are made to fail the last file may go where another has gone, and no file stays. -/
theorem publishWith_unmoved (hr : tree.Rooted) {files : List (String × Option String)}
    (hn : (files.map Prod.fst).Nodup)
    (hd : files.dropLast.Pairwise fun f g =>
      ∀ x, tree.resolve f.1 = .ok x → tree.resolve g.1 ≠ .ok x)
    (hd' : failures = noFailures ∨ files.Pairwise fun f g =>
      ∀ x, tree.resolve f.1 = .ok x → tree.resolve g.1 ≠ .ok x) {f : Fault}
    (h : (publishWith failures tree files).result = .error f) :
    (publishWith failures tree files).disk.tree.node? = tree.node? ∧
      (publishWith failures tree files).disk.tree.here = tree.here ∧
      ((publishWith failures tree files).disk.temporaries = [] ∨ failures ≠ noFailures ∧
        (publishWith failures tree files).disk.temporaries.map Prod.snd = [""]) := by
  obtain ⟨result, next, hrun, ⟨rfl, ns, htrail, hacc, -⟩ | ⟨f, rfl, htrail, hacc, -⟩ |
    ⟨f, ns, mid, path, text, c, rfl, -, hhalted⟩⟩ := commit_run failures hr files hn
  · rw [(publishWith_done hrun htrail hacc).1] at h
    exact absurd h (by simp)
  · obtain ⟨-, hnodes, hhere, htemps⟩ := publishWith_restored hrun htrail hacc (by simp)
    exact ⟨hnodes, hhere, .inl htemps⟩
  by_cases hnone : failures = noFailures
  · subst hnone
    obtain ⟨waiting, hacc⟩ := hhalted.accounted
    obtain ⟨left, hfiles⟩ := hhalted.files
    obtain ⟨n, rfl⟩ := hhalted.broken.noFailures
    have htrail : Trail tree ns mid := hhalted.trail
    rw [hfiles, List.dropLast_append_of_ne_nil (by simp)] at hd
    have hplaces := places_nodup htrail.leads (List.pairwise_map.1 (List.pairwise_append.1 hd).1)
    obtain ⟨-, hnodes, hhere, htemps⟩ :=
      publishWith_restored hrun (htrail.calls n) (hacc.calls n) hplaces
    exact ⟨hnodes, hhere, .inl htemps⟩
  · obtain ⟨-, hnodes, hhere, htemps⟩ :=
      publishWith_halted hrun hhalted (hd'.resolve_left hnone)
    refine ⟨hnodes, hhere, ?_⟩
    split at htemps
    · exact .inr ⟨hnone, htemps⟩
    · exact .inl (List.map_eq_nil_iff.1 htemps)

/-- Publishing with calls that fail. If no call fails, every path has its text and nothing else has
changed. Otherwise the first call that fails gives the fault, and the tree is as it was. Nothing
else stays, except when it was a file that could not be set aside: then there is an empty file
more. -/
theorem publishWith_whole_or_undone (failures : Failures) (hr : tree.Rooted)
    (files : List (String × String)) (hn : (files.map Prod.fst).Nodup)
    (hd : files.Pairwise fun f g => ∀ x, tree.resolve f.1 = .ok x → tree.resolve g.1 ≠ .ok x) :
    ((publishWith failures tree (texts files)).result = .ok () ∧
        (∀ i < (schedule tree files).length, failures i = none) ∧
        (∀ f ∈ files, (publishWith failures tree (texts files)).disk.tree.read f.1 = .ok f.2) ∧
        (∀ x, (∀ f ∈ files, tree.resolve f.1 ≠ .ok x) →
          (publishWith failures tree (texts files)).disk.tree.node? x = tree.node? x) ∧
        (publishWith failures tree (texts files)).disk.tree.here = tree.here ∧
        (publishWith failures tree (texts files)).disk.temporaries = []) ∨
      ∃ f c, (publishWith failures tree (texts files)).result = .error f ∧
        Stops failures tree 0 (schedule tree files) c f ∧
        (publishWith failures tree (texts files)).disk.tree.node? = tree.node? ∧
        (publishWith failures tree (texts files)).disk.tree.here = tree.here ∧
        (publishWith failures tree (texts files)).disk.temporaries.map Prod.snd =
          if c.setsAside then [""] else [] := by
  obtain ⟨result, next, hrun, ⟨rfl, ns, htrail, hacc, hfiles, hclear⟩ |
    ⟨f, rfl, htrail, hacc, hstop⟩ | ⟨f, ns, mid, path, text, c, rfl, hclear, hhalted⟩⟩ :=
    commit_run failures hr (texts files) (by rwa [texts_keys])
  · obtain rfl : files = ns.map fun m => (m.path, m.text) :=
      texts_injective (hfiles.trans (by simp [texts]))
    have hplaces := places_nodup htrail.leads (List.pairwise_map.1 hd)
    obtain ⟨hok, hnodes, hhere, htemps⟩ := publishWith_done hrun htrail hacc
    refine .inl ⟨hok, ?_, ?_, ?_, hhere, htemps⟩
    · rw [staging_texts, htrail.calls_eq hplaces] at hclear
      intro i hi
      rw [← hclear i hi, Nat.zero_add]
    · rw [List.forall_mem_map]
      exact fun m hm => htrail.read_moved hplaces hnodes hhere hm
    · intro x hx
      rw [hnodes, moved_of_notMem]
      intro hmem
      obtain ⟨m, hm, rfl⟩ := List.mem_map.1 hmem
      exact hx _ (List.mem_map_of_mem hm) (htrail.leads m hm).resolves
  · obtain ⟨hf, hnodes, hhere, htemps⟩ := publishWith_restored hrun htrail hacc (by simp)
    obtain ⟨c, hc, hstop⟩ := hstop.resolve_left (by simp [texts])
    rw [staging_texts] at hstop
    refine .inr ⟨f, c, hf, hstop.before _, hnodes, hhere, ?_⟩
    rw [htemps, hc]
    rfl
  · have hd' : (texts files).Pairwise fun f g =>
        ∀ x, tree.resolve f.1 = .ok x → tree.resolve g.1 ≠ .ok x := List.pairwise_map.2 hd
    obtain ⟨hplaces, hfresh⟩ := hhalted.apart hd'
    obtain ⟨hf, hnodes, hhere, htemps⟩ := publishWith_halted hrun hhalted hd'
    exact .inr ⟨f, c, hf, hhalted.stops_schedule hclear hplaces hfresh, hnodes, hhere, htemps⟩

namespace Renewal

/-- One file is to be replaced and one is new. -/
def site : FileTree := ⟨[(["a"], .file "old")], []⟩

def files : List (String × String) := [("a", "new"), ("b", "more")]

def failing (n : Nat) : Failures := fun i => if i = n then some .busy else none

theorem rooted : site.Rooted where
  here := rfl
  above := by
    intro p name h
    rw [FileTree.node?, if_neg (by simp)] at h
    simp only [site, List.lookup_cons] at h
    cases ha : p ++ [name] == ["a"] <;> simp [ha] at h

theorem distinct : files.Pairwise fun f g =>
    ∀ x, site.resolve f.1 = .ok x → site.resolve g.1 ≠ .ok x := by
  refine .cons ?_ (.cons (by simp) .nil)
  simp only [List.mem_singleton, forall_eq]
  intro x ha hb
  have hx : x = ["a"] := (Except.ok.inj ha).symm
  have hx' : x = ["b"] := (Except.ok.inj hb).symm
  exact absurd (hx.symm.trans hx') (by decide)

/-- Two paths to one place: what the first move put there is set aside for the second, and when that
fails nothing can be taken back. -/
example : (publishWith (failing 9) site (texts [("a", "new"), ("./a", "more")])).disk.tree.node?
    ["a"] = none := by decide +kernel

end Renewal

/-- The last move fails, after a file was replaced. -/
theorem last_move_undone : Renewal.site.Rooted ∧ (Renewal.files.map Prod.fst).Nodup ∧
    (schedule Renewal.site Renewal.files).length = 8 ∧
    (publishWith (Renewal.failing 7) Renewal.site (texts Renewal.files)).result.isOk = false ∧
    (publishWith (Renewal.failing 7) Renewal.site (texts Renewal.files)).disk.tree.node? =
      Renewal.site.node? ∧
    (publishWith (Renewal.failing 7) Renewal.site (texts Renewal.files)).disk.temporaries = [] := by
  have hlength : (schedule Renewal.site Renewal.files).length = 8 := by decide +kernel
  refine ⟨Renewal.rooted, by decide, hlength, by decide +kernel, ?_, by decide +kernel⟩
  rcases publishWith_whole_or_undone (Renewal.failing 7) Renewal.rooted Renewal.files (by decide)
    Renewal.distinct with ⟨-, hclear, -⟩ | ⟨f, c, -, -, hnodes, -⟩
  · rw [hlength] at hclear
    exact absurd (hclear 7 (by decide)) (by decide)
  · exact hnodes

/-- A file that cannot be set aside leaves the file that was reserved for it. -/
theorem reserved_file_stays : Renewal.site.Rooted ∧ (Renewal.files.map Prod.fst).Nodup ∧
    (schedule Renewal.site Renewal.files).take 6 =
      [.create "a", .write "new", .create "b", .write "more", .reserve "a", .setAside "a"] ∧
    (publishWith (Renewal.failing 5) Renewal.site (texts Renewal.files)).result.isOk = false ∧
    (publishWith (Renewal.failing 5) Renewal.site (texts Renewal.files)).disk.temporaries =
      [(2, "")] :=
  ⟨Renewal.rooted, by decide, by decide +kernel, by decide +kernel, by decide +kernel⟩

end TensorAsm.Publish
