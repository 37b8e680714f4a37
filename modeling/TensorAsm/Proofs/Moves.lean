import Mathlib.Data.List.Nodup
import TensorAsm.Proofs.Files
import TensorAsm.Publish
/-!
Moving one file into place, call by call. What has been moved and what is kept aside tell how to get
back to the tree at the start. A move goes through, or it breaks off at a call that fails.
-/

namespace TensorAsm.Publish

open Sequences

section

variable {failures : Failures} {act : Disk → Except Fault Disk} {t : Transaction} {d : Disk}
  {f : Fault}

theorem call_ok (hf : failures t.calls = none) (h : act t.disk = .ok d) :
    (call failures act).run t = (.ok (), { t with calls := t.calls + 1, disk := d }) := by
  rw [call, run_bind_ok run_get]
  refine (run_bind_ok (t := { t with calls := t.calls + 1 }) rfl).trans ?_
  simp only [hf, h]
  rfl

theorem call_error (hf : failures t.calls = none) (h : act t.disk = .error f) :
    (call failures act).run t = (.error f, { t with calls := t.calls + 1 }) := by
  rw [call, run_bind_ok run_get]
  refine (run_bind_ok (t := { t with calls := t.calls + 1 }) rfl).trans ?_
  simp only [hf, h]
  rfl

theorem call_failed {g : HostError} (hf : failures t.calls = some g) :
    (call failures act).run t = (.error (.host g), { t with calls := t.calls + 1 }) := by
  rw [call, run_bind_ok run_get]
  refine (run_bind_ok (t := { t with calls := t.calls + 1 }) rfl).trans ?_
  simp only [hf]
  rfl

end

/-! ## Calls -/

/-- What is called for: for each text a temporary file is made and written; then a file that stands
where the text goes is set aside over one that is reserved for it, and the text is moved there. -/
inductive Call where
  | create (path : String)
  | write (text : String)
  | reserve (path : String)
  | setAside (path : String)
  | settle (path text : String)
  deriving DecidableEq

/-- A call that fails by itself. -/
def Call.Refused (tree : FileTree) : Call → Prop
  | .create path | .reserve path => tree.checkBeside path ≠ .ok ()
  | .write text => Text.halves? Text.isHalfCode text ≠ none
  | .setAside _ => False
  | .settle path text => ∀ left, tree.moveTo path text ≠ .ok left

def Call.setsAside : Call → Bool
  | .setAside _ => true
  | _ => false

/-- The calls for a text before anything is moved. -/
def staging : String × Option String → List Call
  | (path, some text) => [.create path, .write text]
  | (path, none) => [.create path]

/-- The calls that move a text to a path. -/
def callsAt (tree : FileTree) (path text : String) : List Call :=
  if tree.isFile path then [.reserve path, .setAside path, .settle path text]
  else [.settle path text]

/-- No call is made to fail from number `n` on. -/
def Clear (failures : Failures) (n count : Nat) : Prop := ∀ i < count, failures (n + i) = none

/-- Calls go through up to one that fails, because it is made to or by itself. -/
def Stops (failures : Failures) (tree : FileTree) (n : Nat) (calls : List Call) (c : Call)
    (f : Fault) : Prop :=
  ∃ before after, calls = before ++ c :: after ∧ Clear failures n before.length ∧
    (∀ g, failures (n + before.length) = some g → f = .host g) ∧
      (failures (n + before.length) = none → c.Refused tree)

section

variable {failures : Failures} {tree : FileTree} {n : Nat} {calls more : List Call} {c : Call}
  {f : Fault}

theorem Clear.append {k l : Nat} (h : Clear failures n k) (h' : Clear failures (n + k) l) :
    Clear failures n (k + l) := by
  intro i hi
  by_cases hk : i < k
  · exact h i hk
  · have hrest := h' (i - k) (by omega)
    rwa [Nat.add_assoc, Nat.add_sub_cancel' (Nat.not_lt.1 hk)] at hrest

theorem Clear.one (h : failures n = none) : Clear failures n 1 := by
  intro i hi
  rwa [Nat.lt_one_iff.1 hi]

theorem Stops.refused (h : failures n = none) (hc : c.Refused tree) :
    Stops failures tree n (c :: more) c f :=
  ⟨[], more, rfl, by simp [Clear], fun g hg => by simp [h] at hg, fun _ => hc⟩

theorem Stops.failed {g : HostError} (h : failures n = some g) :
    Stops failures tree n (c :: more) c (.host g) :=
  ⟨[], more, rfl, by simp [Clear], fun g' hg => by simp_all, fun hg => by simp_all⟩

theorem Stops.before (h : Stops failures tree n calls c f) (more : List Call) :
    Stops failures tree n (calls ++ more) c f := by
  obtain ⟨before, after, rfl, hclear, hg⟩ := h
  exact ⟨before, after ++ more, by simp, hclear, hg⟩

theorem Stops.behind (hc : Clear failures n calls.length)
    (h : Stops failures tree (n + calls.length) more c f) :
    Stops failures tree n (calls ++ more) c f := by
  obtain ⟨before, after, rfl, hclear, hg⟩ := h
  refine ⟨calls ++ before, after, by simp, ?_, ?_⟩
  · rw [List.length_append]
    exact hc.append hclear
  · rwa [List.length_append, ← Nat.add_assoc]

theorem Stops.next {c' : Call} (hc : failures n = none)
    (h : Stops failures tree (n + 1) more c f) : Stops failures tree n (c' :: more) c f := by
  have hnext : Stops failures tree n ([c'] ++ more) c f := .behind (.one hc) h
  exact hnext

end

/-! ## Moves -/

/-- A file that has been moved into place, and where the file that was there is kept. -/
structure Move where
  path : String
  place : Place
  text : String
  backup : Option (Nat × String)

def Move.calls (m : Move) : List Call :=
  if m.backup.isSome then [.reserve m.path, .setAside m.path, .settle m.path m.text]
  else [.settle m.path m.text]

/-- What stands at every place after moves. -/
def moved (nodes : Place → Option FileNode) (ms : List Move) : Place → Option FileNode :=
  ms.foldl (fun f m => Function.update f m.place (some (.file m.text))) nodes

/-- The numbers under which old files are kept. -/
def backupsOf (ms : List Move) : List (String × Nat) :=
  ms.filterMap fun m => m.backup.map fun b => (m.path, b.1)

/-- The path leads to the place, and a file can be moved there. -/
structure Leads (tree : FileTree) (m : Move) : Prop where
  resolves : tree.resolve m.path = .ok m.place
  free : tree.node? m.place ≠ some .directory
  named : WrittenPath.endsInDots m.path = false
  bare : (WrittenPath.ofString m.path).insists = false

/-- The moves so far. What was at a place is kept, unless an earlier move went there. -/
structure Trail (tree : FileTree) (ms : List Move) (t : Transaction) : Prop where
  nodes : t.disk.tree.node? = moved tree.node? ms
  here : t.disk.tree.here = tree.here
  published : t.published = ms.map (·.path)
  backups : t.backups = backupsOf ms
  leads : ∀ m ∈ ms, Leads tree m
  kept : ∀ m ∈ ms, ∀ b, m.backup = some b → Ordered.get? b.1 t.disk.temporaries = some b.2
  old : (ms.map (·.place)).Nodup → ∀ m ∈ ms, tree.node? m.place = m.backup.map fun b => .file b.2

/-- All temporary files are those that wait to be moved and those that keep an old file. -/
structure Accounted (waiting : List Nat) (t : Transaction) : Prop where
  nodup : (waiting ++ t.backups.map Prod.snd).Nodup
  staged : waiting ⊆ t.staged.map Prod.fst
  made : ∀ k ∈ t.staged.map Prod.fst ++ t.backups.map Prod.snd, k < t.disk.made
  known : ∀ k ∈ t.disk.temporaries.map Prod.fst, k ∈ waiting ++ t.backups.map Prod.snd

theorem moved_of_notMem {nodes : Place → Option FileNode} {ms : List Move} {x : Place}
    (h : x ∉ ms.map (·.place)) : moved nodes ms x = nodes x := by
  induction ms generalizing nodes with
  | nil => rfl
  | cons m ms ih =>
    rw [List.map_cons, List.mem_cons, not_or] at h
    rw [moved, List.foldl_cons]
    exact (ih h.2).trans (Function.update_of_ne h.1 _ _)

theorem moved_of_mem (nodes : Place → Option FileNode) {ms : List Move} {x : Place}
    (h : x ∈ ms.map (·.place)) : ∃ text, moved nodes ms x = some (.file text) := by
  induction ms generalizing nodes with
  | nil => simp at h
  | cons m ms ih =>
    by_cases hx : x ∈ ms.map (·.place)
    · exact ih _ hx
    · obtain rfl : x = m.place := by simpa [hx] using h
      exact ⟨m.text, (moved_of_notMem hx).trans (Function.update_self _ _ _)⟩

theorem moved_snoc (nodes : Place → Option FileNode) (ms : List Move) (m : Move) :
    moved nodes (ms ++ [m]) = Function.update (moved nodes ms) m.place (some (.file m.text)) := by
  rw [moved, List.foldl_append]
  rfl

theorem backupsOf_snoc (ms : List Move) (m : Move) :
    backupsOf (ms ++ [m]) = backupsOf ms ++ backupsOf [m] := List.filterMap_append

theorem mem_backupsOf {ms : List Move} {m : Move} (hm : m ∈ ms) {b : Nat × String}
    (hb : m.backup = some b) : b.1 ∈ (backupsOf ms).map Prod.snd := by
  refine List.mem_map.2 ⟨(m.path, b.1), List.mem_filterMap.2 ⟨m, hm, ?_⟩, rfl⟩
  rw [hb, Option.map_some]

theorem backupsOf_keys {ms : List Move} {path : String} (h : path ∉ ms.map (·.path)) :
    path ∉ (backupsOf ms).map Prod.fst := by
  intro hp
  obtain ⟨b, hb, rfl⟩ := List.mem_map.1 hp
  obtain ⟨m, hm, hmb⟩ := List.mem_filterMap.1 hb
  obtain ⟨c, -, rfl⟩ := Option.map_eq_some_iff.1 hmb
  exact h (List.mem_map_of_mem hm)

section

variable {failures : Failures} {tree : FileTree} {ms : List Move} {t : Transaction}

theorem Trail.alike (h : Trail tree ms t) : FileTree.Alike tree t.disk.tree where
  here := h.here.symm
  directories := by
    intro x
    rw [h.nodes]
    by_cases hx : x ∈ ms.map (·.place)
    · obtain ⟨m, hm, rfl⟩ := List.mem_map.1 hx
      obtain ⟨text, ht⟩ := moved_of_mem tree.node? hx
      simp [ht, (h.leads m hm).free]
    · rw [moved_of_notMem hx]

theorem keepOld_nothing {path : String} (h : t.disk.tree.isFile path = false) :
    (keepOld failures path).run t = (.ok (), t) := by
  rw [keepOld, run_bind_ok run_get, h]
  rfl

theorem keepOld_refused {path : String} {f : Fault} (h : t.disk.tree.isFile path = true)
    {next : Transaction} (hc : (call failures (Disk.create path)).run t = (.error f, next)) :
    (keepOld failures path).run t = (.error f, next) := by
  rw [keepOld, run_bind_ok run_get, if_pos h, run_bind_ok run_get]
  exact run_bind_error hc

def opened (d : Disk) : Disk :=
  { d with temporaries := d.temporaries ++ [(d.made, "")], made := d.made + 1 }

theorem create_run (hf : failures t.calls = none) {path : String}
    (hc : t.disk.tree.checkBeside path = .ok ()) : (call failures (Disk.create path)).run t =
      (.ok (), { t with calls := t.calls + 1, disk := opened t.disk }) :=
  call_ok hf (by rw [Disk.create, hc]; rfl)

theorem keepOld_reserved (hf : failures t.calls = none) {g : HostError}
    (hg : failures (t.calls + 1) = some g) {path : String}
    (hc : t.disk.tree.checkBeside path = .ok ()) (h : t.disk.tree.isFile path = true) :
    (keepOld failures path).run t =
      (.error (.host g), { t with calls := t.calls + 2, disk := opened t.disk }) := by
  rw [keepOld, run_bind_ok run_get, if_pos h, run_bind_ok run_get, run_bind_ok (create_run hf hc),
    run_bind_error (call_failed hg)]

def added (d : Disk) (text : String) : List (Nat × String) :=
  Ordered.put d.made text (d.temporaries ++ [(d.made, "")])

theorem keepOld_kept (hf : Clear failures t.calls 2) {path old : String} {left : FileTree}
    (hc : t.disk.tree.checkBeside path = .ok ()) (h : t.disk.tree.isFile path = true)
    (ht : t.disk.tree.take path = .ok (old, left)) :
    (keepOld failures path).run t = (.ok (), { t with
      calls := t.calls + 2
      disk := ⟨left, added t.disk old, t.disk.made + 1⟩
      backups := Ordered.put path t.disk.made t.backups }) := by
  have haside : (call failures (Disk.setAside path t.disk.made)).run
      { t with calls := t.calls + 1, disk := opened t.disk } = (.ok (), { t with
        calls := t.calls + 2, disk := ⟨left, added t.disk old, t.disk.made + 1⟩ }) :=
    call_ok (hf 1 (by decide)) (by rw [Disk.setAside, opened, ht]; rfl)
  rw [keepOld, run_bind_ok run_get, if_pos h, run_bind_ok run_get,
    run_bind_ok (create_run (hf 0 (by decide)) hc), run_bind_ok haside]
  rfl

theorem settle_eq_ok {d : Disk} {k : Nat} {path text : String} {left : FileTree}
    (hk : Ordered.get? k d.temporaries = some text) (hm : d.tree.moveTo path text = .ok left) :
    d.settle k path = .ok ({ d with tree := left }.discard k) := by
  rw [Disk.settle, hk]
  simp only [hm]

theorem settle_eq_error {d : Disk} {k : Nat} {path text : String} {f : Fault}
    (hk : Ordered.get? k d.temporaries = some text) (hm : d.tree.moveTo path text = .error f) :
    d.settle k path = .error f := by
  rw [Disk.settle, hk]
  simp only [hm]

theorem get_discard {d : Disk} {k j : Nat} :
    Ordered.get? j (d.discard k).temporaries =
      if j == k then none else Ordered.get? j d.temporaries := Ordered.lookup_filter k j _

theorem mem_discard {d : Disk} {k j : Nat} : j ∈ (d.discard k).temporaries.map Prod.fst ↔
    j ∈ d.temporaries.map Prod.fst ∧ j ≠ k := by
  simp only [Disk.discard, List.mem_map, List.mem_filter, bne_iff_ne, ne_eq]
  constructor
  · rintro ⟨p, ⟨hp, hk⟩, rfl⟩
    exact ⟨⟨p, hp, rfl⟩, hk⟩
  · rintro ⟨⟨p, hp, rfl⟩, hk⟩
    exact ⟨p, ⟨hp, hk⟩, rfl⟩

theorem Trail.snoc (h : Trail tree ms t) {m : Move} {next : Transaction} (hm : Leads tree m)
    (hnodes : next.disk.tree.node? =
      Function.update t.disk.tree.node? m.place (some (.file m.text)))
    (hhere : next.disk.tree.here = t.disk.tree.here)
    (hpublished : next.published = t.published ++ [m.path])
    (hbackups : next.backups = t.backups ++ backupsOf [m])
    (hkept : ∀ b, m.backup = some b → Ordered.get? b.1 next.disk.temporaries = some b.2)
    (hkeeps : ∀ k ∈ t.backups.map Prod.snd, Ordered.get? k next.disk.temporaries =
      Ordered.get? k t.disk.temporaries)
    (hold : t.disk.tree.node? m.place = m.backup.map fun b => .file b.2) :
    Trail tree (ms ++ [m]) next where
  nodes := by rw [hnodes, h.nodes, moved_snoc]
  here := hhere.trans h.here
  published := by rw [hpublished, h.published, List.map_append, List.map_singleton]
  backups := by rw [hbackups, h.backups, backupsOf_snoc]
  leads := by
    intro n hn
    rcases List.mem_append.1 hn with hn | hn
    · exact h.leads n hn
    · rw [List.mem_singleton.1 hn]
      exact hm
  kept := by
    intro n hn b hb
    rcases List.mem_append.1 hn with hn | hn
    · rw [hkeeps b.1, h.kept n hn b hb]
      rw [h.backups]
      exact mem_backupsOf hn hb
    · rw [List.mem_singleton.1 hn] at hb
      exact hkept b hb
  old := by
    intro hnodup n hn
    rw [List.map_append, List.map_singleton, List.nodup_append] at hnodup
    rcases List.mem_append.1 hn with hn | hn
    · exact h.old hnodup.1 n hn
    · have hfresh : m.place ∉ ms.map (·.place) :=
        fun hx => hnodup.2.2 _ hx _ (List.mem_singleton_self _) rfl
      rw [List.mem_singleton.1 hn, ← hold, h.nodes, moved_of_notMem hfresh]

theorem Trail.lead (h : Trail tree ms t) {m : Move}
    (hx : t.disk.tree.resolve m.path = .ok m.place)
    (hd : t.disk.tree.node? m.place ≠ some .directory)
    (hn : WrittenPath.endsInDots m.path = false)
    (hb : (WrittenPath.ofString m.path).insists = false) : Leads tree m where
  resolves := h.alike.symm.resolve hx
  free := fun hdir => hd ((h.alike.directories _).1 hdir)
  named := hn
  bare := hb

theorem Accounted.less {waiting : List Nat} (h : Accounted waiting t) {j : Nat}
    (hj : j ∈ waiting ++ t.backups.map Prod.snd) : j < t.disk.made :=
  h.made j (List.append_subset.2 ⟨fun _ hi => List.mem_append_left _ (h.staged hi),
    List.subset_append_right _ _⟩ hj)

theorem Accounted.other {k : Nat} {waiting : List Nat} (h : Accounted (k :: waiting) t) {j : Nat}
    (hj : j ∈ waiting ++ t.backups.map Prod.snd) : j ≠ k ∧ j < t.disk.made := by
  refine ⟨?_, h.less (List.mem_cons_of_mem _ hj)⟩
  rintro rfl
  exact (List.nodup_cons.1 h.nodup).1 hj

theorem Accounted.drop {k : Nat} {waiting : List Nat} (h : Accounted (k :: waiting) t)
    {next : Transaction} (hstaged : next.staged = t.staged) (hbackups : next.backups = t.backups)
    (hmade : next.disk.made = t.disk.made)
    (hknown : ∀ j ∈ next.disk.temporaries.map Prod.fst,
      j ∈ t.disk.temporaries.map Prod.fst ∧ j ≠ k) : Accounted waiting next where
  nodup := by
    rw [hbackups]
    exact (List.nodup_cons.1 h.nodup).2
  staged := by
    rw [hstaged]
    exact fun j hj => h.staged (List.mem_cons_of_mem _ hj)
  made := by
    rw [hstaged, hbackups, hmade]
    exact h.made
  known := by
    intro j hj
    obtain ⟨hj, hjk⟩ := hknown j hj
    rw [hbackups]
    exact (List.mem_cons.1 (h.known j hj)).resolve_left hjk

theorem Accounted.keep {waiting : List Nat} (h : Accounted waiting t) {path : String}
    {next : Transaction} (hstaged : next.staged = t.staged)
    (hbackups : next.backups = t.backups ++ [(path, t.disk.made)])
    (hmade : next.disk.made = t.disk.made + 1)
    (hknown : ∀ j ∈ next.disk.temporaries.map Prod.fst,
      j ∈ t.disk.temporaries.map Prod.fst ∨ j = t.disk.made) : Accounted waiting next := by
  have hsnoc (ks : List Nat) : ks ++ next.backups.map Prod.snd =
      (ks ++ t.backups.map Prod.snd) ++ [t.disk.made] := by simp [hbackups]
  constructor
  · rw [hsnoc, List.nodup_append]
    refine ⟨h.nodup, List.nodup_singleton _, ?_⟩
    rintro j hj i hi rfl
    rw [List.mem_singleton.1 hi] at hj
    exact absurd (h.less hj) (Nat.lt_irrefl _)
  · rw [hstaged]
    exact h.staged
  · intro j hj
    rw [hsnoc, hstaged, List.mem_append, List.mem_singleton] at hj
    rw [hmade]
    rcases hj with hj | rfl
    · exact Nat.lt_succ_of_lt (h.made j hj)
    · exact Nat.lt_succ_self _
  · intro j hj
    rw [hsnoc, List.mem_append, List.mem_singleton]
    exact (hknown j hj).imp_left (h.known j)

theorem install_free (hf : failures t.calls = none) (h : Trail tree ms t) {k : Nat}
    {waiting : List Nat} (ha : Accounted (k :: waiting) t) {path text : String} {x : Place}
    (ht : Ordered.get? k t.disk.temporaries = some text)
    (hfile : t.disk.tree.isFile path = false) (hlead : Leads tree ⟨path, x, text, none⟩)
    (hnone : t.disk.tree.node? x = none) :
    ∃ next, (install failures k path).run t = (.ok (), next) ∧
      Trail tree (ms ++ [⟨path, x, text, none⟩]) next ∧ Accounted waiting next ∧
        next.staged = t.staged ∧ next.calls = t.calls + 1 ∧
          ∀ j ∈ waiting, Ordered.get? j next.disk.temporaries =
            Ordered.get? j t.disk.temporaries := by
  have hx := h.alike.resolve hlead.resolves
  have hm : t.disk.tree.moveTo path text = .ok (t.disk.tree.put x (.file text)) :=
    FileTree.moveTo_eq_ok.2 ⟨x, hx, hlead.named, hlead.bare, by simp [hnone], rfl⟩
  have hne : x ≠ [] := FileTree.ne_nil_of_not_directory (t := t.disk.tree) (by simp [hnone])
  have hrun : (install failures k path).run t = (.ok (), { t with
      calls := t.calls + 1
      disk := { t.disk with tree := t.disk.tree.put x (.file text) }.discard k
      published := t.published ++ [path]
      log := t.log ++ [publishedEntry path] }) := by
    rw [install, run_bind_ok (keepOld_nothing hfile), run_bind_ok (call_ok hf (settle_eq_ok ht hm))]
    rfl
  have hget (j : Nat) (hj : j ∈ waiting ++ t.backups.map Prod.snd) :
      Ordered.get? j (t.disk.discard k).temporaries = Ordered.get? j t.disk.temporaries := by
    rw [get_discard, if_neg (by simpa using (ha.other hj).1)]
  refine ⟨_, hrun, ?_, ?_, rfl, rfl, fun j hj => hget j (List.mem_append_left _ hj)⟩
  · refine h.snoc hlead (FileTree.node_put hne _) rfl rfl ?_ ?_ ?_ hnone
    · simp [backupsOf]
    · simp
    · exact fun j hj => hget j (List.mem_append_right _ hj)
  · exact ha.drop rfl rfl rfl fun j hj => mem_discard.1 hj

theorem get_added {d : Disk} {text : String} {j : Nat} : Ordered.get? j (added d text) =
    if j = d.made then some text else Ordered.get? j d.temporaries := by
  rw [Ordered.get?, added, Ordered.lookup_put, List.lookup_append]
  by_cases hj : j = d.made
  · simp [hj]
  · have hl : [(d.made, "")].lookup j = none := by simp [List.lookup_cons, beq_false_of_ne hj]
    simp [hj, hl, Ordered.get?]

theorem mem_added {d : Disk} {text : String} {j : Nat} : j ∈ (added d text).map Prod.fst ↔
    j ∈ d.temporaries.map Prod.fst ∨ j = d.made := by
  rw [added, Ordered.mem_put_keys, List.map_append, List.mem_append, List.map_singleton,
    List.mem_singleton]
  tauto

/-- The old file has been set aside, and the new one is not there yet. -/
def keptAside (t : Transaction) (path old : String) (x : Place) : Transaction := { t with
  calls := t.calls + 2
  disk := ⟨t.disk.tree.erase x, added t.disk old, t.disk.made + 1⟩
  backups := t.backups ++ [(path, t.disk.made)] }

theorem keepOld_run (hf : Clear failures t.calls 2) (h : Trail tree ms t) {path old : String}
    {x : Place} (hp : path ∉ ms.map (·.path)) (hc : t.disk.tree.checkBeside path = .ok ())
    (hx : t.disk.tree.resolve path = .ok x) (hold : t.disk.tree.node? x = some (.file old))
    (hbare : (WrittenPath.ofString path).insists = false) :
    (keepOld failures path).run t = (.ok (), keptAside t path old x) := by
  have hbackups : Ordered.put path t.disk.made t.backups = t.backups ++ [(path, t.disk.made)] := by
    apply Ordered.put_of_notMem
    rw [h.backups]
    exact backupsOf_keys hp
  rw [keepOld_kept hf hc (FileTree.isFile_iff.2 ⟨x, old, hx, hold, hbare⟩)
    (FileTree.take_eq_ok hx hold hbare), hbackups]
  rfl

theorem Accounted.keptAside {waiting : List Nat} (h : Accounted waiting t) (path old : String)
    (x : Place) : Accounted waiting (keptAside t path old x) :=
  h.keep rfl rfl rfl fun _ hj => mem_added.1 hj

theorem install_over (hf : Clear failures t.calls 3) (h : Trail tree ms t) {k : Nat}
    {waiting : List Nat} (ha : Accounted (k :: waiting) t) {path text old : String} {x : Place}
    (hp : path ∉ ms.map (·.path)) (ht : Ordered.get? k t.disk.temporaries = some text)
    (hc : t.disk.tree.checkBeside path = .ok ())
    (hlead : Leads tree ⟨path, x, text, some (t.disk.made, old)⟩)
    (hold : t.disk.tree.node? x = some (.file old)) :
    ∃ next, (install failures k path).run t = (.ok (), next) ∧
      Trail tree (ms ++ [⟨path, x, text, some (t.disk.made, old)⟩]) next ∧
        Accounted waiting next ∧ next.staged = t.staged ∧ next.calls = t.calls + 3 ∧
          ∀ j ∈ waiting, Ordered.get? j next.disk.temporaries =
            Ordered.get? j t.disk.temporaries := by
  have hx := h.alike.resolve hlead.resolves
  have hne : x ≠ [] := FileTree.ne_nil_of_not_directory (t := t.disk.tree) (by simp [hold])
  have halike : FileTree.Alike t.disk.tree (t.disk.tree.erase x) :=
    FileTree.alike_update rfl (n := none) (by simp) (by simp [hold]) (FileTree.node_erase hne)
  have hm : (t.disk.tree.erase x).moveTo path text =
      .ok ((t.disk.tree.erase x).put x (.file text)) :=
    FileTree.moveTo_eq_ok.2 ⟨x, halike.resolve hx, hlead.named, hlead.bare,
      by simp [FileTree.node_erase hne], rfl⟩
  have hk : k < t.disk.made := ha.less (by simp)
  have htext : Ordered.get? k (added t.disk old) = some text := by
    rw [get_added, if_neg (by omega), ht]
  have hrun : (install failures k path).run t = (.ok (), { keptAside t path old x with
      calls := t.calls + 3
      disk := (⟨(t.disk.tree.erase x).put x (.file text), added t.disk old,
        t.disk.made + 1⟩ : Disk).discard k
      published := t.published ++ [path]
      log := t.log ++ [publishedEntry path] }) := by
    have hsettle : (keptAside t path old x).disk.settle k path = _ := settle_eq_ok htext hm
    rw [install, run_bind_ok (keepOld_run (fun i hi => hf i (by omega)) h hp hc hx hold hlead.bare),
      run_bind_ok (call_ok (hf 2 (by decide)) hsettle)]
    rfl
  have hget (j : Nat) (hj : j ∈ waiting ++ t.backups.map Prod.snd) :
      Ordered.get? j ((⟨(t.disk.tree.erase x).put x (.file text), added t.disk old,
        t.disk.made + 1⟩ : Disk).discard k).temporaries = Ordered.get? j t.disk.temporaries := by
    obtain ⟨hjk, hjm⟩ := ha.other hj
    rw [get_discard, if_neg (by simpa using hjk), get_added, if_neg (by omega)]
  refine ⟨_, hrun, ?_, ?_, rfl, rfl, fun j hj => hget j (List.mem_append_left _ hj)⟩
  · refine h.snoc hlead ?_ rfl rfl rfl ?_ ?_ hold
    · refine (FileTree.node_put hne _).trans ?_
      rw [FileTree.node_erase hne, Function.update_idem]
    · intro b hb
      obtain rfl := Option.some.inj hb
      rw [get_discard, if_neg (by simp; omega), get_added, if_pos rfl]
    · exact fun j hj => hget j (List.mem_append_right _ hj)
  · exact (ha.keptAside path old x).drop rfl rfl rfl fun j hj => mem_discard.1 hj

/-- What a failed move of a text to a path leaves behind: nothing, the empty file reserved for the
old one, or the old file where it was set aside. -/
inductive Broken (failures : Failures) (tree : FileTree) (t : Transaction) (path text : String) :
    Call → Transaction → Prop
  | untouched {c : Call} (hc : c.setsAside = false) (n : Nat) :
      Broken failures tree t path text c { t with calls := n }
  | reserved {i : Nat} {g : HostError} (hf : failures i = some g) (n : Nat) :
      Broken failures tree t path text (.setAside path)
        { t with calls := n, disk := opened t.disk }
  | aside {i : Nat} {g : HostError} (hf : failures i = some g) {old : String} {x : Place}
      (hlead : Leads tree ⟨path, x, text, some (t.disk.made, old)⟩)
      (hold : t.disk.tree.node? x = some (.file old)) (n : Nat) :
      Broken failures tree t path text (.settle path text)
        { keptAside t path old x with calls := n }

theorem install_new (h : Trail tree ms t) {k : Nat} {path text : String}
    (ht : Ordered.get? k t.disk.temporaries = some text)
    (hfile : t.disk.tree.isFile path = false) :
    (∃ f c next, (install failures k path).run t = (.error f, next) ∧
      Stops failures tree t.calls [.settle path text] c f ∧
        Broken failures tree t path text c next) ∨
    failures t.calls = none ∧
      ∃ x, Leads tree ⟨path, x, text, none⟩ ∧ t.disk.tree.node? x = none := by
  rcases hf : failures t.calls with _ | g
  case some =>
    rw [install, run_bind_ok (keepOld_nothing hfile), run_bind_error (call_failed hf)]
    exact .inl ⟨_, _, _, rfl, .failed hf, .untouched rfl _⟩
  cases hm : t.disk.tree.moveTo path text with
  | error f =>
    rw [install, run_bind_ok (keepOld_nothing hfile),
      run_bind_error (call_error hf (settle_eq_error ht hm))]
    refine .inl ⟨f, _, _, rfl, .refused hf fun left hl => ?_, .untouched rfl _⟩
    obtain ⟨left, hl⟩ := h.alike.moveTo hl
    simp [hm] at hl
  | ok left =>
    obtain ⟨x, hx, hdots, hbare, hdir, -⟩ := FileTree.moveTo_eq_ok.1 hm
    have hnone : t.disk.tree.node? x = none := by
      rcases hn : t.disk.tree.node? x with _ | old | _
      · rfl
      · simp [FileTree.isFile_iff.2 ⟨x, old, hx, hn, hbare⟩] at hfile
      · exact absurd hn hdir
    exact .inr ⟨rfl, x, h.lead hx hdir hdots hbare, hnone⟩

theorem install_old (hr : tree.Rooted) (h : Trail tree ms t) {k : Nat} {path : String}
    (text : String) (hp : path ∉ ms.map (·.path)) (hfile : t.disk.tree.isFile path = true) :
    (∃ f c next, (install failures k path).run t = (.error f, next) ∧
      Stops failures tree t.calls [.reserve path, .setAside path, .settle path text] c f ∧
        Broken failures tree t path text c next) ∨
    Clear failures t.calls 3 ∧ t.disk.tree.checkBeside path = .ok () ∧
      ∃ x old, Leads tree ⟨path, x, text, some (t.disk.made, old)⟩ ∧
        t.disk.tree.node? x = some (.file old) := by
  rcases hf₀ : failures t.calls with _ | g
  case some =>
    rw [install, run_bind_error (keepOld_refused hfile (call_failed hf₀))]
    exact .inl ⟨_, _, _, rfl, .failed hf₀, .untouched rfl _⟩
  rcases hc : t.disk.tree.checkBeside path with f | u
  case error =>
    rw [install, run_bind_error (keepOld_refused hfile (call_error hf₀ (by rw [Disk.create, hc])))]
    refine .inl ⟨f, _, _, rfl, .refused hf₀ fun hok => ?_, .untouched rfl _⟩
    simp [h.alike.checkBeside hok] at hc
  rcases hf₁ : failures (t.calls + 1) with _ | g
  case some =>
    rw [install, run_bind_error (keepOld_reserved hf₀ hf₁ hc hfile)]
    exact .inl ⟨_, _, _, rfl, (Stops.failed hf₁).next hf₀, .reserved hf₁ _⟩
  obtain ⟨x, old, hx, hold, hbare⟩ := FileTree.isFile_iff.1 hfile
  have hdir : t.disk.tree.node? x ≠ some .directory := by simp [hold]
  have hdots : WrittenPath.endsInDots path = false := by
    by_contra hdots
    exact hdir (FileTree.directory_of_endsInDots (h.alike.rooted hr) (by simpa using hdots) hx)
  have hlead := h.lead (m := ⟨path, x, text, some (t.disk.made, old)⟩) hx hdir hdots hbare
  have hclear : Clear failures t.calls 2 := (Clear.one hf₀).append (.one hf₁)
  rcases hf₂ : failures (t.calls + 2) with _ | g
  case some =>
    rw [install, run_bind_ok (keepOld_run hclear h hp hc hx hold hbare),
      run_bind_error (call_failed hf₂)]
    exact .inl ⟨_, _, _, rfl, ((Stops.failed hf₂).next hf₁).next hf₀, .aside hf₂ hlead hold _⟩
  exact .inr ⟨hclear.append (.one hf₂), rfl, x, old, hlead, hold⟩

theorem install_step (hr : tree.Rooted) (h : Trail tree ms t) {k : Nat} {waiting : List Nat}
    (ha : Accounted (k :: waiting) t) {path text : String} (hp : path ∉ ms.map (·.path))
    (ht : Ordered.get? k t.disk.temporaries = some text) :
    (∃ f c next, (install failures k path).run t = (.error f, next) ∧
      Stops failures tree t.calls (callsAt t.disk.tree path text) c f ∧
        Broken failures tree t path text c next) ∨
    ∃ m next, (install failures k path).run t = (.ok (), next) ∧ m.path = path ∧ m.text = text ∧
      Clear failures t.calls m.calls.length ∧ next.calls = t.calls + m.calls.length ∧
      Trail tree (ms ++ [m]) next ∧ Accounted waiting next ∧ next.staged = t.staged ∧
        ∀ j ∈ waiting, Ordered.get? j next.disk.temporaries =
          Ordered.get? j t.disk.temporaries := by
  rw [callsAt]
  cases hfile : t.disk.tree.isFile path with
  | false =>
    refine (install_new h ht hfile).imp id ?_
    rintro ⟨hf, x, hlead, hnone⟩
    obtain ⟨next, hrun, htrail, hacc, hstaged, hcalls, hget⟩ :=
      install_free hf h ha ht hfile hlead hnone
    exact ⟨⟨path, x, text, none⟩, next, hrun, rfl, rfl, .one hf, hcalls, htrail, hacc, hstaged,
      hget⟩
  | true =>
    refine (install_old hr h text hp hfile).imp id ?_
    rintro ⟨hf, hc, x, old, hlead, hold⟩
    obtain ⟨next, hrun, htrail, hacc, hstaged, hcalls, hget⟩ :=
      install_over hf h ha hp ht hc hlead hold
    exact ⟨⟨path, x, text, some (t.disk.made, old)⟩, next, hrun, rfl, rfl, hf, hcalls, htrail,
      hacc, hstaged, hget⟩

theorem Trail.calls (h : Trail tree ms t) (n : Nat) : Trail tree ms { t with calls := n } :=
  ⟨h.nodes, h.here, h.published, h.backups, h.leads, h.kept, h.old⟩

theorem Accounted.calls {waiting : List Nat} (h : Accounted waiting t) (n : Nat) :
    Accounted waiting { t with calls := n } := ⟨h.nodup, h.staged, h.made, h.known⟩

end

end TensorAsm.Publish
