import Mathlib.Data.List.Basic
import Mathlib.Logic.Function.Basic
import TensorAsm.FileTree
import TensorAsm.Proofs.Sequences
/-!
Files by their places. Paths are followed by directories alone, so files may be put and taken away
without a path leading elsewhere.
-/

namespace TensorAsm

namespace Ordered

variable {α β : Type} [BEq α] [LawfulBEq α]

theorem lookup_put (k a : α) (v : β) (m : List (α × β)) :
    (put k v m).lookup a = if a == k then some v else m.lookup a := by
  induction m with
  | nil => cases h : a == k <;> simp [put, List.lookup_cons, h]
  | cons p m ih =>
    rcases p with ⟨k', v'⟩
    by_cases hk : k' == k
    · obtain rfl := eq_of_beq hk
      cases h : a == k' <;> simp [put, List.lookup_cons, h]
    · rw [put, if_neg hk, List.lookup_cons, List.lookup_cons, ih]
      by_cases ha : a == k
      · obtain rfl := eq_of_beq ha
        have hne : (a == k') = false := by
          rw [beq_eq_false_iff_ne]
          rintro rfl
          simp at hk
        simp [hne]
      · simp [ha]

theorem lookup_filter (k a : α) (m : List (α × β)) :
    (m.filter (·.1 != k)).lookup a = if a == k then none else m.lookup a := by
  induction m with
  | nil => simp
  | cons p m ih =>
    rcases p with ⟨k', v'⟩
    by_cases hk : k' == k
    · obtain rfl := eq_of_beq hk
      rw [List.filter_cons_of_neg (by simp), ih, List.lookup_cons]
      cases h : a == k' <;> simp
    · rw [List.filter_cons_of_pos (by simpa using hk), List.lookup_cons, List.lookup_cons, ih]
      by_cases ha : a == k
      · obtain rfl := eq_of_beq ha
        have hne : (a == k') = false := by
          rw [beq_eq_false_iff_ne]
          rintro rfl
          simp at hk
        simp [hne]
      · simp [ha]

theorem put_of_notMem {k : α} {m : List (α × β)} (h : k ∉ m.map Prod.fst) (v : β) :
    put k v m = m ++ [(k, v)] := by
  induction m with
  | nil => rfl
  | cons p m ih =>
    rw [List.map_cons, List.mem_cons, not_or] at h
    rw [put, if_neg (by simpa using Ne.symm h.1), ih h.2, List.cons_append]

theorem mem_put {e : α × β} {k : α} {v : β} {m : List (α × β)} (h : e ∈ put k v m) :
    e = (k, v) ∨ e ∈ m := by
  induction m with
  | nil => exact .inl (List.mem_singleton.1 h)
  | cons p m ih =>
    rw [put] at h
    split at h
    · next hk =>
        rw [eq_of_beq hk] at h
        exact (List.mem_cons.1 h).imp_right (List.mem_cons_of_mem p)
    · rcases List.mem_cons.1 h with rfl | h
      · exact .inr (List.mem_cons_self ..)
      · exact (ih h).imp_right (List.mem_cons_of_mem p)

theorem mem_put_keys {k a : α} {v : β} {m : List (α × β)} :
    a ∈ (put k v m).map Prod.fst ↔ a = k ∨ a ∈ m.map Prod.fst := by
  induction m with
  | nil => simp [put]
  | cons p m ih =>
    by_cases hk : p.1 == k
    · obtain rfl := eq_of_beq hk
      simp [put]
    · rw [put, if_neg hk, List.map_cons, List.mem_cons, ih, List.map_cons, List.mem_cons]
      exact or_left_comm

end Ordered

namespace FileTree

variable {t u : FileTree} {s : String} {x : Place}

theorem ne_nil_of_not_directory (h : t.node? x ≠ some .directory) : x ≠ [] := by
  rintro rfl
  exact h rfl

theorem node_put (hx : x ≠ []) (n : FileNode) :
    (t.put x n).node? = Function.update t.node? x (some n) := by
  funext y
  by_cases hy : y = x
  · subst hy
    simp [node?, put, hx, Ordered.lookup_put]
  · rw [Function.update_of_ne hy]
    cases y with
    | nil => rfl
    | cons => simp [node?, put, Ordered.lookup_put, hy]

theorem node_erase (hx : x ≠ []) : (t.erase x).node? = Function.update t.node? x none := by
  funext y
  by_cases hy : y = x
  · subst hy
    simp [node?, erase, hx, Ordered.lookup_filter]
  · rw [Function.update_of_ne hy]
    cases y with
    | nil => rfl
    | cons => simp [node?, erase, Ordered.lookup_filter, hy]

/-- The current directory is there, and above every directory there are directories. -/
structure Rooted (t : FileTree) : Prop where
  here : t.node? t.here = some .directory
  above : ∀ p name, t.node? (p ++ [name]) = some .directory → t.node? p = some .directory

/-- Trees with the same directories. -/
structure Alike (t u : FileTree) : Prop where
  here : t.here = u.here
  directories : ∀ p, t.node? p = some .directory ↔ u.node? p = some .directory

theorem Alike.symm (h : Alike t u) : Alike u t := ⟨h.here.symm, fun p => (h.directories p).symm⟩

theorem Alike.trans {v : FileTree} (h : Alike t u) (h' : Alike u v) : Alike t v :=
  ⟨h.here.trans h'.here, fun p => (h.directories p).trans (h'.directories p)⟩

theorem Alike.rooted (h : Alike t u) (hr : t.Rooted) : u.Rooted where
  here := by
    rw [← h.here]
    exact (h.directories _).1 hr.here
  above := fun p name hp => (h.directories p).1 (hr.above p name ((h.directories _).2 hp))

theorem alike_update (hh : u.here = t.here) {n : Option FileNode}
    (hn : n ≠ some .directory) (hx : t.node? x ≠ some .directory)
    (hu : u.node? = Function.update t.node? x n) : Alike t u where
  here := hh.symm
  directories := by
    intro p
    rw [hu]
    by_cases hp : p = x
    · subst hp
      simp [hx, hn]
    · rw [Function.update_of_ne hp]

theorem enter_eq_ok {p q : Place} {part : String} : t.enter p part = .ok q ↔
    t.node? p = some .directory ∧ Text.byteLength part ≤ WrittenPath.nameLimit ∧
      WrittenPath.descend p part = q := by
  rw [enter]
  rcases t.node? p with _ | _ | _
  · simp
  · simp
  · by_cases hl : WrittenPath.nameLimit < Text.byteLength part
    · simp [hl, Nat.not_le_of_lt hl]
    · simp [hl, Nat.le_of_not_lt hl]

theorem Alike.enter (h : Alike t u) {parts : List String} {p q : Place}
    (hq : parts.foldlM t.enter p = .ok q) : parts.foldlM u.enter p = .ok q := by
  induction parts generalizing p with
  | nil => exact hq
  | cons part parts ih =>
    rw [List.foldlM_cons] at hq ⊢
    obtain ⟨r, hr, hq⟩ := Sequences.bind_ok hq
    obtain ⟨hd, hl, rfl⟩ := enter_eq_ok.1 hr
    rw [enter_eq_ok.2 ⟨(h.directories p).1 hd, hl, rfl⟩]
    exact ih hq

theorem resolve_eq_ok : t.resolve s = .ok x ↔ WrittenPath.refusal? s = none ∧
    (WrittenPath.ofString s).blank = false ∧
      (WrittenPath.ofString s).parts.foldlM t.enter ((WrittenPath.ofString s).start t.here) =
        .ok x := by
  rw [resolve, walk]
  cases WrittenPath.refusal? s with
  | some f => simp
  | none =>
    cases (WrittenPath.ofString s).blank with
    | true => simp [Except.mapError]
    | false =>
      simp only [Bool.false_eq_true, if_false, true_and]
      cases (WrittenPath.ofString s).parts.foldlM t.enter
        ((WrittenPath.ofString s).start t.here) <;> simp [Except.mapError]

theorem Alike.resolve (h : Alike t u) (hx : t.resolve s = .ok x) : u.resolve s = .ok x := by
  obtain ⟨hf, hb, hp⟩ := resolve_eq_ok.1 hx
  refine resolve_eq_ok.2 ⟨hf, hb, ?_⟩
  rw [← h.here]
  exact h.enter hp

theorem read_eq_ok {text : String} : t.read s = .ok text ↔
    ∃ x, t.resolve s = .ok x ∧ t.node? x = some (.file text) ∧
      (WrittenPath.ofString s).insists = false := by
  rw [read]
  cases t.resolve s with
  | error f => simp
  | ok x =>
    rcases hn : t.node? x with _ | old | _
    · simp [hn]
    · cases hi : (WrittenPath.ofString s).insists <;> simp [hn]
    · simp [hn]

theorem isFile_iff : t.isFile s = true ↔ ∃ x text, t.resolve s = .ok x ∧
    t.node? x = some (.file text) ∧ (WrittenPath.ofString s).insists = false := by
  rw [exists_comm]
  simp only [← read_eq_ok]
  rw [isFile]
  cases t.read s <;> simp [Except.isOk, Except.toBool]

theorem take_eq_ok {text : String} (hx : t.resolve s = .ok x)
    (hn : t.node? x = some (.file text)) (hi : (WrittenPath.ofString s).insists = false) :
    t.take s = .ok (text, t.erase x) := by
  rw [take, read_eq_ok.2 ⟨x, hx, hn, hi⟩, hx]

theorem moveTo_eq_ok {text : String} : t.moveTo s text = .ok u ↔
    ∃ x, t.resolve s = .ok x ∧ WrittenPath.endsInDots s = false ∧
      (WrittenPath.ofString s).insists = false ∧ t.node? x ≠ some .directory ∧
        u = t.put x (.file text) := by
  rw [moveTo]
  cases t.resolve s with
  | error f => simp
  | ok x =>
    cases WrittenPath.endsInDots s with
    | true => simp
    | false =>
      cases (WrittenPath.ofString s).insists with
      | true => simp
      | false => rcases hn : t.node? x with _ | _ | _ <;> simp [hn, eq_comm]

theorem checkNew_eq_ok {dir : Place} {length : Nat} : t.checkNew dir length = .ok () ↔
    WrittenPath.placeLength dir + length + 1 < WrittenPath.pathLimit ∧
      ∃ x, dir.foldlM t.enter [] = .ok x ∧ t.node? x = some .directory ∧
        length ≤ WrittenPath.nameLimit := by
  rw [checkNew]
  by_cases hp : WrittenPath.pathLimit ≤ WrittenPath.placeLength dir + length + 1
  · simp [hp, Nat.not_lt_of_le hp]
  · rw [if_neg hp]
    cases dir.foldlM t.enter [] with
    | error e => simp
    | ok x =>
      rcases hn : t.node? x with _ | _ | _
      · simp [hn]
      · simp [hn]
      · by_cases hl : WrittenPath.nameLimit < length
        · simp [hn, hl, Nat.not_le_of_lt hl]
        · simp [hn, hl, Nat.lt_of_not_le hp, Nat.le_of_not_lt hl]

theorem checkBeside_eq_ok : t.checkBeside s = .ok () ↔ WrittenPath.textRefusal? s = none ∧
    t.checkNew ((WrittenPath.ofString s).place t.here).dropLast
      (Text.byteLength (WrittenPath.lastPiece s) + temporaryExtra) = .ok () := by
  rw [checkBeside]
  cases WrittenPath.textRefusal? s with
  | some v => simp
  | none =>
    cases t.checkNew ((WrittenPath.ofString s).place t.here).dropLast
      (Text.byteLength (WrittenPath.lastPiece s) + temporaryExtra) <;> simp [Except.mapError]

theorem Alike.checkBeside (h : Alike t u) (hs : t.checkBeside s = .ok ()) :
    u.checkBeside s = .ok () := by
  obtain ⟨hv, hc⟩ := checkBeside_eq_ok.1 hs
  obtain ⟨hp, x, hx, hd, hl⟩ := checkNew_eq_ok.1 hc
  rw [h.here] at hp hx
  exact checkBeside_eq_ok.2
    ⟨hv, checkNew_eq_ok.2 ⟨hp, x, h.enter hx, (h.directories x).1 hd, hl⟩⟩

theorem Alike.moveTo (h : Alike t u) {text : String} {left : FileTree}
    (hs : t.moveTo s text = .ok left) : ∃ left, u.moveTo s text = .ok left := by
  obtain ⟨x, hx, hdots, hbare, hdir, -⟩ := moveTo_eq_ok.1 hs
  exact ⟨_, moveTo_eq_ok.2 ⟨x, h.resolve hx, hdots, hbare, mt (h.directories x).2 hdir, rfl⟩⟩

theorem directory_of_endsInDots (hr : t.Rooted) (hs : WrittenPath.endsInDots s = true)
    (hx : t.resolve s = .ok x) : t.node? x = some .directory := by
  obtain ⟨-, -, hp⟩ := resolve_eq_ok.1 hx
  rw [WrittenPath.endsInDots] at hs
  rcases List.eq_nil_or_concat (WrittenPath.ofString s).parts with hnil | ⟨init, last, hlast⟩
  · rw [hnil] at hp
    obtain rfl := Except.ok.inj hp
    rw [WrittenPath.start]
    by_cases ha : (WrittenPath.ofString s).absolute = true
    · rw [if_pos ha]
      rfl
    · rw [if_neg ha]
      exact hr.here
  · rw [hlast, List.concat_eq_append, List.foldlM_append] at hp
    rw [hlast, List.concat_eq_append, List.getLast?_concat] at hs
    obtain ⟨q, -, hp⟩ := Sequences.bind_ok hp
    rw [List.foldlM_cons] at hp
    obtain ⟨y, hy, hp⟩ := Sequences.bind_ok hp
    obtain rfl := Except.ok.inj hp
    obtain ⟨hq, -, rfl⟩ := enter_eq_ok.1 hy
    simp only [Bool.or_eq_true, beq_iff_eq] at hs
    rcases hs with rfl | rfl
    · exact hq
    · rcases List.eq_nil_or_concat q with rfl | ⟨r, name, rfl⟩
      · rfl
      · rw [List.concat_eq_append] at hq
        simpa [WrittenPath.descend] using hr.above r name hq

end FileTree

end TensorAsm
