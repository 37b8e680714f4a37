import Mathlib
import TensorAsm.Proofs.RoundTrip
import TensorAsm.Proofs.WitnessValues
/-!
Skeletons. A text is read as one exactly if its marked lines name the expected slots, each of them
once, and a program assembled with it has the lines of a slot in place of the line that names it.
-/

namespace TensorAsm

/-! ## Lines and what is left of them -/

namespace Text

theorem mem_linesFrom {line s l : List Char} (h : l ∈ linesFrom line s) (hl : OneLine line) :
    OneLine l := by
  have hreverse {line : List Char} (hl : OneLine line) : OneLine line.reverse :=
    fun c hc => hl c (List.mem_reverse.1 hc)
  fun_induction linesFrom line s with
  | case1 line _ => simp at h
  | case2 line _ => exact List.mem_singleton.1 h ▸ hreverse hl
  | case3 line s ih | case4 line c s _ _ ih =>
    rcases List.mem_cons.1 h with rfl | h
    · exact hreverse hl
    · exact ih h oneLine_nil
  | case5 line c s _ hb ih => exact ih h (oneLine_cons.2 ⟨by simpa using hb, hl⟩)

theorem mem_lines {s l : List Char} (h : l ∈ lines s) : OneLine l := mem_linesFrom h oneLine_nil

theorem solid_head {s : List Char} {c : Char} (h : c ∈ (trimStart s).head?) :
    isBlank c = false := by
  have hdrop := List.head?_dropWhile_not isBlank s
  rw [trimStart, Option.mem_def] at h
  simpa [h] using hdrop

theorem head_trim {s : List Char} {c : Char} (h : c ∈ (trim s).head?) : isBlank c = false :=
  solid_head (prefix_mem_head (prefix_trimEnd (trimStart s)) h)

theorem last_trim {s : List Char} {c : Char} (h : c ∈ (trim s).getLast?) : isBlank c = false := by
  rw [trim, trimEnd, List.getLast?_reverse] at h
  exact solid_head h

theorem trim_around {a s b : List Char} (h : ∀ c ∈ a ++ b, isBlank c = true)
    (hhead : ∀ c ∈ s.head?, isBlank c = false) (hlast : ∀ c ∈ s.getLast?, isBlank c = false) :
    trim (a ++ s ++ b) = s := by
  have ha : ∀ c ∈ a, isBlank c = true := fun c hc => h c (List.mem_append_left _ hc)
  have hb : ∀ c ∈ b, isBlank c = true := fun c hc => h c (List.mem_append_right _ hc)
  cases s with
  | nil =>
    rw [List.append_nil, trim, ← List.append_nil (a ++ b), trimStart_blanks h]
    rfl
  | cons c s =>
    have hstart : trimStart (c :: s ++ b) = c :: s ++ b := trimStart_solid hhead
    rw [trim, List.append_assoc, trimStart_blanks ha, hstart, trimEnd_append hlast,
      trimEnd_blanks hb, List.append_nil]

theorem word_before_blank {s rest : List Char} (hs : ∀ c ∈ s, isBlank c = false)
    (hrest : ∀ c ∈ rest.head?, isBlank c = true) :
    (s ++ rest).takeWhile (!isBlank ·) = s ∧ (s ++ rest).dropWhile (!isBlank ·) = rest := by
  have hsolid : ∀ c ∈ s, (!isBlank c) = true := fun c hc => by simp [hs c hc]
  rw [List.takeWhile_append_of_pos hsolid, List.dropWhile_append_of_pos hsolid]
  cases rest with
  | nil => simp
  | cons c rest => simp [hrest c rfl]

end Text

namespace Slot

theorem mem_all (s : Slot) : s ∈ all := by
  cases s <;> decide

theorem name_injective : Function.Injective name := by
  intro s t h
  cases s <;> cases t <;> first | rfl | exact absurd h (by decide)

theorem names_sorted {ss : List Slot} (h : ss.Nodup) :
    ((ss.map name).mergeSort fun a b => decide (a ≤ b)).Pairwise (· < ·) := by
  have hsorted : ((ss.map name).mergeSort fun a b => decide (a ≤ b)).Pairwise
      fun a b => decide (a ≤ b) = true := by
    apply List.pairwise_mergeSort
    · intro a b c hab hbc
      simp only [decide_eq_true_eq] at hab hbc ⊢
      exact hab.trans hbc
    · intro a b
      simpa using le_total a b
  have hnodup : ((ss.map name).mergeSort fun a b => decide (a ≤ b)).Nodup :=
    (List.mergeSort_perm _ _).nodup_iff.2 (h.map name_injective)
  exact (hsorted.and hnodup).imp fun hab => lt_of_le_of_ne (of_decide_eq_true hab.1) hab.2

theorem ofName?_eq_some_iff {x : String} {s : Slot} : ofName? x = some s ↔ s.name = x := by
  constructor
  · intro h
    simpa using List.find?_some h
  · rintro rfl
    cases s <;> rfl

theorem name_solid (s : Slot) : Text.Word s.name.toList := by
  cases s <;> decide

end Slot

namespace Skeleton

open Text

variable {l directive name : List Char} {s t : Slot}

/-! ## Markers -/

def Marked (l : List Char) : Prop :=
  ∃ front rest, (∀ c ∈ front, isBlank c = true) ∧ l = front ++ ';' :: '@' :: rest

/-- A marked line with its directive, which ends at a blank or with the line, and its name, which
may have blanks in it but none around it. -/
inductive Marker : List Char → List Char → List Char → Prop
  | intro {front directive gap name back : List Char}
      (hblank : ∀ c ∈ front ++ gap ++ back, isBlank c = true)
      (hdirective : ∀ c ∈ directive, isBlank c = false) (hgap : gap = [] → name = [])
      (hhead : ∀ c ∈ name.head?, isBlank c = false)
      (hlast : ∀ c ∈ name.getLast?, isBlank c = false) :
      Marker (front ++ ';' :: '@' :: (directive ++ (gap ++ name ++ back))) directive name

/-- A line that marks the place of a slot. -/
def Names (l : List Char) (s : Slot) : Prop := Marker l "slot".toList s.name.toList

theorem marked_iff : Marked l ↔ ∃ rest, trimStart l = ';' :: '@' :: rest := by
  constructor
  · rintro ⟨front, rest, hf, rfl⟩
    exact ⟨rest, by rw [trimStart_blanks hf, trimStart_solid (by simp [isBlank])]⟩
  · rintro ⟨rest, h⟩
    refine ⟨l.takeWhile isBlank, rest, fun c hc => List.mem_takeWhile_imp hc, ?_⟩
    rw [← h]
    exact List.takeWhile_append_dropWhile.symm

theorem marker?_eq_none_iff : marker? l = none ↔ ¬Marked l := by
  rw [marked_iff, marker?]
  split
  · next rest h => simp [h]
  · next hne =>
      simp only [true_iff]
      rintro ⟨rest, h⟩
      exact hne rest h

theorem marker?_of_trimStart {rest : List Char} (h : trimStart l = ';' :: '@' :: rest) :
    marker? l = some (String.ofList (rest.takeWhile (!isBlank ·)),
      String.ofList (trim (rest.dropWhile (!isBlank ·)))) := by
  have hdrop : rest.drop (rest.takeWhile (!isBlank ·)).length = rest.dropWhile (!isBlank ·) := by
    nth_rewrite 2 [← List.takeWhile_append_dropWhile (p := (!isBlank ·)) (l := rest)]
    rw [List.drop_left]
  rw [← hdrop, marker?, h]
  rfl

theorem Marker.split (h : Marker l directive name) :
    ∃ rest, trimStart l = ';' :: '@' :: rest ∧ rest.takeWhile (!isBlank ·) = directive ∧
      trim (rest.dropWhile (!isBlank ·)) = name := by
  obtain @⟨front, _, gap, _, back, hblank, hdirective, hgap, hhead, hlast⟩ := h
  have hfront : ∀ c ∈ front, isBlank c = true := fun c hc => hblank c (by simp [hc])
  have hends : ∀ c ∈ gap ++ back, isBlank c = true := by
    intro c hc
    rcases List.mem_append.1 hc with hc | hc <;> exact hblank c (by simp [hc])
  -- a directive is followed by a blank, since without a gap there is no name
  have hnext : ∀ c ∈ (gap ++ name ++ back).head?, isBlank c = true := by
    intro c hc
    cases gap with
    | nil =>
      rw [hgap rfl] at hc
      exact hends c (List.mem_of_mem_head? hc)
    | cons d gap =>
      obtain rfl : d = c := by simpa using hc
      exact hends d (by simp)
  obtain ⟨htake, hdrop⟩ := word_before_blank hdirective hnext
  refine ⟨_, by rw [trimStart_blanks hfront, trimStart_solid (by simp [isBlank])], htake, ?_⟩
  rw [hdrop, trim_around hends hhead hlast]

theorem Marker.marked (h : Marker l directive name) : Marked l := by
  obtain ⟨rest, hl, -⟩ := h.split
  exact marked_iff.2 ⟨rest, hl⟩

theorem marker_of_trimStart {rest : List Char} (h : trimStart l = ';' :: '@' :: rest) :
    Marker l (rest.takeWhile (!isBlank ·)) (trim (rest.dropWhile (!isBlank ·))) := by
  obtain ⟨gap, back, hrest, hblank⟩ := exists_trim (rest.dropWhile (!isBlank ·))
  have hl : l = l.takeWhile isBlank ++ ';' :: '@' :: (rest.takeWhile (!isBlank ·) ++
      (gap ++ trim (rest.dropWhile (!isBlank ·)) ++ back)) := by
    rw [← hrest, List.takeWhile_append_dropWhile, ← h]
    exact List.takeWhile_append_dropWhile.symm
  rw [hl]
  refine .intro ?_ ?_ ?_ (fun c hc => head_trim hc) fun c hc => last_trim hc
  · intro c hc
    rw [List.append_assoc] at hc
    rcases List.mem_append.1 hc with hc | hc
    · exact List.mem_takeWhile_imp hc
    · exact hblank c hc
  · intro c hc
    simpa using List.mem_takeWhile_imp hc
  · -- the first character behind a directive is a blank
    rintro rfl
    by_contra hne
    obtain ⟨c, s, hs⟩ := List.exists_cons_of_ne_nil hne
    have hc := head_trim (s := rest.dropWhile (!isBlank ·)) (c := c) (by rw [hs]; rfl)
    have hdrop := List.head?_dropWhile_not (!isBlank ·) rest
    rw [hrest, hs] at hdrop
    simp [hc] at hdrop

theorem marker?_eq_some_iff {directive name : String} :
    marker? l = some (directive, name) ↔ Marker l directive.toList name.toList := by
  constructor
  · intro h
    have hmarked : Marked l := by
      by_contra hn
      rw [marker?_eq_none_iff.2 hn] at h
      simp at h
    obtain ⟨rest, hl⟩ := marked_iff.1 hmarked
    rw [marker?_of_trimStart hl] at h
    obtain ⟨rfl, rfl⟩ := Prod.mk.inj (Option.some.inj h)
    rw [String.toList_ofList, String.toList_ofList]
    exact marker_of_trimStart hl
  · intro h
    obtain ⟨rest, hl, hd, hn⟩ := h.split
    rw [marker?_of_trimStart hl, hd, hn, String.ofList_toList, String.ofList_toList]

theorem Marker.unique {directive' name' : List Char} (h : Marker l directive name)
    (h' : Marker l directive' name') : directive = directive' ∧ name = name' := by
  obtain ⟨rest, hl, rfl, rfl⟩ := h.split
  obtain ⟨rest', hl', rfl, rfl⟩ := h'.split
  obtain rfl : rest = rest' := by simpa [hl] using hl'
  exact ⟨rfl, rfl⟩

theorem Names.unique (h : Names l s) (h' : Names l t) : s = t :=
  Slot.name_injective (String.toList_inj.1 (Marker.unique h h').2)

/-! ## Which texts are read -/

/-- Marked lines name expected slots, no slot is named on two lines, and all that are expected are
named. -/
structure Valid (expected : List Slot) (ls : List (List Char)) : Prop where
  named : ∀ l ∈ ls, Marked l → ∃ s ∈ expected, Names l s
  once : ls.Pairwise fun l l' => ∀ s, Names l s → ¬Names l' s
  complete : ∀ s ∈ expected, ∃ l ∈ ls, Names l s

/-- What can be wrong with lines. The first has the number one. -/
inductive Defective (expected : List Slot) (ls : List (List Char)) : SkeletonDefect → Prop
  | malformed {i : Nat} {l directive name : List Char} (hl : ls[i]? = some l)
      (hm : Marker l directive name) (h : directive ≠ "slot".toList ∨ name = []) :
      Defective expected ls (.malformedMarker (i + 1) (String.ofList (trim l)))
  | unknown {i : Nat} {l : List Char} {name : String} (hl : ls[i]? = some l)
      (hm : Marker l "slot".toList name.toList) (h : ∀ s : Slot, s.name ≠ name) :
      Defective expected ls (.unknownSlot (i + 1) name)
  | twice {i j : Nat} {l l' : List Char} {s : Slot} (hij : i < j) (hl : ls[i]? = some l)
      (hl' : ls[j]? = some l') (h : Names l s) (h' : Names l' s) :
      Defective expected ls (.slotTwice s.name (i + 1) (j + 1))
  | unexpected {i : Nat} {l : List Char} {s : Slot} (hl : ls[i]? = some l) (hs : Names l s)
      (h : s ∉ expected) : Defective expected ls (.unexpectedSlot (i + 1) s.name)
  | missing {names : List String} (hne : names ≠ []) (hsorted : names.Pairwise (· < ·))
      (h : ∀ x, x ∈ names ↔ ∃ s ∈ expected, s.name = x ∧ ∀ l ∈ ls, ¬Names l s) :
      Defective expected ls (.missingSlots names)

variable {expected : List Slot} {ls before : List (List Char)} {seen : List (Slot × Nat)}

theorem Defective.not_valid {d : SkeletonDefect} (h : Defective expected ls d) :
    ¬Valid expected ls := by
  intro hv
  cases h with
  | malformed hl hm h =>
    obtain ⟨s, -, hs⟩ := hv.named _ (List.mem_of_getElem? hl) hm.marked
    obtain ⟨rfl, rfl⟩ := hm.unique hs
    exact h.elim (absurd rfl) s.name_solid.ne_nil
  | unknown hl hm h =>
    obtain ⟨s, -, hs⟩ := hv.named _ (List.mem_of_getElem? hl) hm.marked
    exact h s (String.toList_inj.1 (Marker.unique hs hm).2)
  | twice hij hl hl' h h' =>
    obtain ⟨hi, rfl⟩ := List.getElem?_eq_some_iff.1 hl
    obtain ⟨hj, rfl⟩ := List.getElem?_eq_some_iff.1 hl'
    exact List.pairwise_iff_getElem.1 hv.once _ _ hi hj hij _ h h'
  | unexpected hl hs h =>
    obtain ⟨t, ht, hnames⟩ := hv.named _ (List.mem_of_getElem? hl) hs.marked
    exact h (hs.unique hnames ▸ ht)
  | missing hne _ h =>
    obtain ⟨x, hx⟩ := List.exists_mem_of_ne_nil _ hne
    obtain ⟨s, hs, -, hnone⟩ := (h x).1 hx
    obtain ⟨l, hl, hnames⟩ := hv.complete s hs
    exact hnone l hl hnames

/-- What is known of the lines that were read: the slots on them, with their numbers. -/
structure Noted (expected : List Slot) (before : List (List Char)) (seen : List (Slot × Nat)) :
    Prop where
  line : ∀ s n, (s, n) ∈ seen → ∃ i l, before[i]? = some l ∧ Names l s ∧ n = i + 1
  seen : ∀ l ∈ before, ∀ s, Names l s → ∃ n, (s, n) ∈ seen
  named : ∀ l ∈ before, Marked l → ∃ s ∈ expected, Names l s
  once : before.Pairwise fun l l' => ∀ s, Names l s → ¬Names l' s

namespace Noted

theorem fresh (h : Noted expected before seen) (hs : seen.lookup s = none) :
    ∀ l ∈ before, ¬Names l s := by
  intro l hl hnames
  obtain ⟨n, hn⟩ := h.seen l hl s hnames
  simpa using List.lookup_eq_none_iff.1 hs _ hn

theorem extend (h : Noted expected before seen) (more : List (Slot × Nat))
    (hline : ∀ s n, (s, n) ∈ more → Names l s ∧ n = before.length + 1)
    (hseen : ∀ s, Names l s → ∃ n, (s, n) ∈ more) (hnamed : Marked l → ∃ s ∈ expected, Names l s)
    (honce : ∀ l' ∈ before, ∀ s, Names l' s → ¬Names l s) :
    Noted expected (before ++ [l]) (more ++ seen) := by
  refine ⟨?_, ?_, ?_, List.pairwise_append.2 ⟨h.once, List.pairwise_singleton _ _, ?_⟩⟩
  · intro s n hn
    rcases List.mem_append.1 hn with hn | hn
    · obtain ⟨hnames, rfl⟩ := hline s n hn
      exact ⟨before.length, l, by simp, hnames, rfl⟩
    · obtain ⟨i, l', hl', hnames, rfl⟩ := h.line s n hn
      have hi := (List.getElem?_eq_some_iff.1 hl').1
      exact ⟨i, l', by rw [List.getElem?_append_left hi, hl'], hnames, rfl⟩
  · intro l' hl' s hnames
    rcases List.mem_append.1 hl' with hl' | hl'
    · obtain ⟨n, hn⟩ := h.seen l' hl' s hnames
      exact ⟨n, List.mem_append_right _ hn⟩
    · obtain ⟨n, hn⟩ := hseen s (List.mem_singleton.1 hl' ▸ hnames)
      exact ⟨n, List.mem_append_left _ hn⟩
  · intro l' hl'
    rcases List.mem_append.1 hl' with hl' | hl'
    · exact h.named l' hl'
    · exact List.mem_singleton.1 hl' ▸ hnamed
  · intro l' hl' l'' hl''
    exact List.mem_singleton.1 hl'' ▸ honce l' hl'

theorem unmarked (h : Noted expected before seen) (hl : ¬Marked l) :
    Noted expected (before ++ [l]) seen :=
  h.extend [] (by simp) (fun _ hs => absurd hs.marked hl) (fun hm => absurd hm hl)
    fun _ _ _ _ hs => hl hs.marked

theorem slot (h : Noted expected before seen) (hs : Names l s) (he : s ∈ expected)
    (hnew : ∀ l' ∈ before, ¬Names l' s) :
    Noted expected (before ++ [l]) ((s, before.length + 1) :: seen) := by
  refine h.extend [(s, before.length + 1)] ?_ ?_ (fun _ => ⟨s, he, hs⟩) ?_
  · intro t n ht
    obtain ⟨rfl, rfl⟩ := Prod.mk.inj (List.mem_singleton.1 ht)
    exact ⟨hs, rfl⟩
  · intro t ht
    exact ⟨_, List.mem_singleton.2 (by rw [ht.unique hs])⟩
  · intro l' hl' t ht hlt
    exact hnew l' hl' (hlt.unique hs ▸ ht)

theorem readMarker_cases (h : Noted expected before seen) (rest : List (List Char))
    {directive name : String} (hm : Marker l directive.toList name.toList) :
    (∃ s ∈ expected, readMarker expected seen (before.length + 1) l directive name = .ok s ∧
      Names l s ∧ ∀ l' ∈ before, ¬Names l' s) ∨
    ∃ d, readMarker expected seen (before.length + 1) l directive name = .error d ∧
      Defective expected (before ++ l :: rest) d := by
  have hl : (before ++ l :: rest)[before.length]? = some l := by simp
  unfold readMarker
  split
  · next hbad =>
      refine .inr ⟨_, rfl, .malformed hl hm ?_⟩
      rcases hbad with hne | hempty
      · exact .inl fun he => hne (String.toList_inj.1 he)
      · exact .inr (by simpa using hempty)
  next hgood =>
  obtain rfl : directive = "slot" := by
    by_contra hne
    exact hgood (.inl hne)
  split
  · next hnone =>
      refine .inr ⟨_, rfl, .unknown hl hm fun s hs => ?_⟩
      rw [Slot.ofName?_eq_some_iff.2 hs] at hnone
      exact absurd hnone (by simp)
  next s hsome =>
  obtain rfl := Slot.ofName?_eq_some_iff.1 hsome
  split
  · next first hfirst =>
      obtain ⟨pre, post, rfl, -⟩ := List.lookup_eq_some_iff.1 hfirst
      obtain ⟨i, l', hl', hnames, rfl⟩ := h.line s first (by simp)
      have hi := (List.getElem?_eq_some_iff.1 hl').1
      exact .inr ⟨_, rfl, .twice hi (by rw [List.getElem?_append_left hi, hl']) hl hnames hm⟩
  next hnew =>
  split
  · next he => exact .inl ⟨s, he, rfl, hm, h.fresh hnew⟩
  · next he => exact .inr ⟨_, rfl, .unexpected hl hm he⟩

end Noted

section Steps

variable {n : Nat} {rest : List (Nat × List Char)} {directive name : String}

theorem readLines_unmarked (h : ¬Marked l) : readLines expected seen ((n, l) :: rest) =
    (readLines expected seen rest).map (.line (String.ofList l) :: ·) := by
  rw [readLines, marker?_eq_none_iff.2 h]

theorem readLines_slot (hm : marker? l = some (directive, name))
    (hr : readMarker expected seen n l directive name = .ok s) :
    readLines expected seen ((n, l) :: rest) =
      (readLines expected ((s, n) :: seen) rest).map (.slot s :: ·) := by
  rw [readLines, hm]
  dsimp only
  rw [hr]

theorem readLines_defect (hm : marker? l = some (directive, name)) {d : SkeletonDefect}
    (hr : readMarker expected seen n l directive name = .error d) :
    readLines expected seen ((n, l) :: rest) = .error d := by
  rw [readLines, hm]
  dsimp only
  rw [hr]

end Steps

/-- A line and what is kept of it: the slot it names, or if it is not marked all of it. -/
def Splits (l : List Char) : Segment → Prop
  | .line text => ¬Marked l ∧ text.toList = l
  | .slot s => Names l s

namespace Noted

theorem readLines_nil (h : Noted expected before seen) :
    readLines expected seen [] = .ok [] ∧ Valid expected before ∨
    ∃ d, readLines expected seen [] = .error d ∧ Defective expected before d := by
  have hmissing {s : Slot} : s ∈ Slot.all.filter (fun s => s ∈ expected ∧ (seen.lookup s).isNone) ↔
      s ∈ expected ∧ ∀ l ∈ before, ¬Names l s := by
    simp only [List.mem_filter, Slot.mem_all, true_and, decide_eq_true_eq,
      Option.isNone_iff_eq_none]
    refine and_congr_right fun _ => ⟨h.fresh, fun hnone => ?_⟩
    by_contra hsome
    obtain ⟨n, hn⟩ := Option.ne_none_iff_exists'.1 hsome
    obtain ⟨pre, post, rfl, -⟩ := List.lookup_eq_some_iff.1 hn
    obtain ⟨i, l, hl, hnames, -⟩ := h.line s n (by simp)
    exact hnone l (List.mem_of_getElem? hl) hnames
  rw [readLines]
  split
  · next hnil =>
      refine .inl ⟨rfl, h.named, h.once, fun s hs => ?_⟩
      by_contra hno
      have hin := hmissing.2 ⟨hs, fun l hl hnames => hno ⟨l, hl, hnames⟩⟩
      rw [hnil] at hin
      simp at hin
  · next hne =>
      refine .inr ⟨_, rfl, .missing ?_ (Slot.names_sorted ?_) fun x => ?_⟩
      · rw [← List.length_pos_iff, List.length_mergeSort, List.length_map]
        exact List.length_pos_iff.2 hne
      · exact List.Nodup.filter _ (by decide)
      · simp only [List.mem_mergeSort, List.mem_map, hmissing, and_assoc]
        exact exists_congr fun s => and_congr_right fun _ => and_comm

/-- A run through the lines that are left. -/
theorem readLines_cases (h : Noted expected before seen) (rest : List (List Char)) :
    (∃ segments, readLines expected seen (numberedFrom (before.length + 1) rest) = .ok segments ∧
      List.Forall₂ Splits rest segments ∧ Valid expected (before ++ rest)) ∨
    ∃ d, readLines expected seen (numberedFrom (before.length + 1) rest) = .error d ∧
      Defective expected (before ++ rest) d := by
  induction rest generalizing before seen with
  | nil =>
    rw [List.append_nil]
    rcases h.readLines_nil with ⟨hr, hv⟩ | hd
    · exact .inl ⟨[], hr, .nil, hv⟩
    · exact .inr hd
  | cons l rest ih =>
    have hstep {more : List (Slot × Nat)} (hn : Noted expected (before ++ [l]) more) := ih hn
    simp only [List.length_append, List.length_singleton, List.append_assoc,
      List.singleton_append] at hstep
    rw [numberedFrom]
    cases hm : marker? l with
    | none =>
      have hl := marker?_eq_none_iff.1 hm
      have hkept : Splits l (.line (String.ofList l)) := ⟨hl, String.toList_ofList⟩
      rw [readLines_unmarked hl]
      rcases hstep (h.unmarked hl) with ⟨segments, hr, hs, hv⟩ | ⟨d, hr, hd⟩
      · exact .inl ⟨_, by rw [hr]; rfl, .cons hkept hs, hv⟩
      · exact .inr ⟨d, by rw [hr]; rfl, hd⟩
    | some x =>
      rcases h.readMarker_cases rest (marker?_eq_some_iff.1 hm) with
        ⟨s, he, hr, hs, hnew⟩ | ⟨d, hr, hd⟩
      · have hkept : Splits l (.slot s) := hs
        rw [readLines_slot hm hr]
        rcases hstep (h.slot hs he hnew) with ⟨segments, hr, hs, hv⟩ | ⟨d, hr, hd⟩
        · exact .inl ⟨_, by rw [hr]; rfl, .cons hkept hs, hv⟩
        · exact .inr ⟨d, by rw [hr]; rfl, hd⟩
      · exact .inr ⟨d, readLines_defect hm hr, hd⟩

end Noted

theorem read_cases (expected : List Slot) (text : String) :
    (∃ segments, read expected text = .ok segments ∧
      List.Forall₂ Splits (lines text.toList) segments ∧ Valid expected (lines text.toList)) ∨
    ∃ d, read expected text = .error d ∧ Defective expected (lines text.toList) d := by
  have hstart : Noted expected [] [] := ⟨by simp, by simp, by simp, .nil⟩
  exact hstart.readLines_cases (lines text.toList)

/-! ## Programs in a skeleton -/

/-- A line and what stands in its place: the lines of the slot it names, or the line itself. -/
def Replaces (p : Program) (l : List Char) (piece : List String) : Prop :=
  ¬Marked l ∧ piece = [String.ofList l] ∨ ∃ s, Names l s ∧ piece = Assembly.slotLines p s

/-- The lines of all pieces, with line feeds between them and one at the end. -/
def joined (pieces : List (List String)) : String :=
  String.intercalate "\n" pieces.flatten ++ "\n"

variable {segments : List Segment} {p : Program}

theorem Splits.replaces {segment : Segment} (h : Splits l segment) (p : Program) :
    Replaces p l (Assembly.segmentLines p segment) := by
  cases segment with
  | line text =>
    obtain ⟨hl, rfl⟩ := h
    exact .inl ⟨hl, by rw [String.ofList_toList]; rfl⟩
  | slot s => exact .inr ⟨s, h, rfl⟩

theorem render_joined (p : Program) (segments : List Segment) :
    Assembly.render p segments = joined (segments.map (Assembly.segmentLines p)) := rfl

theorem slot_mem_iff (hv : Valid expected ls) (h : List.Forall₂ Splits ls segments) :
    .slot s ∈ segments ↔ s ∈ expected := by
  constructor
  · intro hs
    obtain ⟨l, hl, hnames⟩ := Sequences.forall₂_mem_right h hs
    have hnames : Names l s := hnames
    obtain ⟨t, ht, hnames'⟩ := hv.named l hl hnames.marked
    exact hnames.unique hnames' ▸ ht
  · intro hs
    obtain ⟨l, hl, hnames⟩ := hv.complete s hs
    obtain ⟨segment, hmem, hsplit⟩ := Sequences.forall₂_of_mem h hl
    cases segment with
    | line text => exact absurd hnames.marked hsplit.1
    | slot t =>
      have hsplit : Names l t := hsplit
      exact hnames.unique hsplit ▸ hmem

theorem mem_numbers (hv : Valid expected ls) (h : List.Forall₂ Splits ls segments) {n : Int} :
    n ∈ segments.flatMap (Assembly.segmentNumbers p) ↔
      ∃ s ∈ expected, n ∈ Assembly.slotNumbers p s := by
  rw [List.mem_flatMap]
  constructor
  · rintro ⟨segment, hmem, hn⟩
    cases segment with
    | line text => simp [Assembly.segmentNumbers] at hn
    | slot s => exact ⟨s, (slot_mem_iff hv h).1 hmem, hn⟩
  · rintro ⟨s, hs, hn⟩
    exact ⟨.slot s, (slot_mem_iff hv h).2 hs, hn⟩

theorem lines_joined {text : String} (hv : Valid expected (lines text.toList))
    {pieces : List (List String)} (h : List.Forall₂ (Replaces p) (lines text.toList) pieces)
    (hne : pieces.flatten ≠ [])
    (hone : ∀ s ∈ expected, ∀ x ∈ Assembly.slotLines p s, OneLine x.toList) :
    lines (joined pieces).toList = pieces.flatten.map String.toList := by
  apply ProgramText.lines_text hne
  intro x hx
  obtain ⟨piece, hpiece, hx⟩ := List.mem_flatten.1 hx
  obtain ⟨l, hl, ⟨-, rfl⟩ | ⟨s, hs, rfl⟩⟩ := Sequences.forall₂_mem_right h hpiece
  · rw [List.mem_singleton.1 hx, String.toList_ofList]
    exact mem_lines hl
  · obtain ⟨t, ht, hnames⟩ := hv.named l hl hs.marked
    exact hone s (hs.unique hnames ▸ ht) x hx

theorem render?_cases (hv : Valid expected ls) (h : List.Forall₂ Splits ls segments)
    (p : Program) :
    (∀ s ∈ expected, ∀ n ∈ Assembly.slotNumbers p s, Numeral.isWritable n = true) ∧
      Assembly.render? p segments = .ok (Assembly.render p segments) ∨
    (∃ s ∈ expected, ∃ n ∈ Assembly.slotNumbers p s, Numeral.isWritable n = false) ∧
      Assembly.render? p segments = .error (.invalid .unwritable) := by
  rw [Assembly.render?, written]
  split
  · next hall =>
      refine .inl ⟨fun s hs n hn => ?_, rfl⟩
      exact List.all_eq_true.1 hall n ((mem_numbers hv h).2 ⟨s, hs, hn⟩)
  · next hall =>
      simp only [List.all_eq_true, not_forall, Bool.not_eq_true] at hall
      obtain ⟨n, hn, hw⟩ := hall
      obtain ⟨s, hs, hn⟩ := (mem_numbers hv h).1 hn
      exact .inr ⟨⟨s, hs, n, hn, hw⟩, rfl⟩

/-- A text is read if it is valid and refused with a true complaint if not. What is read keeps its
lines one by one, and the text of any program has these lines, with those of a slot in place of the
line that names it; there is such a text unless a number in a slot is too long. -/
theorem read_splices (expected : List Slot) (text : String) :
    ((∃ segments, read expected text = .ok segments) ↔ Valid expected (lines text.toList)) ∧
    (¬Valid expected (lines text.toList) → ∃ d, read expected text = .error d ∧
      Defective expected (lines text.toList) d ∧
      (CompileError.skeleton d).kind = "TemplateMalformed") ∧
    ∀ segments, read expected text = .ok segments →
      List.Forall₂ Splits (lines text.toList) segments ∧
      ∀ p : Program,
        (∀ s ∈ expected, ∀ n ∈ Assembly.slotNumbers p s, Numeral.isWritable n = true) ∧
          (∃ pieces, List.Forall₂ (Replaces p) (lines text.toList) pieces ∧
            Assembly.render? p segments = .ok (joined pieces) ∧
            (pieces.flatten ≠ [] →
              (∀ s ∈ expected, ∀ x ∈ Assembly.slotLines p s, OneLine x.toList) →
              lines (joined pieces).toList = pieces.flatten.map String.toList)) ∨
        (∃ s ∈ expected, ∃ n ∈ Assembly.slotNumbers p s, Numeral.isWritable n = false) ∧
          Assembly.render? p segments = .error (.invalid .unwritable) := by
  rcases read_cases expected text with ⟨segments, hr, hs, hv⟩ | ⟨d, hr, hd⟩
  · refine ⟨⟨fun _ => hv, fun _ => ⟨segments, hr⟩⟩, fun hn => absurd hv hn, ?_⟩
    intro segments' hr'
    obtain rfl := Except.ok.inj (hr.symm.trans hr')
    refine ⟨hs, fun p => ?_⟩
    rcases render?_cases hv hs p with ⟨hw, hp⟩ | hlong
    · have hpieces : List.Forall₂ (Replaces p) (lines text.toList)
          (segments.map (Assembly.segmentLines p)) :=
        List.forall₂_map_right_iff.2 (hs.imp fun _ _ h => h.replaces p)
      exact .inl ⟨hw, _, hpieces, by rw [hp, render_joined], lines_joined hv hpieces⟩
    · exact .inr hlong
  · refine ⟨⟨?_, fun hv => absurd hv hd.not_valid⟩, fun _ => ⟨d, hr, hd, rfl⟩, ?_⟩
    · rintro ⟨segments, hr'⟩
      exact absurd (hr.symm.trans hr') (by simp)
    · intro segments hr'
      exact absurd (hr.symm.trans hr') (by simp)

end Skeleton

namespace Indented

/-- Markers among tabs and separators, and breaks of several kinds. -/
def text : String := "; first\n\t;@slot\x1f BODY \r\n ; @slot BODY\u2028;@slot\u3000LAYOUT\x0c\n"

def segments : List Skeleton.Segment :=
  [.line "; first", .slot .body, .line " ; @slot BODY", .slot .layout, .line ""]

theorem reads : Skeleton.read [.layout, .body] text = .ok segments := rfl

theorem refused : Skeleton.read [.layout] text = .error (.unexpectedSlot 2 "BODY") := rfl

theorem lowers :
    ∃ p, (Program.lower "circuit" (Clamped.graph "y" (.int (-4)) (.int 7)) (Clamped.witness "y")
      default (.int 8) Field.defaultModulus).1 = .ok p ∧
      (∀ s ∈ [Slot.layout, .body], ∀ n ∈ Assembly.slotNumbers p s,
        Numeral.isWritable n = true) ∧
      ∀ s ∈ [Slot.layout, .body], ∀ x ∈ Assembly.slotLines p s, Text.OneLine x.toList :=
  Clamped.exists_ok_and (by decide +kernel)

end Indented

theorem Skeleton.indented_splices :
    Valid [.layout, .body] (Text.lines Indented.text.toList) ∧
    Defective [.layout] (Text.lines Indented.text.toList) (.unexpectedSlot 2 "BODY") ∧
    ∃ p, (Program.lower "circuit" (Clamped.graph "y" (.int (-4)) (.int 7)) (Clamped.witness "y")
        default (.int 8) Field.defaultModulus).1 = .ok p ∧
      ∃ pieces, List.Forall₂ (Replaces p) (Text.lines Indented.text.toList) pieces ∧
        Assembly.render? p Indented.segments = .ok (joined pieces) ∧
        (pieces.flatten ≠ [] →
          Text.lines (joined pieces).toList = pieces.flatten.map String.toList) := by
  obtain ⟨hvalid, -, hread⟩ := read_splices [.layout, .body] Indented.text
  obtain ⟨hvalid', hrefused, -⟩ := read_splices [.layout] Indented.text
  refine ⟨hvalid.1 ⟨_, Indented.reads⟩, ?_, ?_⟩
  · have hnot : ¬Valid [.layout] (Text.lines Indented.text.toList) := by
      intro hv
      obtain ⟨segments, h⟩ := hvalid'.2 hv
      exact absurd (Indented.refused.symm.trans h) (by simp)
    obtain ⟨d, hd, hdefective, -⟩ := hrefused hnot
    obtain rfl := Except.error.inj (Indented.refused.symm.trans hd)
    exact hdefective
  · obtain ⟨p, hp, hw, hone⟩ := Indented.lowers
    rcases (hread _ Indented.reads).2 p with ⟨-, pieces, hpieces, htext, hlines⟩ | ⟨hlong, -⟩
    · exact ⟨p, hp, pieces, hpieces, htext, fun hne => hlines hne hone⟩
    · obtain ⟨s, hs, n, hn, hlong⟩ := hlong
      exact absurd (hw s hs n hn) (by simp [hlong])

namespace LongShift

def graph (scale : Int) : Circuit.Graph :=
  ⟨[⟨"x", [1], scale, .priv⟩, ⟨"y", [1], -1, .priv⟩], [⟨1, "rescale", ["x"], "y", -1, []⟩],
    ["x"], ["y"]⟩

def circuit (scale : Int) : Json := (graph scale).document

def values : Json := .obj [("x", .arr [.int 1]), ("y", .arr [.int 1])]

def witness : Witness := [("x", ⟨[1], #[1]⟩), ("y", ⟨[1], #[1]⟩)]

def scale : Int := Numeral.writeLimit - 1

def text : String :=
  ";@slot LAYOUT\n;@slot PUBLIC\n;@slot TABLES\n;@slot OUTPUTS\nmain:\n;@slot BODY\n    halt\n"

def segments : List Skeleton.Segment :=
  [.slot .layout, .slot .pub, .slot .tables, .slot .outputs, .line "main:", .slot .body,
    .line "    halt"]

theorem read_circuit (scale : Int) : Circuit.read (circuit scale) = .ok (graph scale) := by
  cbv

theorem read_values (scale : Int) :
    Witness.read Field.defaultModulus (graph scale) values = .ok witness := by
  cbv

theorem lowers :
    ∃ p, (Program.lower "circuit" (graph scale) witness default (.int 8)
      Field.defaultModulus).1 = .ok p ∧
      ∃ n ∈ Assembly.slotNumbers p .body, Numeral.isWritable n = false :=
  Clamped.exists_ok_and (by decide +kernel)

end LongShift

/-- A skeleton with all slots, and a program with a number in its body that is too long. -/
theorem Skeleton.long_shift_unassembled :
    (∃ p, Circuit.read (LongShift.circuit LongShift.scale) = .ok (LongShift.graph LongShift.scale) ∧
      Witness.read Field.defaultModulus (LongShift.graph LongShift.scale) LongShift.values =
        .ok LongShift.witness ∧
      (Program.lower "circuit" (LongShift.graph LongShift.scale) LongShift.witness default (.int 8)
        Field.defaultModulus).1 = .ok p ∧
      ∃ segments, read Slot.all LongShift.text = .ok segments ∧
        Assembly.render? p segments = .error (.invalid .unwritable)) ∧
    read [] "" = .ok [] ∧
      ∀ p, Assembly.render? p [] = .ok "\n" ∧ Text.lines "\n".toList = [[]] := by
  refine ⟨?_, rfl, fun p => ⟨rfl, rfl⟩⟩
  obtain ⟨p, hp, n, hn, hlong⟩ := LongShift.lowers
  refine ⟨p, LongShift.read_circuit _, LongShift.read_values _, hp, LongShift.segments, rfl, ?_⟩
  rw [Assembly.render?, written, if_neg]
  intro hall
  have hw := List.all_eq_true.1 hall n
    (List.mem_flatMap.2 ⟨.slot .body, by decide, hn⟩)
  exact absurd hw (by simp [hlong])

end TensorAsm
