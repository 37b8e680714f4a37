import Mathlib.Data.List.TakeWhile
import TensorAsm.Text.Blank
import TensorAsm.Text.Lines
/-!
Lines, words and fields of a text. A text that was put together from pieces falls into the same
pieces again, if no piece has a separator in it.
-/

namespace TensorAsm.Text

/-- A text without line breaks. -/
def OneLine (s : List Char) : Prop := ∀ c ∈ s, isBreak c = false

-- decided along the text, not over all characters
instance (s : List Char) : Decidable (OneLine s) :=
  decidable_of_iff (s.all (!isBreak ·) = true) (by simp [OneLine])

@[simp] theorem oneLine_nil : OneLine [] := by simp [OneLine]

@[simp] theorem oneLine_cons {c : Char} {s : List Char} :
    OneLine (c :: s) ↔ isBreak c = false ∧ OneLine s := by
  simp [OneLine]

@[simp] theorem oneLine_append {s t : List Char} : OneLine (s ++ t) ↔ OneLine s ∧ OneLine t := by
  simp [OneLine, or_imp, forall_and]

theorem OneLine.subset {s t : List Char} (h : OneLine t) (hs : s ⊆ t) : OneLine s :=
  fun c hc => h c (hs hc)

theorem oneLine_spaces {s : List Char} (h : ∀ c ∈ s, c = ' ') : OneLine s := by
  intro c hc
  rw [h c hc]
  rfl

theorem mem_intercalate {sep : List Char} {ls : List (List Char)} {c : Char}
    (h : c ∈ sep.intercalate ls) : c ∈ sep ∨ ∃ l ∈ ls, c ∈ l := by
  induction ls with
  | nil => simp at h
  | cons l ls ih =>
    cases ls with
    | nil => exact .inr ⟨l, by simp, by simpa using h⟩
    | cons l' ls =>
      rw [List.intercalate_cons_cons, List.mem_append, List.mem_append] at h
      rcases h with (h | h) | h
      · exact .inr ⟨l, by simp, h⟩
      · exact .inl h
      · obtain hs | ⟨x, hx, hc⟩ := ih h
        · exact .inl hs
        · exact .inr ⟨x, by simp [hx], hc⟩

theorem oneLine_intercalate {sep : List Char} {ls : List (List Char)} (hs : OneLine sep)
    (h : ∀ l ∈ ls, OneLine l) : OneLine (sep.intercalate ls) := by
  intro c hc
  rcases mem_intercalate hc with hc | ⟨l, hl, hc⟩
  · exact hs c hc
  · exact h l hl c hc

theorem last_intercalate (sep : List Char) {ls : List (List Char)} (hne : ls ≠ [])
    (h : ∀ l ∈ ls, l ≠ []) : ∃ l ∈ ls, (sep.intercalate ls).getLast? = l.getLast? := by
  induction ls with
  | nil => exact absurd rfl hne
  | cons l ls ih =>
    cases ls with
    | nil => exact ⟨l, by simp, by rw [List.intercalate_singleton]⟩
    | cons l' ls =>
      obtain ⟨x, hx, he⟩ := ih (by simp) fun y hy => h y (by simp [hy])
      refine ⟨x, by simp [hx], ?_⟩
      rw [List.intercalate_cons_cons, List.getLast?_append, he, Option.or_of_isSome]
      simpa using h x (by simp [hx])

theorem isBreak_solid {c : Char} (h : isBlank c = false) : isBreak c = false := by
  rw [Bool.eq_false_iff] at h ⊢
  intro hb
  apply h
  simp only [isBreak, isBlank, Bool.or_eq_true, Bool.and_eq_true, decide_eq_true_eq,
    beq_iff_eq] at hb ⊢
  omega

theorem linesFrom_cons {c : Char} {s : List Char} (line : List Char)
    (h : c = '\r' → s.head? ≠ some '\n') :
    linesFrom line (c :: s) =
      if isBreak c then line.reverse :: linesFrom [] s else linesFrom (c :: line) s := by
  rw [linesFrom]
  rintro s' rfl rfl
  exact h rfl rfl

theorem linesFrom_append (line s t : List Char) :
    linesFrom line (s ++ '\n' :: t) = linesFrom line (s ++ ['\n']) ++ lines t := by
  fun_induction linesFrom line s with
  | case1 line h => simp [linesFrom, isBreak, lines]
  | case2 line h => simp [linesFrom, isBreak, lines]
  | case3 line s ih => simp [linesFrom, ih]
  | case4 line c s hne hb ih | case5 line c s hne hb ih =>
    by_cases hr : c = '\r' ∧ s = []
    · obtain ⟨rfl, rfl⟩ := hr
      simp [linesFrom, lines]
    · have hhead : ∀ u, c = '\r' → (s ++ '\n' :: u).head? ≠ some '\n' := by
        rintro u rfl hu
        cases s with
        | nil => exact hr ⟨rfl, rfl⟩
        | cons d s =>
          obtain rfl : d = '\n' := by simpa using hu
          exact hne s rfl rfl
      rw [List.cons_append, List.cons_append, linesFrom_cons line (hhead t),
        linesFrom_cons line (hhead []), ih]
      simp [hb]

theorem linesFrom_oneLine {s : List Char} (h : OneLine s) (line t : List Char) :
    linesFrom line (s ++ '\n' :: t) = (line.reverse ++ s) :: lines t := by
  induction s generalizing line with
  | nil => simp [linesFrom, isBreak, lines]
  | cons c s ih =>
    obtain ⟨hc, hs⟩ := oneLine_cons.1 h
    have hr : c ≠ '\r' := by
      rintro rfl
      exact absurd hc (by decide)
    rw [List.cons_append, linesFrom_cons line (fun he => absurd he hr), hc, if_neg (by simp),
      ih hs]
    simp

theorem lines_oneLine {s : List Char} (h : OneLine s) : lines (s ++ ['\n']) = [s] :=
  linesFrom_oneLine h [] []

theorem lines_flatMap (ls : List (List Char)) :
    lines (ls.flatMap (· ++ ['\n'])) = ls.flatMap fun l => lines (l ++ ['\n']) := by
  induction ls with
  | nil => rfl
  | cons l ls ih =>
    rw [List.flatMap_cons, List.flatMap_cons, ← ih, List.append_assoc, List.singleton_append]
    exact linesFrom_append [] l _

theorem head_linesFrom (line s : List Char) :
    (linesFrom line (s ++ ['\n'])).head? = some (line.reverse ++ s.takeWhile (!isBreak ·)) := by
  fun_induction linesFrom line s with
  | case1 line h => simp [linesFrom, isBreak]
  | case2 line h => simp [linesFrom, isBreak]
  | case3 line s ih => simp [linesFrom, isBreak]
  | case4 line c s hne hb ih =>
    rw [List.cons_append, linesFrom.eq_def]
    split <;> simp_all
  | case5 line c s hne hb ih =>
    have hr : c ≠ '\r' := by
      rintro rfl
      exact hb rfl
    rw [List.cons_append, linesFrom_cons line (fun he => absurd he hr), if_neg hb, ih]
    simp [hb]

theorem exists_line {s : List Char} (h : OneLine s) (t : List Char) :
    ∃ u, u <+: t ∧ s ++ u ∈ lines (s ++ t ++ ['\n']) := by
  refine ⟨t.takeWhile (!isBreak ·), List.takeWhile_prefix _, List.mem_of_mem_head? ?_⟩
  rw [lines, head_linesFrom, List.takeWhile_append_of_pos fun c hc => by simp [h c hc]]
  rfl

/-! ## Words -/

/-- A text that is read as one word and has no comment in it. -/
structure Word (s : List Char) : Prop where
  ne_nil : s ≠ []
  solid : ∀ c ∈ s, isBlank c = false
  bare : ';' ∉ s

instance (s : List Char) : Decidable (Word s) :=
  decidable_of_iff (s ≠ [] ∧ s.all (!isBlank ·) = true ∧ ';' ∉ s)
    ⟨fun h => ⟨h.1, by simpa using h.2.1, h.2.2⟩,
      fun h => ⟨h.ne_nil, by simpa using h.solid, h.bare⟩⟩

theorem Word.oneLine {s : List Char} (h : Word s) : OneLine s :=
  fun c hc => isBreak_solid (h.solid c hc)

/-- Spaces between two words. -/
structure Gap (s : List Char) : Prop where
  ne_nil : s ≠ []
  spaces : ∀ c ∈ s, c = ' '

theorem gap_spaces (j k : Nat) : Gap (List.replicate j ' ' ++ ' ' :: List.replicate k ' ') := by
  refine ⟨by simp, fun c hc => ?_⟩
  rw [List.mem_append, List.mem_cons] at hc
  rcases hc with hc | hc | hc
  exacts [List.eq_of_mem_replicate hc, hc, List.eq_of_mem_replicate hc]

theorem wordsFrom_solid {w : List Char} (h : ∀ c ∈ w, isBlank c = false) (v s : List Char) :
    wordsFrom v (w ++ s) = wordsFrom (w.reverse ++ v) s := by
  induction w generalizing v with
  | nil => rfl
  | cons c w ih =>
    rw [List.cons_append, wordsFrom, h c (by simp), if_neg (by simp),
      ih fun d hd => h d (by simp [hd])]
    simp

theorem words_blank {c : Char} (h : isBlank c = true) (s : List Char) :
    words (c :: s) = words s := by
  rw [words, wordsFrom, if_pos h]
  rfl

theorem words_spaces {s : List Char} (h : ∀ c ∈ s, c = ' ') (t : List Char) :
    words (s ++ t) = words t := by
  induction s with
  | nil => rfl
  | cons c s ih =>
    obtain rfl := h c (by simp)
    rw [List.cons_append, words_blank rfl, ih fun d hd => h d (by simp [hd])]

theorem words_word {w : List Char} (h : ∀ c ∈ w, isBlank c = false) (hne : w ≠ []) {s : List Char}
    (hs : ∀ c ∈ s.head?, isBlank c = true) : words (w ++ s) = w :: words s := by
  have hr : w.reverse.isEmpty = false := by simpa using hne
  rw [words, wordsFrom_solid h, List.append_nil]
  cases s with
  | nil => simp [wordsFrom, words, hne]
  | cons c s => rw [words_blank (hs c rfl), wordsFrom, if_pos (hs c rfl), hr]; simp [words]

theorem mem_wordsFrom {v s w : List Char} (h : w ∈ wordsFrom v s)
    (hv : ∀ c ∈ v, isBlank c = false) :
    w ≠ [] ∧ ∀ c ∈ w, isBlank c = false ∧ (c ∈ v ∨ c ∈ s) := by
  -- a word that ends has been collected from its last character on
  have hend {v s : List Char} (hne : ¬v.isEmpty = true) (hv : ∀ c ∈ v, isBlank c = false) :
      v.reverse ≠ [] ∧ ∀ c ∈ v.reverse, isBlank c = false ∧ (c ∈ v ∨ c ∈ s) := by
    refine ⟨by simpa using hne, fun c hc => ?_⟩
    have hc := List.mem_reverse.1 hc
    exact ⟨hv c hc, .inl hc⟩
  induction s generalizing v with
  | nil =>
    rw [wordsFrom] at h
    split at h
    · simp at h
    · next hne =>
        obtain rfl := List.mem_singleton.1 h
        exact hend hne hv
  | cons d s ih =>
    rw [wordsFrom] at h
    by_cases hd : isBlank d = true
    · have hrest (hw : w ∈ wordsFrom [] s) :
          w ≠ [] ∧ ∀ c ∈ w, isBlank c = false ∧ (c ∈ v ∨ c ∈ d :: s) := by
        obtain ⟨hne, hall⟩ := ih hw (by simp)
        refine ⟨hne, fun c hc => ⟨(hall c hc).1, .inr ?_⟩⟩
        simpa using Or.inr ((hall c hc).2.resolve_left (by simp))
      rw [if_pos hd] at h
      split at h
      · exact hrest h
      · next hne =>
          rcases List.mem_cons.1 h with rfl | h
          · exact hend hne hv
          · exact hrest h
    · rw [if_neg hd] at h
      obtain ⟨hne, hall⟩ := ih h (by simpa [hd] using hv)
      refine ⟨hne, fun c hc => ⟨(hall c hc).1, ?_⟩⟩
      rcases (hall c hc).2 with hm | hm
      · rcases List.mem_cons.1 hm with rfl | hm
        · exact .inr (by simp)
        · exact .inl hm
      · exact .inr (by simp [hm])

theorem mem_words {s w : List Char} (h : w ∈ words s) :
    w ≠ [] ∧ (∀ c ∈ w, isBlank c = false) ∧ w ⊆ s := by
  obtain ⟨hne, hall⟩ := mem_wordsFrom h (by simp)
  refine ⟨hne, fun c hc => (hall c hc).1, fun c hc => ?_⟩
  exact (hall c hc).2.resolve_left (by simp)

/-! ## Fields -/

theorem trim_subset (s : List Char) : trim s ⊆ s := by
  intro c hc
  have hc := (List.dropWhile_sublist _).subset (List.mem_reverse.1 hc)
  exact (List.dropWhile_sublist _).subset (List.mem_reverse.1 hc)

theorem trimStart_solid {s : List Char} (h : ∀ c ∈ s.head?, isBlank c = false) :
    trimStart s = s := by
  cases s with
  | nil => rfl
  | cons c s => rw [trimStart, List.dropWhile_cons_of_neg (by simp [h c rfl])]

theorem trimEnd_solid {s : List Char} (h : ∀ c ∈ s.getLast?, isBlank c = false) :
    trimEnd s = s := by
  have hr := trimStart_solid (s := s.reverse) (by simpa using h)
  rw [trimEnd, ← trimStart, hr, List.reverse_reverse]

theorem trimStart_spaces {a : List Char} (h : ∀ c ∈ a, c = ' ') (s : List Char) :
    trimStart (a ++ s) = trimStart s := by
  apply List.dropWhile_append_of_pos
  intro c hc
  rw [h c hc]
  rfl

theorem trimEnd_append {s : List Char} (h : ∀ c ∈ s.getLast?, isBlank c = false)
    (t : List Char) : trimEnd (s ++ t) = s ++ trimEnd t := by
  rw [trimEnd, List.reverse_append, List.dropWhile_append]
  split
  · next he =>
      have ht : trimEnd t = [] := by simpa [trimEnd] using he
      rw [ht, List.append_nil]
      exact trimEnd_solid h
  · rw [List.reverse_append, List.reverse_reverse, trimEnd]

theorem prefix_mem_head {s t : List Char} (h : s <+: t) {c : Char} (hc : c ∈ s.head?) :
    c ∈ t.head? := by
  obtain ⟨r, rfl⟩ := h
  rw [List.head?_append, Option.mem_def, Option.mem_def.1 hc]
  rfl

theorem prefix_trimEnd (s : List Char) : trimEnd s <+: s := by
  rw [← List.reverse_suffix, trimEnd, List.reverse_reverse]
  exact List.dropWhile_suffix _

theorem trimEnd_spaces {a : List Char} (h : ∀ c ∈ a, c = ' ') : trimEnd a = [] := by
  rw [trimEnd, List.reverse_eq_nil_iff, List.dropWhile_eq_nil_iff]
  intro c hc
  rw [h c (List.mem_reverse.1 hc)]
  rfl

theorem trim_eq_nil {a : List Char} (h : ∀ c ∈ a, c = ' ') : trim a = [] := by
  rw [trim, ← List.append_nil a, trimStart_spaces h]
  rfl

theorem trim_spaces {a s b : List Char} (ha : ∀ c ∈ a, c = ' ') (hb : ∀ c ∈ b, c = ' ')
    (hne : s ≠ []) (hh : ∀ c ∈ s.head?, isBlank c = false)
    (hl : ∀ c ∈ s.getLast?, isBlank c = false) : trim (a ++ (s ++ b)) = s := by
  have hs : trimStart (s ++ b) = s ++ b := by
    apply trimStart_solid
    rwa [List.head?_append, Option.or_of_isSome (by simpa using hne)]
  rw [trim, trimStart_spaces ha, hs, trimEnd_append hl, trimEnd_spaces hb, List.append_nil]

variable {sep : Char} {s : List Char}

theorem ne_of_notMem (h : sep ∉ s) : ∀ c ∈ s, (c != sep) = true := by
  intro c hc
  rw [bne_iff_ne]
  rintro rfl
  exact h hc

theorem cut_append (h : sep ∉ s) (t : List Char) : cut sep (s ++ sep :: t) = (s, t) := by
  rw [cut, List.takeWhile_append_of_pos (ne_of_notMem h),
    List.dropWhile_append_of_pos (ne_of_notMem h)]
  simp

theorem cut_of_notMem (h : sep ∉ s) : cut sep s = (s, []) := by
  rw [cut, List.takeWhile_eq_self_iff.2 (ne_of_notMem h),
    List.dropWhile_eq_nil_iff.2 (ne_of_notMem h)]
  rfl

theorem cut_fst_append (h : sep ∉ s) (t : List Char) :
    (cut sep (s ++ t)).1 = s ++ (cut sep t).1 := by
  rw [cut, cut, List.takeWhile_append_of_pos (ne_of_notMem h)]

theorem notMem_cut (sep : Char) (s : List Char) : sep ∉ (cut sep s).1 := by
  intro h
  simpa using List.mem_takeWhile_imp h

theorem splitOn_ne_nil (sep : Char) (s : List Char) : splitOn sep s ≠ [] := by
  cases s with
  | nil => simp [splitOn]
  | cons c s =>
    rw [splitOn]
    split
    · simp
    · split <;> simp

theorem splitOn_of_notMem (h : sep ∉ s) : splitOn sep s = [s] := by
  induction s with
  | nil => rfl
  | cons c s ih =>
    rw [List.mem_cons, not_or] at h
    rw [splitOn, ih h.2]
    simp [Ne.symm h.1]

theorem splitOn_append (h : sep ∉ s) (t : List Char) :
    splitOn sep (s ++ sep :: t) = s :: splitOn sep t := by
  induction s with
  | nil =>
    rw [List.nil_append, splitOn]
    cases ht : splitOn sep t with
    | nil => exact absurd ht (splitOn_ne_nil sep t)
    | cons w ws => simp
  | cons c s ih =>
    rw [List.mem_cons, not_or] at h
    rw [List.cons_append, splitOn, ih h.2]
    simp [Ne.symm h.1]

/-- Words with spaces between them. -/
inductive Spaced : List (List Char) → List Char → Prop
  | one {w : List Char} : Word w → Spaced [w] w
  | cons {w gap s : List Char} {ws : List (List Char)} :
      Word w → Gap gap → Spaced ws s → Spaced (w :: ws) (w ++ (gap ++ s))

namespace Spaced

variable {ws : List (List Char)} {s : List Char}

theorem words_eq (h : Spaced ws s) : words s = ws := by
  induction h with
  | one hw =>
    have := words_word hw.solid hw.ne_nil (s := []) (by simp)
    simpa [words, wordsFrom] using this
  | @cons w gap s ws hw hg _ ih =>
    rw [words_word hw.solid hw.ne_nil, words_spaces hg.spaces, ih]
    intro c hc
    cases gap with
    | nil => exact absurd rfl hg.ne_nil
    | cons d gap =>
      obtain rfl : d = c := by simpa using hc
      rw [hg.spaces d (by simp)]
      rfl

theorem bare (h : Spaced ws s) : ';' ∉ s := by
  induction h with
  | one hw => exact hw.bare
  | cons hw hg _ ih =>
    simp only [List.mem_append, not_or]
    exact ⟨hw.bare, fun hm => absurd (hg.spaces _ hm) (by decide), ih⟩

theorem ne_nil (h : Spaced ws s) : s ≠ [] := by
  cases h with
  | one hw => exact hw.ne_nil
  | cons hw _ _ => simp [hw.ne_nil]

theorem head_eq (h : Spaced ws s) : s.head? = ws.head?.bind List.head? := by
  cases h with
  | one hw => rfl
  | cons hw _ _ =>
    rw [List.head?_append, Option.or_of_isSome (by simpa using hw.ne_nil)]
    rfl

theorem last_eq (h : Spaced ws s) : s.getLast? = ws.getLast?.bind List.getLast? := by
  induction h with
  | one hw => rfl
  | @cons w gap s ws hw hg hs ih =>
    have hws : ws ≠ [] := by cases hs <;> simp
    rw [← List.append_assoc, List.getLast?_append, Option.or_of_isSome (by simpa using hs.ne_nil),
      ih, List.getLast?_cons_of_ne_nil hws]

theorem word (h : Spaced ws s) : ∀ w ∈ ws, Word w := by
  induction h with
  | one hw => simpa using hw
  | cons hw _ _ ih => simpa using ⟨hw, ih⟩

theorem trim_eq (h : Spaced ws s) : trim s = s := by
  have hsolid : ∀ w c, w ∈ ws → c ∈ w → isBlank c = false := fun w c hw => (h.word w hw).solid c
  have hh : ∀ c ∈ s.head?, isBlank c = false := by
    intro c hc
    rw [h.head_eq] at hc
    obtain ⟨w, hw, hc⟩ := Option.bind_eq_some_iff.1 hc
    exact hsolid w c (List.mem_of_mem_head? hw) (List.mem_of_mem_head? hc)
  have hl : ∀ c ∈ s.getLast?, isBlank c = false := by
    intro c hc
    rw [h.last_eq] at hc
    obtain ⟨w, hw, hc⟩ := Option.bind_eq_some_iff.1 hc
    exact hsolid w c (List.mem_of_getLast? hw) (List.mem_of_getLast? hc)
  rw [trim, trimStart_solid hh, trimEnd_solid hl]

theorem oneLine (h : Spaced ws s) : OneLine s := by
  induction h with
  | one hw => exact hw.oneLine
  | cons hw hg _ ih =>
    exact oneLine_append.2 ⟨hw.oneLine, oneLine_append.2 ⟨oneLine_spaces hg.spaces, ih⟩⟩

end Spaced

end TensorAsm.Text
