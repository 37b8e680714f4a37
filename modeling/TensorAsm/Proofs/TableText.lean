import TensorAsm.Proofs.Contents
import TensorAsm.Proofs.ProgramLines
/-!
The text of a memory table is read back row by row.
-/

namespace TensorAsm

namespace Text

theorem linesFrom_break {line s : List Char} (hne : line ≠ [] ∨ s ≠ [])
    (h : ∀ c ∈ s.getLast?, isBreak c = false) :
    linesFrom line (s ++ ['\n']) = linesFrom line s := by
  fun_induction linesFrom line s with
  | case1 line he => simp_all
  | case2 line he => simp [linesFrom, isBreak]
  | case3 line s ih =>
    cases s with
    | nil => exact absurd (h '\n' rfl) (by decide)
    | cons c s =>
      rw [List.cons_append, List.cons_append, linesFrom, ih (.inr (by simp))]
      simpa using h
  | case4 line c s hcrlf hb ih =>
    cases s with
    | nil => rw [h c rfl] at hb; exact absurd hb (by simp)
    | cons d s =>
      rw [List.cons_append, linesFrom_cons line, if_pos hb, ih (.inr (by simp))]
      · simpa using h
      · rintro rfl hd
        obtain rfl : d = '\n' := by simpa using hd
        exact hcrlf s rfl rfl
  | case5 line c s hcrlf hb ih =>
    have hr : c ≠ '\r' := by
      rintro rfl
      exact hb (by decide)
    rw [List.cons_append, linesFrom_cons line (fun he => absurd he hr), if_neg hb,
      ih (.inl (by simp))]
    intro d hd
    cases s with
    | nil => simp at hd
    | cons e s => exact h d (by simpa using hd)

theorem lines_trim {first : String} {rest : List String}
    (hone : ∀ l ∈ first :: rest, OneLine l.toList) (hne : ∀ l ∈ first :: rest, l.toList ≠ [])
    (hhead : ∀ c ∈ first.toList.head?, isBlank c = false)
    (hlast : ∀ l ∈ first :: rest, ∀ c ∈ l.toList.getLast?, isBlank c = false) :
    lines (trim (String.intercalate "\n" (first :: rest) ++ "\n").toList) =
      (first :: rest).map String.toList := by
  rw [← ProgramText.lines_text (List.cons_ne_nil _ _) hone, String.toList_append,
    String.toList_intercalate]
  generalize hb : "\n".toList.intercalate ((first :: rest).map String.toList) = body
  have hend : ∀ c ∈ body.getLast?, isBlank c = false := by
    obtain ⟨l, hl, he⟩ := last_intercalate "\n".toList
      (List.cons_ne_nil first.toList (rest.map String.toList)) (by simpa using hne)
    obtain ⟨x, hx, rfl⟩ := List.mem_map.1 (List.map_cons ▸ hl)
    rw [← hb, List.map_cons, he]
    exact hlast x hx
  obtain ⟨c, s, hs⟩ := List.exists_cons_of_ne_nil (hne first (by simp))
  obtain ⟨t, ht⟩ : ∃ t, body = c :: t := by
    cases rest with
    | nil => exact ⟨s, by rw [← hb, ← hs]; exact List.intercalate_singleton⟩
    | cons l ls =>
      rw [← hb, List.map_cons, List.map_cons, List.intercalate_cons_cons, hs]
      exact ⟨_, rfl⟩
  have hstart : ∀ d ∈ (body ++ "\n".toList).head?, isBlank d = false := by
    rw [ht]
    rw [hs] at hhead
    simpa using hhead
  rw [trim, trimStart_solid hstart, trimEnd_append hend]
  have hbreak : linesFrom [] (body ++ ['\n']) = linesFrom [] body :=
    linesFrom_break (.inr (ht ▸ List.cons_ne_nil c t)) fun d hd => isBreak_solid (hend d hd)
  exact (congrArg lines (List.append_nil body)).trans hbreak.symm

end Text

namespace MemoryTable

open Text

theorem toList_renderRow (c : Cell) : (renderRow c).toList =
    (Numeral.write c.address).toList ++ ',' :: (Numeral.write c.value).toList := by
  simp [renderRow]

theorem comma_notMem (n : Int) : ',' ∉ (Numeral.write n).toList := by
  intro h
  rcases Numeral.mem_write h with hd | ⟨he, -⟩
  · exact absurd hd (by decide)
  · exact absurd he (by decide)

theorem readNumber_write {n : Int} (h : Numeral.isWritable n = true) :
    readNumber (Numeral.write n).toList = .ok n := by
  rw [readNumber, String.ofList_toList, Numeral.read_write h]
  rfl

theorem readRow_renderRow {c : Cell} (ha : Numeral.isWritable c.address = true)
    (hv : Numeral.isWritable c.value = true) :
    readRow (renderRow c).toList = .ok (c.address, c.value) := by
  rw [readRow, toList_renderRow, splitOn_append (comma_notMem _),
    splitOn_of_notMem (comma_notMem _)]
  simp only [readNumber_write ha, readNumber_write hv]
  rfl

theorem oneLine_renderRow (c : Cell) : OneLine (renderRow c).toList := by
  rw [toList_renderRow]
  exact oneLine_append.2 ⟨Numeral.oneLine_write _,
    oneLine_cons.2 ⟨by decide, Numeral.oneLine_write _⟩⟩

theorem last_renderRow (c : Cell) : ∀ d ∈ (renderRow c).toList.getLast?, isBlank d = false := by
  intro d hd
  rw [toList_renderRow, List.append_cons, List.getLast?_append,
    Option.or_of_isSome (by simpa using Numeral.write_ne_nil c.value)] at hd
  exact (Numeral.word_write c.value).solid d (List.mem_of_getLast? hd)

theorem readRows_render {cells : List Cell} (h : ∀ n ∈ numbers cells, Numeral.isWritable n = true) :
    readRows (render cells) = .ok (entries cells) := by
  have hheader : Word header.toList := by decide
  have hone : ∀ l ∈ header :: cells.map renderRow, OneLine l.toList := by
    intro l hl
    rcases List.mem_cons.1 hl with rfl | hl
    · exact hheader.oneLine
    · obtain ⟨c, -, rfl⟩ := List.mem_map.1 hl
      exact oneLine_renderRow c
  have hlast : ∀ l ∈ header :: cells.map renderRow,
      l.toList ≠ [] ∧ ∀ c ∈ l.toList.getLast?, isBlank c = false := by
    intro l hl
    rcases List.mem_cons.1 hl with rfl | hl
    · exact ⟨hheader.ne_nil, fun c hc => hheader.solid c (List.mem_of_getLast? hc)⟩
    · obtain ⟨c, -, rfl⟩ := List.mem_map.1 hl
      exact ⟨by simp [toList_renderRow], last_renderRow c⟩
  have hrows : (cells.map fun c => (renderRow c).toList).mapM readRow = .ok (entries cells) := by
    clear hone hlast
    induction cells with
    | nil => rfl
    | cons c cells ih =>
      have hc := readRow_renderRow (h c.address (by simp [numbers]))
        (h c.value (by simp [numbers]))
      rw [List.map_cons, List.mapM_cons, hc, ih fun n hn => h n (List.mem_append_right _ hn)]
      rfl
  rw [readRows, render, lines_trim hone (fun l hl => (hlast l hl).1)
    (fun c hc => hheader.solid c (List.mem_of_mem_head? hc)) fun l hl => (hlast l hl).2,
    List.map_cons, List.map_map]
  exact (if_pos (by decide)).trans hrows

theorem readRows_of_render? {cells : List Cell} {text : String} (h : render? cells = .ok text) :
    readRows text = .ok (entries cells) := by
  rw [render?, written] at h
  split at h
  · next hall =>
      rw [← Except.ok.inj h]
      exact readRows_render (List.all_eq_true.1 hall)
  · simp at h

end MemoryTable

end TensorAsm
