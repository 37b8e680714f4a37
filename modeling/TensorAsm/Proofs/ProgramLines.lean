import Mathlib.Data.List.Forall2
import TensorAsm.Proofs.InstructionText
import TensorAsm.Proofs.Sequences
/-!
Program texts line by line: what the lines of a text hold is what the text holds, and directives
are read back.
-/

namespace TensorAsm.ProgramText

open Text

/-- A line that holds an item wherever it stands. -/
structure Reads (l : String) (item : Item) : Prop where
  oneLine : OneLine l.toList
  readLine : ∀ n, ProgramText.readLine n l.toList = .ok item

theorem toList_lines {ls : List String} (hne : ls ≠ []) :
    (String.intercalate "\n" ls ++ "\n").toList =
      (ls.map String.toList).flatMap (· ++ ['\n']) := by
  rw [String.toList_append, String.toList_intercalate]
  induction ls with
  | nil => exact absurd rfl hne
  | cons l ls ih =>
    cases ls with
    | nil => simp
    | cons l' ls =>
      rw [List.map_cons, List.map_cons, List.intercalate_cons_cons, List.flatMap_cons,
        ← List.map_cons, ← ih (by simp)]
      simp

theorem lines_text {ls : List String} (hne : ls ≠ []) (h : ∀ l ∈ ls, OneLine l.toList) :
    lines (String.intercalate "\n" ls ++ "\n").toList = ls.map String.toList := by
  rw [toList_lines hne, lines_flatMap, List.flatMap_map]
  clear hne
  induction ls with
  | nil => rfl
  | cons l ls ih =>
    rw [List.flatMap_cons, lines_oneLine (h l (by simp)), ih fun l' hl' => h l' (by simp [hl']),
      List.map_cons, List.singleton_append]

theorem mapM_numbered {ls : List String} {items : List Item} (h : List.Forall₂ Reads ls items)
    (k : Nat) :
    (numberedFrom k (ls.map String.toList)).mapM (fun x => readLine x.1 x.2) = .ok items := by
  induction h generalizing k with
  | nil => rfl
  | cons hl _ ih =>
    rw [List.map_cons, numberedFrom, List.mapM_cons, hl.readLine k, ih (k + 1)]
    rfl

theorem read_lines {ls : List String} {items : List Item} (hne : ls ≠ [])
    (h : List.Forall₂ Reads ls items) :
    read (String.intercalate "\n" ls ++ "\n") = .ok (ofItems items) := by
  have hone : ∀ l ∈ ls, OneLine l.toList := by
    intro l hl
    obtain ⟨item, -, hi⟩ := Sequences.forall₂_of_mem h hl
    exact hi.oneLine
  rw [read, lines_text hne hone, mapM_numbered h]
  rfl

theorem mem_numbered {α : Type} {xs : List α} {x : α} (h : x ∈ xs) (k : Nat) :
    ∃ n, (n, x) ∈ numberedFrom k xs := by
  induction xs generalizing k with
  | nil => simp at h
  | cons y xs ih =>
    rcases List.mem_cons.1 h with rfl | h
    · exact ⟨k, by simp [numberedFrom]⟩
    · obtain ⟨n, hn⟩ := ih h (k + 1)
      exact ⟨n, by simp [numberedFrom, hn]⟩

theorem read_items {text : String} {t : ProgramText} (h : read text = .ok t) :
    ∃ items, (numberedFrom 1 (lines text.toList)).mapM (fun x => readLine x.1 x.2) = .ok items ∧
      t = ofItems items := by
  unfold read at h
  cases hm : (numberedFrom 1 (lines text.toList)).mapM fun x => readLine x.1 x.2 with
  | error f => simp [hm, Except.map] at h
  | ok items => exact ⟨items, rfl, by simpa [hm, Except.map, eq_comm] using h⟩

theorem readLine_of_read {text : String} {t : ProgramText} (h : read text = .ok t)
    {l : List Char} (hl : l ∈ lines text.toList) : ∃ n item, readLine n l = .ok item := by
  obtain ⟨items, hitems, -⟩ := read_items h
  obtain ⟨n, hn⟩ := mem_numbered hl 1
  obtain ⟨item, -, hi⟩ := Sequences.mapM_of_mem hitems hn
  exact ⟨n, item, hi⟩

theorem readOutput_name {ws : List (List Char)} {item : Item} (h : readOutput ws = .ok item) :
    ∃ o, item = .output o ∧ o.name.toList ∈ ws := by
  obtain ⟨scale, -, h⟩ := Sequences.bind_ok h
  obtain ⟨name, hn, h⟩ := Sequences.bind_ok h
  obtain ⟨first, -, h⟩ := Sequences.bind_ok h
  obtain ⟨base, -, h⟩ := Sequences.bind_ok h
  obtain ⟨second, -, h⟩ := Sequences.bind_ok h
  obtain ⟨length, -, h⟩ := Sequences.bind_ok h
  refine ⟨_, (Except.ok.inj h).symm, ?_⟩
  unfold word at hn
  split at hn
  · next w hw =>
      obtain rfl := Except.ok.inj hn
      simpa using List.mem_of_getElem? hw
  · simp at hn

theorem readRegion_item {ws : List (List Char)} {item : Item} (h : readRegion ws = .ok item) :
    ∃ name use, item = .region name use := by
  obtain ⟨second, -, h⟩ := Sequences.bind_ok h
  obtain ⟨base, -, h⟩ := Sequences.bind_ok h
  obtain ⟨third, -, h⟩ := Sequences.bind_ok h
  obtain ⟨size, -, h⟩ := Sequences.bind_ok h
  obtain ⟨fourth, -, h⟩ := Sequences.bind_ok h
  obtain ⟨used, -, h⟩ := Sequences.bind_ok h
  obtain ⟨name, -, h⟩ := Sequences.bind_ok h
  exact ⟨_, _, (Except.ok.inj h).symm⟩

theorem readInstruction_item {n : Nat} {s : List Char} {item : Item}
    (h : readInstruction n s = .ok item) : ∃ i, item = .instruction i := by
  unfold readInstruction at h
  dsimp only at h
  split at h
  · simp [throw, throwThe, MonadExceptOf.throw] at h
  · obtain ⟨r, -, h⟩ := Sequences.bind_ok h
    split at h
    · exact ⟨_, (Except.ok.inj h).symm⟩
    · simp [throw, throwThe, MonadExceptOf.throw] at h

theorem readDirective_output {s : List Char} {o : OutputRange}
    (h : readDirective s = .ok (.output o)) : o.name.toList ∈ words s := by
  unfold readDirective at h
  dsimp only at h
  split at h
  · obtain ⟨o', he, hm⟩ := readOutput_name h
    obtain rfl := Item.output.inj he
    exact hm
  · obtain ⟨name, use, he⟩ := readRegion_item h
    simp at he
  · obtain ⟨w, -, h⟩ := Sequences.bind_ok h
    obtain ⟨cell, -, h⟩ := Sequences.bind_ok h
    exact absurd (Except.ok.inj h) (by simp)
  · simp at h

theorem readLine_output {n : Nat} {l : List Char} {o : OutputRange}
    (h : readLine n l = .ok (.output o)) : Word o.name.toList := by
  unfold readLine at h
  dsimp only at h
  split at h
  · simp at h
  split at h
  · obtain ⟨hne, hsolid, hsub⟩ := mem_words (readDirective_output h)
    exact ⟨hne, hsolid, fun hm => notMem_cut ';' l (trim_subset _ (hsub hm))⟩
  · obtain ⟨i, he⟩ := readInstruction_item h
    simp at he

theorem read_outputs {text : String} {t : ProgramText} (h : read text = .ok t) {o : OutputRange}
    (ho : o ∈ t.outputs) : Word o.name.toList := by
  obtain ⟨items, hitems, rfl⟩ := read_items h
  obtain ⟨item, hmem, hi⟩ := List.mem_filterMap.1 ho
  obtain ⟨x, -, hx⟩ := Sequences.mapM_mem hitems hmem
  cases item with
  | output o' =>
    obtain rfl : o' = o := by simpa [Item.output?] using hi
    exact readLine_output hx
  | _ => simp [Item.output?] at hi

/-! ## Directives -/

theorem readLine_directive {w : List Char} {ws : List (List Char)} {s : List Char}
    (h : Spaced (w :: ws) s) (hdot : w.head? = some '.') (hcolon : s.getLast? ≠ some ':')
    (n : Nat) : readLine n s = readDirective s := by
  have hhead : s.head? = some '.' := by
    rw [h.head_eq]
    exact hdot
  simp only [readLine, cut_of_notMem h.bare, h.trim_eq, List.isEmpty_iff, h.ne_nil, hcolon, hhead,
    or_self, if_false, if_true]

theorem readLine_skipped {name : String} (hw : Word name.toList)
    (hdot : name.toList.head? = some '.')
    (hne : name ≠ ".output" ∧ name ≠ ".namespace" ∧ name ≠ ".zero") {r : List Char}
    (hr : ∀ c ∈ r.head?, c = ' ') (n : Nat) : readLine n (name.toList ++ r) = .ok .nothing := by
  have hsolid : ∀ c ∈ name.toList.head?, isBlank c = false :=
    fun c hc => hw.solid c (List.mem_of_mem_head? hc)
  have hsome : name.toList.head?.isSome := by simp [hdot]
  have htrim : trim (cut ';' (name.toList ++ r)).1 = name.toList ++ trimEnd (cut ';' r).1 := by
    rw [cut_fst_append hw.bare, trim, trimStart_solid, trimEnd_append]
    · exact fun c hc => hw.solid c (List.mem_of_getLast? hc)
    · rwa [List.head?_append, Option.or_of_isSome hsome]
  have hrest : ∀ c ∈ (trimEnd (cut ';' r).1).head?, isBlank c = true := by
    intro c hc
    have hp : trimEnd (cut ';' r).1 <+: r := (prefix_trimEnd _).trans (List.takeWhile_prefix _)
    rw [hr c (prefix_mem_head hp hc)]
    rfl
  have hhead : (name.toList ++ trimEnd (cut ';' r).1).head? = some '.' := by
    rw [List.head?_append, hdot]
    rfl
  have hnil : name.toList ++ trimEnd (cut ';' r).1 ≠ [] := by simp [hw.ne_nil]
  have hdirective : readDirective (name.toList ++ trimEnd (cut ';' r).1) = .ok .nothing := by
    unfold readDirective
    rw [words_word hw.solid hw.ne_nil hrest]
    simp only [List.head?_cons, Option.map_some, String.ofList_toList]
    split
    · next he => exact absurd (Option.some.inj he) hne.1
    · next he => exact absurd (Option.some.inj he) hne.2.1
    · next he => exact absurd (Option.some.inj he) hne.2.2
    · rfl
  simp only [readLine, htrim, List.isEmpty_iff, hnil, false_or, hhead, if_true, hdirective,
    ite_self]

theorem reads_skipped (name : String) {l : String} (hw : Word name.toList)
    (hdot : name.toList.head? = some '.')
    (hne : name ≠ ".output" ∧ name ≠ ".namespace" ∧ name ≠ ".zero") {r : List Char}
    (hl : l.toList = name.toList ++ ' ' :: r) (hr : OneLine r) : Reads l .nothing := by
  refine ⟨?_, fun n => by rw [hl, readLine_skipped hw hdot hne (by simp)]⟩
  rw [hl, oneLine_append, oneLine_cons]
  exact ⟨hw.oneLine, rfl, hr⟩

theorem reads_comment {l : String} {a r : List Char} (ha : ∀ c ∈ a, c = ' ')
    (hl : l.toList = a ++ ';' :: r) (hr : OneLine r) : Reads l .nothing := by
  have hbare : ';' ∉ a := fun hm => absurd (ha _ hm) (by decide)
  refine ⟨?_, fun n => ?_⟩
  · rw [hl, oneLine_append, oneLine_cons]
    exact ⟨oneLine_spaces ha, rfl, hr⟩
  · simp [readLine, hl, cut_append hbare, trim_eq_nil ha]

theorem reads_directive {l : String} {w v : List Char} {ws : List (List Char)} {item : Item}
    (h : Spaced (w :: ws) l.toList) (hdot : w.head? = some '.')
    (hlast : (w :: ws).getLast? = some v) (hv : ':' ∉ v)
    (hr : readDirective l.toList = .ok item) : Reads l item := by
  refine ⟨h.oneLine, fun n => ?_⟩
  have hcolon : l.toList.getLast? ≠ some ':' := by
    rw [h.last_eq, hlast]
    exact fun he => hv (List.mem_of_getLast? he)
  rw [readLine_directive h hdot hcolon, hr]

theorem reads_region {name : String} (hname : Word name.toList) {base size used : Int}
    (hb : Numeral.isWritable base = true) (hs : Numeral.isWritable size = true)
    (hu : Numeral.isWritable used = true) :
    Reads (".namespace " ++ padEnd 12 name ++ " " ++ padStart 8 (Numeral.write base) ++ " "
        ++ padStart 8 (Numeral.write size) ++ " " ++ padStart 8 (Numeral.write used))
      (.region name ⟨base, size, used⟩) := by
  have hspaced : Spaced [".namespace".toList, name.toList, (Numeral.write base).toList,
      (Numeral.write size).toList, (Numeral.write used).toList]
      (".namespace " ++ padEnd 12 name ++ " " ++ padStart 8 (Numeral.write base) ++ " "
        ++ padStart 8 (Numeral.write size) ++ " " ++ padStart 8 (Numeral.write used)).toList := by
    have h := Spaced.cons (w := ".namespace".toList) (by decide) (gap_spaces 0 0) <|
      .cons hname (gap_spaces (12 - name.length) (8 - (Numeral.write base).length)) <|
      .cons (Numeral.word_write base) (gap_spaces 0 (8 - (Numeral.write size).length)) <|
      .cons (Numeral.word_write size) (gap_spaces 0 (8 - (Numeral.write used).length)) <|
      .one (Numeral.word_write used)
    simpa [padEnd, padStart] using h
  refine reads_directive hspaced rfl rfl (token_write used).colon ?_
  rw [readDirective, hspaced.words_eq]
  simp [readRegion, word, number_write hb, number_write hs, number_write hu, bind, Except.bind,
    pure, Except.pure]

theorem reads_zero {cell : Int} (h : Numeral.isWritable cell = true) :
    Reads (".zero " ++ Numeral.write cell) (.zero cell) := by
  have hspaced : Spaced [".zero".toList, (Numeral.write cell).toList]
      (".zero " ++ Numeral.write cell).toList := by
    have h := Spaced.cons (w := ".zero".toList) (by decide) (gap_spaces 0 0) <|
      .one (Numeral.word_write cell)
    simpa using h
  refine reads_directive hspaced rfl rfl (token_write cell).colon ?_
  rw [readDirective, hspaced.words_eq]
  simp [word, number_write h, bind, Except.bind, pure, Except.pure]

theorem reads_output {name : String} (hname : Word name.toList) {base length scale : Int}
    (hb : Numeral.isWritable base = true) (hl : Numeral.isWritable length = true)
    (hs : Numeral.isWritable scale = true) :
    Reads (".output " ++ Numeral.write base ++ " " ++ Numeral.write length ++ " " ++ name
      ++ " s" ++ Numeral.write scale) (.output ⟨name, base, length, scale⟩) := by
  have hscale : Token ('s' :: (Numeral.write scale).toList) :=
    token_cons (token_write scale) rfl (by decide)
  have hspaced : Spaced [".output".toList, (Numeral.write base).toList,
      (Numeral.write length).toList, name.toList, 's' :: (Numeral.write scale).toList]
      (".output " ++ Numeral.write base ++ " " ++ Numeral.write length ++ " " ++ name
        ++ " s" ++ Numeral.write scale).toList := by
    have h := Spaced.cons (w := ".output".toList) (by decide) (gap_spaces 0 0) <|
      .cons (Numeral.word_write base) (gap_spaces 0 0) <|
      .cons (Numeral.word_write length) (gap_spaces 0 0) <|
      .cons hname (gap_spaces 0 0) <| .one hscale.toWord
    simpa using h
  refine reads_directive hspaced rfl rfl hscale.colon ?_
  rw [readDirective, hspaced.words_eq]
  simp [readOutput, outputScale, word, number_write hb, number_write hl, number_write hs, bind,
    Except.bind, pure, Except.pure]

theorem reads_instruction {i : Instruction} (hn : i.Numeric) (hpos : ∀ a ∈ i.cells, 0 ≤ a)
    (hw : ∀ x ∈ i.form.numbers, Numeral.isWritable x = true) {a comment : String}
    (ha : ∀ c ∈ a.toList, c = ' ') (hc : OneLine comment.toList) :
    Reads (a ++ i.render comment) (.instruction i) := by
  obtain ⟨b, t, hb, ht, hone, he⟩ := render_split i comment
  have hl : (a ++ i.render comment).toList =
      a.toList ++ (i.form.core.toList ++ b) ++ t := by
    rw [String.toList_append, he, List.append_assoc, List.append_assoc, List.append_assoc]
  refine ⟨?_, fun n => by rw [hl, readLine_core i n ha hb ht, readInstruction_ok n hn hpos hw]⟩
  rw [hl, oneLine_append, oneLine_append, oneLine_append]
  exact ⟨⟨oneLine_spaces ha, oneLine_core i, oneLine_spaces hb⟩, hone hc⟩

theorem instruction_numeric {ls : List String} {t : ProgramText}
    (h : read (String.intercalate "\n" ls ++ "\n") = .ok t) {i : Instruction} {a comment : String}
    (ha : ∀ c ∈ a.toList, c = ' ') (hl : a ++ i.render comment ∈ ls) : i.Numeric := by
  by_contra hn
  obtain ⟨b, u, hb, hu, -, he⟩ := render_split i comment
  have hone : OneLine (a.toList ++ (i.form.core.toList ++ b)) :=
    oneLine_append.2 ⟨oneLine_spaces ha, oneLine_append.2 ⟨oneLine_core i, oneLine_spaces hb⟩⟩
  obtain ⟨v, hv, hmem⟩ := exists_line hone u
  have hline : a.toList ++ (i.form.core.toList ++ b) ++ v ∈
      lines (String.intercalate "\n" ls ++ "\n").toList := by
    rw [toList_lines (List.ne_nil_of_mem hl), lines_flatMap, List.mem_flatMap]
    refine ⟨_, List.mem_map.2 ⟨_, hl, rfl⟩, ?_⟩
    rw [String.toList_append, he]
    simpa using hmem
  have hhead : ∀ c ∈ v.head?, c = ';' := fun c hc => hu c (prefix_mem_head hv hc)
  obtain ⟨n, item, hitem⟩ := readLine_of_read h hline
  obtain ⟨f, hf⟩ := readInstruction_error n hn
  rw [readLine_core i n ha hb hhead, hf] at hitem
  simp at hitem

end TensorAsm.ProgramText
