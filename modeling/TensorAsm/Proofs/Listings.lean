import TensorAsm.Proofs.NumeralReading
import TensorAsm.Proofs.RoundTrip
import TensorAsm.Proofs.TableText
/-!
Listings: the indented lines of instructions with their comments. A listing is read back as its
instructions, and the instructions of any text that is read can be listed.
-/

namespace TensorAsm

open Text

/-- How many cells an instruction reads, and how many immediates it has. -/
def Opcode.arity : Opcode → Nat × Nat
  | .add | .sub | .mul => (2, 0)
  | .mac => (3, 0)
  | .rescale => (1, 1)
  | .clamp => (1, 2)
  | .lookup => (2, 1)
  | .halt => (0, 0)

namespace Instruction

/-- As many cells and numbers as the opcode requires, and cells that can be addressed. -/
structure Form.Proper (f : Form) : Prop where
  dest : f.dest.isSome = (f.opcode != .halt)
  operands : f.operands.length = f.opcode.arity.1
  immediates : f.immediates.length = f.opcode.arity.2
  addresses : ∀ a ∈ f.dest.toList ++ f.operands, 0 ≤ a
  numeric : ∀ v ∈ f.immediates, v = .int v.value

instance (f : Form) : Decidable f.Proper :=
  decidable_of_iff (f.dest.isSome = (f.opcode != .halt) ∧ f.operands.length = f.opcode.arity.1 ∧
      f.immediates.length = f.opcode.arity.2 ∧ (∀ a ∈ f.dest.toList ++ f.operands, 0 ≤ a) ∧
      ∀ v ∈ f.immediates, v = .int v.value)
    ⟨fun ⟨hd, ho, hi, ha, hn⟩ => ⟨hd, ho, hi, ha, hn⟩,
      fun ⟨hd, ho, hi, ha, hn⟩ => ⟨hd, ho, hi, ha, hn⟩⟩

theorem form_injective : Function.Injective form := by
  intro i j h
  cases i <;> cases j <;> simp_all [form]

theorem Form.Proper.exists_instruction {f : Form} (h : f.Proper) :
    ∃ i : Instruction, i.form = f := by
  obtain ⟨hd, ho, hi, -, hn⟩ := h
  rcases f with ⟨op, dest, operands, immediates⟩
  by_cases hop : op = .halt
  · subst hop
    obtain rfl : dest = none := by simpa using hd
    obtain rfl := List.length_eq_zero_iff.1 ho
    obtain rfl := List.length_eq_zero_iff.1 hi
    exact ⟨.halt, rfl⟩
  obtain ⟨d, rfl⟩ := Option.isSome_iff_exists.1 (hd.trans (bne_iff_ne.2 hop))
  cases op with
  | add =>
    obtain ⟨a, b, rfl⟩ := List.length_eq_two.1 ho
    obtain rfl := List.length_eq_zero_iff.1 hi
    exact ⟨.add d a b, rfl⟩
  | sub =>
    obtain ⟨a, b, rfl⟩ := List.length_eq_two.1 ho
    obtain rfl := List.length_eq_zero_iff.1 hi
    exact ⟨.sub d a b, rfl⟩
  | mul =>
    obtain ⟨a, b, rfl⟩ := List.length_eq_two.1 ho
    obtain rfl := List.length_eq_zero_iff.1 hi
    exact ⟨.mul d a b, rfl⟩
  | mac =>
    obtain ⟨c, a, b, rfl⟩ := List.length_eq_three.1 ho
    obtain rfl := List.length_eq_zero_iff.1 hi
    exact ⟨.mac d c a b, rfl⟩
  | rescale =>
    obtain ⟨a, rfl⟩ := List.length_eq_one_iff.1 ho
    obtain ⟨v, rfl⟩ := List.length_eq_one_iff.1 hi
    exact ⟨.rescale d a v.value, by rw [form, ← hn v (by simp)]⟩
  | clamp =>
    obtain ⟨a, rfl⟩ := List.length_eq_one_iff.1 ho
    obtain ⟨lower, upper, rfl⟩ := List.length_eq_two.1 hi
    exact ⟨.clamp d a lower upper, rfl⟩
  | lookup =>
    obtain ⟨a, t, rfl⟩ := List.length_eq_two.1 ho
    obtain ⟨v, rfl⟩ := List.length_eq_one_iff.1 hi
    exact ⟨.lookup d a t v.value, by rw [form, ← hn v (by simp)]⟩
  | halt => exact absurd rfl hop

theorem proper_form {i : Instruction} (hn : i.Numeric) (hpos : ∀ a ∈ i.cells, 0 ≤ a) :
    i.form.Proper := by
  refine ⟨?_, ?_, ?_, hpos, hn⟩
  all_goals cases i <;> rfl

end Instruction

namespace ProgramText

open Instruction

/-! ## Reading instructions -/

theorem plain_isDigit {c : Char} (h : isDigit c = true) : Numeral.plain c ≠ '-' := by
  have hdigit : ∀ k < 10, Nat.digitChar k ≠ '-' := by decide
  rcases Numeral.plain_cases c with ⟨-, hc⟩ | ⟨-, hc⟩ | ⟨d, hd, hc⟩ | hc
  · rw [hc]
    rintro rfl
    exact absurd h (by decide)
  · simp [hc]
  · exact hc ▸ hdigit d hd
  · simp [hc]

theorem number_nonneg {s : List Char} {n : Int} (hs : isNumber s = true) (h : number s = .ok n) :
    0 ≤ n := by
  obtain ⟨a, body, b, hbody, -, hd⟩ := Numeral.read_decimal_iff.1 (Field.liftNumeral_ok.1 h)
  refine hd.nonneg fun hm => ?_
  obtain ⟨c, hc, he⟩ := List.mem_map.1 hm
  have hcs : c ∈ s := by
    rw [String.toList_ofList] at hbody
    simp [hbody, hc]
  exact plain_isDigit (List.all_eq_true.1 (Bool.and_eq_true_iff.1 hs).2 c hcs) he

theorem cell_isNumber {s digits : List Char} (h : argument? s = some (.cell digits)) :
    isNumber digits = true := by
  unfold argument? at h
  split at h
  · obtain ⟨t, ht, he⟩ := Option.map_eq_some_iff.1 h
    obtain rfl := Argument.cell.inj he
    unfold cell? at ht
    split at ht
    · split at ht
      · next hn => rwa [← Option.some.inj ht]
      · simp at ht
    · simp at ht
  · simp at h
  · simp at h

theorem readArguments_ok {line : Nat} {tokens : List (List Char)} {r : List Int × List Int}
    (h : readArguments line tokens = .ok r) :
    (∀ a ∈ r.1, 0 ≤ a) ∧ ∀ n ∈ r.1 ++ r.2, Numeral.isWritable n = true := by
  induction tokens generalizing r with
  | nil =>
    obtain rfl := Except.ok.inj h
    simp
  | cons t tokens ih =>
    rw [readArguments] at h
    split at h
    · simp at h
    · next digits ht =>
        obtain ⟨n, hn, h⟩ := Sequences.bind_ok h
        obtain ⟨q, hq, h⟩ := Sequences.bind_ok h
        obtain rfl := Except.ok.inj h
        have hw := Numeral.read_writable (Field.liftNumeral_ok.1 hn)
        have hpos := number_nonneg (cell_isNumber ht) hn
        simpa [hw, hpos] using ih hq
    · next digits ht =>
        obtain ⟨n, hn, h⟩ := Sequences.bind_ok h
        obtain ⟨q, hq, h⟩ := Sequences.bind_ok h
        obtain rfl := Except.ok.inj h
        have hw := Numeral.read_writable (Field.liftNumeral_ok.1 hn)
        obtain ⟨hpos, hall⟩ := ih hq
        refine ⟨hpos, fun x hx => ?_⟩
        rcases List.mem_append.1 hx with hx | hx
        · exact hall x (List.mem_append_left _ hx)
        · rcases List.mem_cons.1 hx with rfl | hx
          · exact hw
          · exact hall x (List.mem_append_right _ hx)

theorem ofArguments_eq {op : Opcode} {cells immediates : List Int} {i : Instruction}
    (h : ofArguments? op cells immediates = some i) :
    i.Numeric ∧ i.cells = cells ∧ i.form.immediates.map Immediate.value = immediates := by
  unfold ofArguments? at h
  split at h
  case h_9 => simp at h
  all_goals
    obtain rfl := Option.some.inj h
    exact ⟨by simp [Numeric, form, Immediate.value], rfl, rfl⟩

theorem readInstruction_proper {n : Nat} {s : List Char} {i : Instruction}
    (h : readInstruction n s = .ok (.instruction i)) :
    i.form.Proper ∧ ∀ x ∈ i.form.numbers, Numeral.isWritable x = true := by
  unfold readInstruction at h
  dsimp only at h
  split at h
  · simp [throw, throwThe, MonadExceptOf.throw] at h
  · obtain ⟨r, hr, h⟩ := Sequences.bind_ok h
    split at h
    · next j hj =>
        obtain rfl := Item.instruction.inj (Except.ok.inj h)
        obtain ⟨hn, hc, hi⟩ := ofArguments_eq hj
        obtain ⟨hpos, hw⟩ := readArguments_ok hr
        refine ⟨proper_form hn (hc ▸ hpos), ?_⟩
        rw [← hc, ← hi] at hw
        exact hw
    · simp [throw, throwThe, MonadExceptOf.throw] at h

theorem readDirective_item {s : List Char} {i : Instruction} :
    readDirective s ≠ .ok (.instruction i) := by
  intro h
  unfold readDirective at h
  dsimp only at h
  split at h
  · obtain ⟨o, he, -⟩ := readOutput_name h
    simp at he
  · obtain ⟨name, use, he⟩ := readRegion_item h
    simp at he
  · obtain ⟨w, -, h⟩ := Sequences.bind_ok h
    obtain ⟨cell, -, h⟩ := Sequences.bind_ok h
    exact absurd (Except.ok.inj h) (by simp)
  · simp at h

theorem readLine_proper {n : Nat} {l : List Char} {i : Instruction}
    (h : readLine n l = .ok (.instruction i)) :
    i.form.Proper ∧ ∀ x ∈ i.form.numbers, Numeral.isWritable x = true := by
  unfold readLine at h
  dsimp only at h
  split at h
  · simp at h
  split at h
  · exact absurd h readDirective_item
  · exact readInstruction_proper h

theorem read_proper {text : String} {t : ProgramText} (h : read text = .ok t) {i : Instruction}
    (hi : i ∈ t.instructions) :
    i.form.Proper ∧ ∀ x ∈ i.form.numbers, Numeral.isWritable x = true := by
  obtain ⟨items, hitems, rfl⟩ := read_items h
  obtain ⟨item, hmem, hi⟩ := List.mem_filterMap.1 hi
  obtain ⟨x, -, hx⟩ := Sequences.mapM_mem hitems hmem
  cases item with
  | instruction j =>
    obtain rfl : j = i := by simpa [Item.instruction?] using hi
    exact readLine_proper hx
  | _ => simp [Item.instruction?] at hi

/-! ## Listings -/

def listingLine (c : Form × String) : String := Assembly.indent ++ c.1.render c.2

/-- The indented lines of instructions with their comments, unless there is an integer that is not
written. -/
def listing? (code : List (Form × String)) : Except Fault String :=
  (code.mapM fun (c : Form × String) => c.1.render? c.2).map fun ls =>
    String.intercalate "\n" (ls.map (Assembly.indent ++ ·))

theorem listing_ok {code : List (Form × String)}
    (h : ∀ c ∈ code, ∀ n ∈ c.1.numbers, Numeral.isWritable n = true) :
    listing? code = .ok (String.intercalate "\n" (code.map listingLine)) := by
  have hlines : code.mapM (fun (c : Form × String) => c.1.render? c.2) =
      .ok (code.map fun c => c.1.render c.2) := by
    induction code with
    | nil => rfl
    | cons c code ih =>
      have hc : c.1.render? c.2 = .ok (c.1.render c.2) :=
        if_pos (List.all_eq_true.2 (h c (by simp)))
      rw [List.mapM_cons, hc, ih fun d hd => h d (by simp [hd])]
      rfl
  rw [listing?, hlines, Except.map, List.map_map]
  rfl

theorem listing_error {code : List (Form × String)} {c : Form × String} {n : Int} (hc : c ∈ code)
    (hn : n ∈ c.1.numbers) (hw : Numeral.isWritable n = false) :
    listing? code = .error (.invalid .unwritable) := by
  unfold listing?
  cases hlines : code.mapM (fun (c : Form × String) => c.1.render? c.2) with
  | ok ls =>
    obtain ⟨l, -, hl⟩ := Sequences.mapM_of_mem hlines hc
    have hall : c.1.numbers.all Numeral.isWritable = false :=
      List.all_eq_false.2 ⟨n, hn, by simp [hw]⟩
    simp [Form.render?, written, hall] at hl
  | error f =>
    obtain ⟨d, -, hd⟩ := Sequences.mapM_error hlines
    unfold Form.render? written at hd
    split at hd
    · simp at hd
    · rw [← Except.error.inj hd]
      rfl

theorem reads_listing {code : List (Form × String)}
    (h : ∀ c ∈ code, c.1.Proper ∧ OneLine c.2.toList)
    (hw : ∀ c ∈ code, ∀ n ∈ c.1.numbers, Numeral.isWritable n = true) :
    ∃ is : List Instruction, is.map form = code.map Prod.fst ∧
      List.Forall₂ Reads (code.map listingLine) (is.map .instruction) := by
  induction code with
  | nil => exact ⟨[], rfl, .nil⟩
  | cons c code ih =>
    obtain ⟨is, his, hreads⟩ :=
      ih (fun d hd => h d (by simp [hd])) fun d hd => hw d (by simp [hd])
    obtain ⟨hproper, hone⟩ := h c (by simp)
    obtain ⟨i, hi⟩ := hproper.exists_instruction
    have hline : Reads (listingLine c) (.instruction i) := by
      rw [listingLine, ← hi]
      rw [← hi] at hproper
      exact reads_instruction hproper.numeric hproper.addresses (hi ▸ hw c (by simp))
        Program.indent_spaces hone
    exact ⟨i :: is, by rw [List.map_cons, his, hi, List.map_cons], .cons hline hreads⟩

theorem read_unbroken {ls : List String} {items : List Item} (h : List.Forall₂ Reads ls items)
    (hne : ∀ l ∈ ls, l.toList ≠ []) :
    read (String.intercalate "\n" ls) = .ok (ofItems items) := by
  by_cases hls : ls = []
  · subst hls
    cases h
    rfl
  have hread := read_lines hls h
  obtain ⟨l, hl, hlast⟩ := last_intercalate "\n".toList (by simpa using hls)
    (by simpa using hne : ∀ l ∈ ls.map String.toList, l ≠ [])
  obtain ⟨x, hx, rfl⟩ := List.mem_map.1 hl
  obtain ⟨item, -, hitem⟩ := Sequences.forall₂_of_mem h hx
  have hbody : "\n".toList.intercalate (ls.map String.toList) ≠ [] := by
    intro he
    rw [he] at hlast
    exact hne x hx (List.getLast?_eq_none_iff.1 hlast.symm)
  have hbreak : lines ("\n".toList.intercalate (ls.map String.toList) ++ ['\n']) =
      lines ("\n".toList.intercalate (ls.map String.toList)) :=
    linesFrom_break (.inr hbody) fun c hc =>
      hitem.oneLine c (List.mem_of_getLast? (hlast ▸ hc))
  rw [read, String.toList_append, String.toList_intercalate] at hread
  rw [read, String.toList_intercalate, ← hbreak]
  exact hread

theorem ofItems_instructions (is : List Instruction) :
    ofItems (is.map .instruction) = ⟨is, [], [], none⟩ := by
  have hnone {α : Type} (f : Item → Option α) (hf : ∀ i, f (.instruction i) = none) :
      (is.map Item.instruction).filterMap f = [] := by
    rw [List.filterMap_map, List.filterMap_eq_nil_iff]
    exact fun i _ => hf i
  have hsome : (is.map Item.instruction).filterMap Item.instruction? = is := by
    rw [List.filterMap_map]
    exact List.filterMap_some
  rw [ofItems, hsome, hnone _ fun _ => rfl, hnone _ fun _ => rfl, hnone _ fun _ => rfl]
  rfl

theorem read_listing {code : List (Form × String)}
    (h : ∀ c ∈ code, c.1.Proper ∧ OneLine c.2.toList)
    (hw : ∀ c ∈ code, ∀ n ∈ c.1.numbers, Numeral.isWritable n = true) :
    ∃ text is, listing? code = .ok text ∧ read text = .ok ⟨is, [], [], none⟩ ∧
      is.map form = code.map Prod.fst := by
  obtain ⟨is, his, hreads⟩ := reads_listing h hw
  have hne : ∀ l ∈ code.map listingLine, l.toList ≠ [] := by
    intro l hl
    obtain ⟨c, -, rfl⟩ := List.mem_map.1 hl
    simp [listingLine, Assembly.indent]
  refine ⟨_, is, listing_ok hw, ?_, his⟩
  rw [read_unbroken hreads hne, ofItems_instructions]

/-- A listing of proper instructions is read back without its comments, and there is one unless a
number in it is too long. The instructions of any text that is read are proper, and they are read
again from their listing. -/
theorem listing_readsBack :
    (∀ code : List (Form × String), (∀ c ∈ code, c.1.Proper ∧ OneLine c.2.toList) →
      (∀ c ∈ code, ∀ n ∈ c.1.numbers, Numeral.isWritable n = true) ∧
        (∃ text is, listing? code = .ok text ∧ read text = .ok ⟨is, [], [], none⟩ ∧
          is.map form = code.map Prod.fst) ∨
      (∃ c ∈ code, ∃ n ∈ c.1.numbers, Numeral.isWritable n = false) ∧
        listing? code = .error (.invalid .unwritable)) ∧
    ∀ text t, read text = .ok t → (∀ i ∈ t.instructions, i.form.Proper) ∧
      ∀ code : List (Form × String), code.map Prod.fst = t.instructions.map form →
        (∀ c ∈ code, OneLine c.2.toList) →
        ∃ again, listing? code = .ok again ∧ read again = .ok ⟨t.instructions, [], [], none⟩ := by
  refine ⟨fun code h => ?_, fun text t ht => ⟨fun i hi => (read_proper ht hi).1, ?_⟩⟩
  · by_cases hw : ∀ c ∈ code, ∀ n ∈ c.1.numbers, Numeral.isWritable n = true
    · exact .inl ⟨hw, read_listing h hw⟩
    · simp only [not_forall, Bool.not_eq_true] at hw
      obtain ⟨c, hc, n, hn, hf⟩ := hw
      exact .inr ⟨⟨c, hc, n, hn, hf⟩, listing_error hc hn hf⟩
  · intro code hcode hone
    have hproper : ∀ c ∈ code, c.1.Proper ∧ ∀ n ∈ c.1.numbers, Numeral.isWritable n = true := by
      intro c hc
      have hmem : c.1 ∈ t.instructions.map form := hcode ▸ List.mem_map_of_mem hc
      obtain ⟨i, hi, he⟩ := List.mem_map.1 hmem
      exact he ▸ read_proper ht hi
    obtain ⟨again, is, hl, hr, his⟩ :=
      read_listing (fun c hc => ⟨(hproper c hc).1, hone c hc⟩) fun c hc => (hproper c hc).2
    rw [hcode] at his
    exact ⟨again, hl, by rw [hr, List.map_injective_iff.2 form_injective his]⟩

/-- Instructions with a comment that looks like code, and the instructions of a text with a label, a
directive and a digit of another script. -/
theorem noted_readsBack :
    (∃ text is, listing? [(⟨.clamp, some 7, [3], [.int (-4), .int 12]⟩, "a; [b]: #c, d"),
        (⟨.halt, none, [], []⟩, "")] = .ok text ∧ read text = .ok ⟨is, [], [], none⟩ ∧
      is.map form = [⟨.clamp, some 7, [3], [.int (-4), .int 12]⟩, ⟨.halt, none, [], []⟩]) ∧
    ∃ t, read "on:\n mac  [\u0663],[0] ,, [1], [002] ;.\r\n.zero 4\x0crescale [1], [2], #-05" =
        .ok t ∧
      t.instructions = [.mac 3 0 1 2, .rescale 1 2 (-5)] ∧
      ∃ again, listing? [(⟨.mac, some 3, [0, 1, 2], []⟩, ""),
        (⟨.rescale, some 1, [2], [.int (-5)]⟩, ";")] = .ok again ∧
        read again = .ok ⟨t.instructions, [], [], none⟩ := by
  constructor
  · have hproper : ∀ c ∈ [((⟨.clamp, some 7, [3], [.int (-4), .int 12]⟩ : Form), "a; [b]: #c, d"),
        (⟨.halt, none, [], []⟩, "")], c.1.Proper ∧ OneLine c.2.toList := by decide +kernel
    have hlong : ¬∃ c ∈ [((⟨.clamp, some 7, [3], [.int (-4), .int 12]⟩ : Form), "a; [b]: #c, d"),
        (⟨.halt, none, [], []⟩, "")], ∃ n ∈ c.1.numbers, Numeral.isWritable n = false := by
      decide +kernel
    rcases listing_readsBack.1 _ hproper with ⟨-, hread⟩ | ⟨hw, -⟩
    · exact hread
    · exact absurd hw hlong
  · obtain ⟨t, ht, hi⟩ : ∃ t,
        read "on:\n mac  [\u0663],[0] ,, [1], [002] ;.\r\n.zero 4\x0crescale [1], [2], #-05" =
            .ok t ∧
          t.instructions = [.mac 3 0 1 2, .rescale 1 2 (-5)] :=
      Clamped.exists_ok_and (by decide +kernel)
    exact ⟨t, ht, hi, (listing_readsBack.2 _ t ht).2 _ (by rw [hi]; rfl) (by decide)⟩

theorem limit_unwritable : Numeral.isWritable Numeral.writeLimit = false := by
  rw [Numeral.isWritable, Int.natAbs_natCast, decide_eq_false_iff_not]
  exact Nat.lt_irrefl Numeral.writeLimit

/-- A number that is too long is not listed. -/
theorem long_shift_unlisted :
    ∃ code : List (Form × String), (∀ c ∈ code, c.1.Proper ∧ OneLine c.2.toList) ∧
      listing? code = .error (.invalid .unwritable) ∧ ∀ text, listing? code ≠ .ok text := by
  obtain ⟨n, hn⟩ : ∃ n : Int, Numeral.isWritable n = false := ⟨_, limit_unwritable⟩
  have h : listing? [(⟨.rescale, some 0, [0], [.int n]⟩, "")] = .error (.invalid .unwritable) :=
    listing_error (List.mem_singleton.2 rfl) (List.mem_append_right _ (List.mem_singleton.2 rfl)) hn
  refine ⟨_, ?_, h, by simp [h]⟩
  simp only [List.mem_singleton, forall_eq]
  exact ⟨⟨rfl, rfl, rfl, by simp, by simp [Immediate.value]⟩, by decide⟩

end ProgramText

end TensorAsm
