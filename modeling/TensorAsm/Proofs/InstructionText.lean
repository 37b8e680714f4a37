import TensorAsm.Proofs.Numerals
import TensorAsm.ProgramText
/-!
The line of an instruction is read back as the instruction, whatever comment stands behind it. It
cannot be read when a truth value stands for a number.
-/

namespace TensorAsm

open Text

theorem Text.isDigit_ascii {c : Char} (h : c.isDigit = true) : Text.isDigit c = true := by
  have hb := isDigit_bounds h
  have hz : (decide (0x30 ≤ c.toNat) && decide (c.toNat < 0x30 + 10)) = true := by
    simp only [Bool.and_eq_true, decide_eq_true_eq]
    omega
  rw [Text.isDigit, digit?, Option.isSome_map, List.find?_isSome]
  exact ⟨0x30, by decide, hz⟩

theorem Opcode.ofMnemonic_mnemonic (op : Opcode) : ofMnemonic? op.mnemonic = some op := by
  cases op <;> decide

namespace Instruction

/-- The instruction with numbers in place of truth values. -/
def plain : Instruction → Instruction
  | .clamp d a lo hi => .clamp d a (.int lo.value) (.int hi.value)
  | i => i

/-- The immediates are given as numbers. -/
def Numeric (i : Instruction) : Prop := ∀ v ∈ i.form.immediates, v = .int v.value

instance (i : Instruction) : Decidable i.Numeric :=
  inferInstanceAs (Decidable (∀ v ∈ i.form.immediates, _))

theorem Numeric.plain_eq {i : Instruction} (h : i.Numeric) : i.plain = i := by
  cases i with
  | clamp d a lo hi =>
    simp only [Numeric, form, List.mem_cons, List.not_mem_nil, or_false, forall_eq_or_imp,
      forall_eq] at h
    rw [plain, ← h.1, ← h.2]
  | _ => rfl

def cells (i : Instruction) : List Int := i.form.dest.toList ++ i.form.operands

theorem ofArguments_form (i : Instruction) :
    ofArguments? i.form.opcode i.cells (i.form.immediates.map Immediate.value) = some i.plain := by
  cases i <;> rfl

def immediateText (v : Immediate) : String := "#" ++ v.text

namespace Form

def core (f : Form) : String :=
  if f.arguments.isEmpty then f.opcode.mnemonic
  else Text.padEnd 8 f.opcode.mnemonic ++ " " ++ String.intercalate ", " f.arguments

theorem render_eq (f : Form) (comment : String) :
    f.render comment =
      if comment.isEmpty then f.core else Text.padEnd 44 f.core ++ " ; " ++ comment := rfl

end Form

end Instruction

namespace ProgramText

open Instruction

/-- A cell or an immediate as it is written: one word without a comma or a colon. -/
structure Token (s : List Char) : Prop extends Word s where
  comma : ',' ∉ s
  colon : ':' ∉ s

theorem token_write (n : Int) : Token (Numeral.write n).toList := by
  refine ⟨Numeral.word_write n, fun hc => ?_, fun hc => ?_⟩
  all_goals
    rcases Numeral.mem_write hc with hd | ⟨he, -⟩
    · exact absurd hd (by decide)
    · exact absurd he (by decide)

theorem token_cons {c : Char} {s : List Char} (h : Token s) (hb : isBlank c = false)
    (hc : c ≠ ';' ∧ c ≠ ',' ∧ c ≠ ':') : Token (c :: s) := by
  refine ⟨⟨by simp, ?_, ?_⟩, ?_, ?_⟩
  · simpa using ⟨hb, h.solid⟩
  · simpa using ⟨hc.1.symm, h.bare⟩
  · simpa using ⟨hc.2.1.symm, h.comma⟩
  · simpa using ⟨hc.2.2.symm, h.colon⟩

theorem token_append {s t : List Char} (h : Token s) (h' : Token t) : Token (s ++ t) := by
  refine ⟨⟨by simp [h.ne_nil], ?_, ?_⟩, ?_, ?_⟩
  · intro c hc
    exact (List.mem_append.1 hc).elim (h.solid c) (h'.solid c)
  · simpa using ⟨h.bare, h'.bare⟩
  · simpa using ⟨h.comma, h'.comma⟩
  · simpa using ⟨h.colon, h'.colon⟩

theorem token_cellText (a : Int) : Token (cellText a).toList := by
  have hbracket : Token [']'] := ⟨by decide, by decide, by decide⟩
  have h := token_cons (c := '[') (token_append (token_write a) hbracket) rfl (by decide)
  simpa [cellText] using h

theorem token_immediateText (v : Immediate) : Token (immediateText v).toList := by
  have htext : Token v.text.toList := by
    cases v with
    | int n => exact token_write n
    | flag b => cases b <;> exact ⟨by decide, by decide, by decide⟩
  simpa [immediateText] using token_cons (c := '#') htext rfl (by decide)

theorem token_arguments {f : Form} {s : String} (h : s ∈ f.arguments) : Token s.toList := by
  rcases List.mem_append.1 h with h | h
  · obtain ⟨a, -, rfl⟩ := List.mem_map.1 h
    exact token_cellText a
  · obtain ⟨v, -, rfl⟩ := List.mem_map.1 h
    exact token_immediateText v

theorem tokens_intercalate {args : List (List Char)} (h : ∀ a ∈ args, Token a) {gap : List Char}
    (hg : ∀ c ∈ gap, c = ' ') : tokens (gap ++ [',', ' '].intercalate args) = args := by
  have hgap : ',' ∉ gap := fun hm => absurd (hg _ hm) (by decide)
  have htrim : ∀ {a gap : List Char}, Token a → (∀ c ∈ gap, c = ' ') → trim (gap ++ a) = a := by
    intro a gap ha hg
    have hs := trim_spaces hg (b := []) (by simp) ha.ne_nil
      (fun c hc => ha.solid c (List.mem_of_mem_head? hc))
      (fun c hc => ha.solid c (List.mem_of_getLast? hc))
    simpa using hs
  induction args generalizing gap with
  | nil =>
    rw [List.intercalate_nil, List.append_nil, tokens, splitOn_of_notMem hgap]
    simp [trim_eq_nil hg]
  | cons a args ih =>
    have ha := h a (by simp)
    have hcomma : ',' ∉ gap ++ a := by simpa using ⟨hgap, ha.comma⟩
    have hsome : (!(trim (gap ++ a)).isEmpty) = true := by
      rw [htrim ha hg]
      simpa using ha.ne_nil
    cases args with
    | nil =>
      rw [List.intercalate_singleton, tokens, splitOn_of_notMem hcomma]
      simp [htrim ha hg, ha.ne_nil]
    | cons b args =>
      have hrest : tokens ([' '] ++ [',', ' '].intercalate (b :: args)) = b :: args :=
        ih (fun x hx => h x (by simp [hx])) (by simp) (by simp)
      have hsplit : gap ++ [',', ' '].intercalate (a :: b :: args) =
          gap ++ a ++ ',' :: ([' '] ++ [',', ' '].intercalate (b :: args)) := by
        rw [List.intercalate_cons_cons]
        simp
      rw [tokens] at hrest
      rw [hsplit, tokens, splitOn_append hcomma, List.map_cons,
        List.filter_cons_of_pos (p := fun s : List Char => !s.isEmpty) hsome, htrim ha hg,
        hrest]

theorem number_write {n : Int} (h : Numeral.isWritable n = true) :
    number (Numeral.write n).toList = .ok n := by
  rw [number, String.ofList_toList, Numeral.read_write h]
  rfl

theorem isNumber_write {n : Int} (h : 0 ≤ n) : isNumber (Numeral.write n).toList = true := by
  rw [isNumber, Bool.and_eq_true, List.all_eq_true]
  refine ⟨by simpa using Numeral.write_ne_nil n, fun c hc => ?_⟩
  rcases Numeral.mem_write hc with hd | ⟨-, hn⟩
  · exact isDigit_ascii hd
  · omega

theorem argument_cellText {a : Int} (h : 0 ≤ a) :
    argument? (cellText a).toList = some (.cell (Numeral.write a).toList) := by
  have hl : (cellText a).toList = '[' :: ((Numeral.write a).toList ++ [']']) := by
    simp [cellText]
  rw [hl, argument?, cell?]
  simp [isNumber_write h]

theorem argument_immediateText (n : Int) :
    argument? (immediateText (.int n)).toList = some (.immediate (Numeral.write n).toList) := by
  have hl : (immediateText (.int n)).toList = '#' :: (Numeral.write n).toList := by
    simp [immediateText, Immediate.text]
  have himm : immediate? (Numeral.write n).toList = some (Numeral.write n).toList := by
    by_cases hn : n < 0
    · have hw := isNumber_write (n := n.natAbs) (by omega)
      rw [Numeral.toList_write_nat] at hw
      rw [Numeral.toList_write, if_pos hn, immediate?, if_pos hw]
    · have hw := isNumber_write (n := n) (by omega)
      unfold immediate?
      split
      · next s hs =>
          have hm : '-' ∈ (Numeral.write n).toList := by simp [hs]
          rcases Numeral.mem_write hm with hd | ⟨-, hlt⟩
          · exact absurd hd (by decide)
          · exact absurd hlt hn
      · rw [if_pos hw]
  rw [hl, argument?, himm]
  rfl

theorem readArguments_cells {cells : List Int} (hpos : ∀ a ∈ cells, 0 ≤ a)
    (hw : ∀ a ∈ cells, Numeral.isWritable a = true) (line : Nat) (rest : List (List Char)) :
    readArguments line (cells.map (fun a => (cellText a).toList) ++ rest) =
      (readArguments line rest).map fun r => (cells ++ r.1, r.2) := by
  induction cells with
  | nil =>
    rw [List.map_nil, List.nil_append]
    cases readArguments line rest <;> rfl
  | cons a cells ih =>
    rw [List.map_cons, List.cons_append, readArguments, argument_cellText (hpos a (by simp))]
    simp only [number_write (hw a (by simp)),
      ih (fun x hx => hpos x (by simp [hx])) (fun x hx => hw x (by simp [hx]))]
    cases readArguments line rest <;> rfl

theorem readArguments_immediates {vs : List Immediate} (hn : ∀ v ∈ vs, v = .int v.value)
    (hw : ∀ v ∈ vs, Numeral.isWritable v.value = true) (line : Nat) :
    readArguments line (vs.map fun v => (immediateText v).toList) =
      .ok ([], vs.map Immediate.value) := by
  induction vs with
  | nil => rfl
  | cons v vs ih =>
    have hv := argument_immediateText v.value
    rw [← hn v (by simp)] at hv
    rw [List.map_cons, readArguments, hv]
    simp only [number_write (hw v (by simp)),
      ih (fun x hx => hn x (by simp [hx])) (fun x hx => hw x (by simp [hx]))]
    rfl

theorem readArguments_error {tokens : List (List Char)} {t : List Char} (ht : t ∈ tokens)
    (hb : argument? t = none) (line : Nat) : ∃ f, readArguments line tokens = .error f := by
  induction tokens with
  | nil => simp at ht
  | cons u tokens ih =>
    rw [readArguments]
    split
    · exact ⟨_, rfl⟩
    all_goals
      next digits hu =>
        have hmem : t ∈ tokens := by
          rcases List.mem_cons.1 ht with rfl | hm
          · simp [hb] at hu
          · exact hm
        obtain ⟨f, hf⟩ := ih hmem
        cases hd : number digits with
        | error e => exact ⟨e, by simp [bind, Except.bind]⟩
        | ok n => exact ⟨f, by simp [hf, bind, Except.bind]⟩

section

variable (i : Instruction)

theorem arguments_toList :
    i.form.arguments.map String.toList = i.cells.map (fun a => (cellText a).toList) ++
      i.form.immediates.map fun v => (immediateText v).toList := by
  rw [Form.arguments, List.map_append, List.map_map, List.map_map]
  rfl

theorem core_toList :
    i.form.arguments = [] ∧ i.form.core.toList = i.form.opcode.mnemonic.toList ∨
    i.form.arguments ≠ [] ∧ ∃ k, i.form.core.toList = i.form.opcode.mnemonic.toList ++ ' ' ::
      (List.replicate k ' ' ++ [',', ' '].intercalate (i.form.arguments.map String.toList)) := by
  by_cases ha : i.form.arguments = []
  · exact .inl ⟨ha, by simp [Form.core, ha]⟩
  · refine .inr ⟨ha, 8 - i.form.opcode.mnemonic.length, ?_⟩
    have hspace (k : Nat) : List.replicate k ' ' ++ [' '] = ' ' :: List.replicate k ' ' := by
      rw [← List.replicate_succ', List.replicate_succ]
    simp only [Form.core, List.isEmpty_iff, ha, if_false, Text.padEnd, String.toList_append,
      String.toList_ofList, String.toList_intercalate]
    rw [List.append_assoc, List.append_assoc, ← List.append_assoc (List.replicate _ _)]
    change _ ++ (List.replicate _ ' ' ++ [' '] ++ _) = _
    rw [hspace]
    rfl

theorem mnemonic_chars (op : Opcode) :
    op.mnemonic.toList ≠ [] ∧ op.mnemonic.toList.head? ≠ some '.' ∧
      ∀ c ∈ op.mnemonic.toList, isBlank c = false ∧ c ≠ ';' ∧ c ≠ ':' := by
  have hall : (op.mnemonic.toList.all fun c => !isBlank c && (c != ';' && c != ':')) = true := by
    cases op <;> decide
  refine ⟨by cases op <;> decide, by cases op <;> decide, fun c hc => ?_⟩
  simpa using List.all_eq_true.1 hall c hc

theorem mem_core {c : Char} (h : c ∈ i.form.core.toList) :
    (isBlank c = false ∨ c = ' ') ∧ c ≠ ';' ∧ c ≠ ':' := by
  have hm := (mnemonic_chars i.form.opcode).2.2 c
  have hargs : c ∈ [',', ' '].intercalate (i.form.arguments.map String.toList) →
      (isBlank c = false ∨ c = ' ') ∧ c ≠ ';' ∧ c ≠ ':' := by
    intro hc
    rcases mem_intercalate hc with hc | ⟨l, hl, hc⟩
    · have hc : c = ',' ∨ c = ' ' := by simpa using hc
      rcases hc with rfl | rfl <;> decide
    · obtain ⟨a, ha, rfl⟩ := List.mem_map.1 hl
      have ht := token_arguments ha
      exact ⟨.inl (ht.solid c hc), fun he => ht.bare (he ▸ hc), fun he => ht.colon (he ▸ hc)⟩
  rcases core_toList i with ⟨-, he⟩ | ⟨-, k, he⟩
  · rw [he] at h
    exact ⟨.inl (hm h).1, (hm h).2⟩
  · rw [he, List.mem_append, List.mem_cons, List.mem_append] at h
    rcases h with h | rfl | h | h
    · exact ⟨.inl (hm h).1, (hm h).2⟩
    · decide
    · rw [List.eq_of_mem_replicate h]
      decide
    · exact hargs h

theorem oneLine_core : OneLine i.form.core.toList := by
  intro c hc
  rcases (mem_core i hc).1 with h | rfl
  · exact isBreak_solid h
  · rfl

theorem head_core : i.form.core.toList.head? = i.form.opcode.mnemonic.toList.head? := by
  have hne := (mnemonic_chars i.form.opcode).1
  rcases core_toList i with ⟨-, he⟩ | ⟨-, k, he⟩
  · rw [he]
  · rw [he, List.head?_append, Option.or_of_isSome (by simpa using hne)]

theorem core_ne_nil : i.form.core.toList ≠ [] := by
  intro h
  have hh := head_core i
  rw [h] at hh
  exact (mnemonic_chars i.form.opcode).1 (List.head?_eq_none_iff.1 hh.symm)

theorem last_core : ∀ c ∈ i.form.core.toList.getLast?, isBlank c = false := by
  intro c hc
  have hm := (mnemonic_chars i.form.opcode).2.2
  rcases core_toList i with ⟨-, he⟩ | ⟨ha, k, he⟩
  · rw [he] at hc
    exact (hm c (List.mem_of_getLast? hc)).1
  · have htoken : ∀ l ∈ i.form.arguments.map String.toList, Token l := by
      intro l hl
      obtain ⟨a, ha, rfl⟩ := List.mem_map.1 hl
      exact token_arguments ha
    obtain ⟨l, hl, hlast⟩ := last_intercalate [',', ' '] (by simpa using ha)
      fun l hl => (htoken l hl).ne_nil
    have hsome : l.getLast?.isSome := by simpa using (htoken l hl).ne_nil
    rw [he, ← List.cons_append, ← List.append_assoc, List.getLast?_append, hlast,
      Option.or_of_isSome hsome] at hc
    exact (htoken l hl).solid c (List.mem_of_getLast? hc)

theorem readLine_core (n : Nat) {a b t : List Char} (ha : ∀ c ∈ a, c = ' ') (hb : ∀ c ∈ b, c = ' ')
    (ht : ∀ c ∈ t.head?, c = ';') :
    readLine n (a ++ (i.form.core.toList ++ b) ++ t) = readInstruction n i.form.core.toList := by
  have hbare : ';' ∉ a ++ (i.form.core.toList ++ b) := by
    simp only [List.mem_append, not_or]
    exact ⟨fun h => absurd (ha _ h) (by decide), fun h => (mem_core i h).2.1 rfl,
      fun h => absurd (hb _ h) (by decide)⟩
  have hcut : (cut ';' (a ++ (i.form.core.toList ++ b) ++ t)).1 =
      a ++ (i.form.core.toList ++ b) := by
    cases t with
    | nil => rw [List.append_nil, cut_of_notMem hbare]
    | cons c t =>
      obtain rfl := ht c rfl
      rw [cut_append hbare]
  have hhead : ∀ c ∈ i.form.core.toList.head?, isBlank c = false ∧ c ≠ '.' := by
    intro c hc
    rw [head_core] at hc
    obtain ⟨-, hdot, hm⟩ := mnemonic_chars i.form.opcode
    exact ⟨(hm c (List.mem_of_mem_head? hc)).1, fun he => hdot (he ▸ hc)⟩
  have htrim := trim_spaces ha hb (core_ne_nil i) (fun c hc => (hhead c hc).1) (last_core i)
  have hcolon : i.form.core.toList.getLast? ≠ some ':' :=
    fun h => (mem_core i (List.mem_of_getLast? h)).2.2 rfl
  have hdot : i.form.core.toList.head? ≠ some '.' := fun h => (hhead '.' h).2 rfl
  simp only [readLine, hcut, htrim, List.isEmpty_iff, core_ne_nil, hcolon, hdot, or_self, if_false]

theorem readInstruction_core (n : Nat) :
    readInstruction n i.form.core.toList =
      (readArguments n (i.form.arguments.map String.toList)).bind fun r =>
        match ofArguments? i.form.opcode r.1 r.2 with
        | some i => .ok (.instruction i)
        | none => .error (.invalid (.operandCount n i.form.opcode.mnemonic)) := by
  have hblank : ' ' ∉ i.form.opcode.mnemonic.toList :=
    fun h => absurd ((mnemonic_chars i.form.opcode).2.2 _ h).1 (by decide)
  have hcut : ∃ rest, cut ' ' i.form.core.toList = (i.form.opcode.mnemonic.toList, rest) ∧
      tokens rest = i.form.arguments.map String.toList := by
    rcases core_toList i with ⟨ha, he⟩ | ⟨-, k, he⟩
    · exact ⟨[], by rw [he, cut_of_notMem hblank], by rw [ha]; rfl⟩
    · refine ⟨_, by rw [he, cut_append hblank], tokens_intercalate ?_ ?_⟩
      · intro l hl
        obtain ⟨a, ha, rfl⟩ := List.mem_map.1 hl
        exact token_arguments ha
      · exact fun c hc => List.eq_of_mem_replicate hc
  obtain ⟨rest, hcut, htokens⟩ := hcut
  unfold readInstruction
  simp only [hcut, String.ofList_toList, Opcode.ofMnemonic_mnemonic, htokens]
  cases readArguments n (i.form.arguments.map String.toList) with
  | error f => rfl
  | ok r =>
    simp only [bind, Except.bind]
    cases ofArguments? i.form.opcode r.1 r.2 <;> rfl

variable {i}

theorem readInstruction_ok (n : Nat) (hn : i.Numeric) (hpos : ∀ a ∈ i.cells, 0 ≤ a)
    (hw : ∀ x ∈ i.form.numbers, Numeral.isWritable x = true) :
    readInstruction n i.form.core.toList = .ok (.instruction i) := by
  have hcells : ∀ a ∈ i.cells, Numeral.isWritable a = true :=
    fun a ha => hw a (List.mem_append_left _ ha)
  have himm : ∀ v ∈ i.form.immediates, Numeral.isWritable v.value = true :=
    fun v hv => hw _ (List.mem_append_right _ (List.mem_map.2 ⟨v, hv, rfl⟩))
  rw [readInstruction_core, arguments_toList, readArguments_cells hpos hcells,
    readArguments_immediates hn himm]
  simp only [Except.map, Except.bind, List.append_nil, ofArguments_form, hn.plain_eq]

theorem readInstruction_error (n : Nat) (hn : ¬ i.Numeric) :
    ∃ f, readInstruction n i.form.core.toList = .error f := by
  simp only [Numeric, not_forall] at hn
  obtain ⟨v, hv, hne⟩ := hn
  have hbad : argument? (immediateText v).toList = none := by
    cases v with
    | int k => exact absurd rfl hne
    | flag b => cases b <;> decide
  have hmem : (immediateText v).toList ∈ i.form.arguments.map String.toList := by
    rw [arguments_toList]
    exact List.mem_append_right _ (List.mem_map.2 ⟨v, hv, rfl⟩)
  obtain ⟨f, hf⟩ := readArguments_error hmem hbad n
  exact ⟨f, by rw [readInstruction_core, hf]; rfl⟩

end

theorem render_split (i : Instruction) (comment : String) :
    ∃ b t, (∀ c ∈ b, c = ' ') ∧ (∀ c ∈ t.head?, c = ';') ∧
      (OneLine comment.toList → OneLine t) ∧
      (i.render comment).toList = i.form.core.toList ++ b ++ t := by
  rw [Instruction.render, Form.render_eq]
  by_cases hc : comment.isEmpty
  · exact ⟨[], [], by simp, by simp, by simp, by simp [hc]⟩
  · refine ⟨List.replicate (44 - i.form.core.length) ' ' ++ [' '], ';' :: ' ' :: comment.toList,
      ?_, by simp, ?_, ?_⟩
    · intro c hm
      rcases List.mem_append.1 hm with hm | hm
      · exact List.eq_of_mem_replicate hm
      · simpa using hm
    · intro h
      simpa [isBreak] using h
    · simp [hc, Text.padEnd]

end ProgramText

end TensorAsm
