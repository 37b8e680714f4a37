import TensorAsm.Proofs.Files
import TensorAsm.Proofs.Image
import TensorAsm.Proofs.NumeralReading
import TensorAsm.Proofs.RoundTrip
import TensorAsm.Proofs.TableText
/-!
The text of a memory table and the map that it is read as. The map has the addresses in the order in
which they first come, each with the last of its values; written and read again it stays the same.
-/

namespace TensorAsm

namespace Ordered

section

variable {α β : Type} [BEq α]

theorem ofList_concat (l : List (α × β)) (p : α × β) :
    ofList (l ++ [p]) = put p.1 p.2 (ofList l) := by
  rw [ofList, List.foldl_append]
  rfl

variable [LawfulBEq α]

theorem put_keys_of_mem {k : α} {m : List (α × β)} (h : k ∈ m.map Prod.fst) (v : β) :
    (put k v m).map Prod.fst = m.map Prod.fst := by
  induction m with
  | nil => simp at h
  | cons p m ih =>
    by_cases hk : p.1 == k
    · simp [put, hk]
    · have hm : k ∈ m.map Prod.fst :=
        (List.mem_cons.1 h).resolve_left fun he => hk (by simp [he])
      rw [put, if_neg hk, List.map_cons, ih hm, List.map_cons]

theorem ofList_keys (l : List (α × β)) : (ofList l).map Prod.fst = (l.map Prod.fst).eraseDups := by
  induction l using List.reverseRecOn with
  | nil => rfl
  | append_singleton l p ih =>
    rw [ofList_concat, List.map_append, List.eraseDups_append, ← ih]
    by_cases hp : p.1 ∈ l.map Prod.fst
    · have hmem : p.1 ∈ (ofList l).map Prod.fst := by rwa [ih, List.mem_eraseDups]
      rw [put_keys_of_mem hmem]
      simp [List.removeAll, hp]
    · have hmem : p.1 ∉ (ofList l).map Prod.fst := by rwa [ih, List.mem_eraseDups]
      rw [put_of_notMem hmem, List.map_append]
      simp [List.removeAll, hp, List.eraseDups_cons]

theorem get_ofList (l : List (α × β)) (a : α) : get? a (ofList l) = l.reverse.lookup a := by
  induction l using List.reverseRecOn with
  | nil => rfl
  | append_singleton l p ih =>
    rw [get?] at ih
    rw [ofList_concat, get?, lookup_put, ih, List.reverse_append, List.reverse_singleton,
      List.singleton_append, List.lookup_cons]
    cases a == p.1 <;> rfl

theorem ofList_of_nodup {l : List (α × β)} (h : (l.map Prod.fst).Nodup) : ofList l = l := by
  induction l using List.reverseRecOn with
  | nil => rfl
  | append_singleton l p ih =>
    rw [List.map_append, List.nodup_append] at h
    have hp : p.1 ∉ l.map Prod.fst := fun hp => h.2.2 p.1 hp p.1 (by simp) rfl
    rw [ofList_concat, ih h.1, put_of_notMem hp]

theorem nodup_ofList (l : List (α × β)) : ((ofList l).map Prod.fst).Nodup := by
  rw [ofList_keys]
  exact Sequences.eraseDups_nodup _

theorem mem_ofList {e : α × β} {l : List (α × β)} (h : e ∈ ofList l) : e ∈ l := by
  induction l using List.reverseRecOn with
  | nil => exact h
  | append_singleton l p ih =>
    rw [ofList_concat] at h
    rcases mem_put h with rfl | h
    · simp
    · exact List.mem_append_left _ (ih h)

end

end Ordered

namespace MemoryTable

/-- Each address of some cells with the last of its values, in the order in which they first
came. -/
structure LastValues (cells : List Cell) (m : List (Int × Int)) : Prop where
  order : m.map Prod.fst = (cells.map (·.address)).eraseDups
  last : ∀ a, Ordered.get? a m = (entries cells).reverse.lookup a

theorem entries_keys (cells : List Cell) : (entries cells).map Prod.fst = cells.map (·.address) :=
  List.map_map

theorem ofList_lastValues (cells : List Cell) :
    LastValues cells (Ordered.ofList (entries cells)) where
  order := by rw [Ordered.ofList_keys, entries_keys]
  last := Ordered.get_ofList _

theorem render_ok {cells : List Cell} (h : ∀ n ∈ numbers cells, Numeral.isWritable n = true) :
    render? cells = .ok (render cells) :=
  if_pos (List.all_eq_true.2 h)

theorem read_render {cells : List Cell} (h : ∀ n ∈ numbers cells, Numeral.isWritable n = true) :
    read (render cells) = .ok (Ordered.ofList (entries cells)) := by
  rw [read, readRows_render h]
  rfl

def ofEntries (m : List (Int × Int)) : List Cell := m.map fun e => ⟨e.1, e.2⟩

theorem entries_ofEntries (m : List (Int × Int)) : entries (ofEntries m) = m := by
  rw [entries, ofEntries, List.map_map]
  exact List.map_id m

theorem readNumber_writable {s : List Char} {n : Int} (h : readNumber s = .ok n) :
    Numeral.isWritable n = true :=
  Numeral.read_writable (Field.liftNumeral_ok.1 h)

theorem readRow_writable {line : List Char} {e : Int × Int} (h : readRow line = .ok e) :
    Numeral.isWritable e.1 = true ∧ Numeral.isWritable e.2 = true := by
  unfold readRow at h
  split at h
  · next a v _ =>
      cases hv : readNumber v with
      | error f => simp [hv] at h
      | ok value =>
        rw [hv] at h
        obtain ⟨address, ha, rfl⟩ := Sequences.map_ok h
        exact ⟨readNumber_writable ha, readNumber_writable hv⟩
  · simp at h

theorem readRows_writable {text : String} {rows : List (Int × Int)} (h : readRows text = .ok rows) :
    ∀ e ∈ rows, Numeral.isWritable e.1 = true ∧ Numeral.isWritable e.2 = true := by
  unfold readRows at h
  split at h
  · simp at h
  · split at h
    · intro e he
      obtain ⟨line, -, hline⟩ := Sequences.mapM_mem h he
      exact readRow_writable hline
    · simp at h

theorem read_writable {text : String} {m : List (Int × Int)} (h : read text = .ok m) :
    ∀ n ∈ numbers (ofEntries m), Numeral.isWritable n = true := by
  obtain ⟨rows, hrows, rfl⟩ := Sequences.map_ok h
  intro n hn
  obtain ⟨c, hc, hn⟩ := List.mem_flatMap.1 hn
  obtain ⟨e, he, rfl⟩ := List.mem_map.1 hc
  have hw := readRows_writable hrows e (Ordered.mem_ofList he)
  rcases List.mem_pair.1 hn with rfl | rfl
  · exact hw.1
  · exact hw.2

theorem read_nodup {text : String} {m : List (Int × Int)} (h : read text = .ok m) :
    (m.map Prod.fst).Nodup := by
  obtain ⟨rows, -, rfl⟩ := Sequences.map_ok h
  exact Ordered.nodup_ofList rows

/-- Cells are read back as the map of their last values, those of a lowered program one by one; what
is read of any text is read again when it is written. -/
theorem render_read_stable [Platform] :
    (∀ cells, (∀ n ∈ numbers cells, Numeral.isWritable n = true) → ∃ text m,
      render? cells = .ok text ∧ read text = .ok m ∧ LastValues cells m) ∧
    (∀ (doc given : Json) (g : Circuit.Graph) (w : Witness) (name : String) (layout : Layout)
      (lookupBits : Json) (modulus : Int) (p : Program) (cells : List Cell),
      Circuit.read doc = .ok g → Witness.read modulus g given = .ok w →
      (Program.lower name g w layout lookupBits modulus).1 = .ok p → (write p).1 = .ok cells →
      (cells.map (·.address)).Pairwise (· < ·) ∧
        ((∀ n ∈ numbers cells, Numeral.isWritable n = true) →
          ∃ text, render? cells = .ok text ∧ read text = .ok (entries cells))) ∧
    ∀ text m, read text = .ok m → ∃ again, render? (ofEntries m) = .ok again ∧
      read again = .ok m := by
  refine ⟨?_, ?_, ?_⟩
  · intro cells h
    exact ⟨_, _, render_ok h, read_render h, ofList_lastValues cells⟩
  · intro doc given g w name layout lookupBits modulus p cells hg hw hp hc
    obtain ⟨values, hl⟩ := Program.lower_lowered hg hw hp
    refine ⟨?_, fun h => ⟨_, render_ok h, ?_⟩⟩
    · rw [write_addresses hc]
      exact addresses_ascend hl.sound.coherent hl.sound.tiles
    · rw [read_render h, Ordered.ofList_of_nodup (hl.entries_nodup hc)]
  · intro text m h
    refine ⟨_, render_ok (read_writable h), ?_⟩
    rw [read_render (read_writable h), entries_ofEntries, Ordered.ofList_of_nodup (read_nodup h)]

theorem sample_cells : ∃ p cells,
    (Program.lower "sample" Sample.graph Sample.witness default (.int 3) Field.defaultModulus).1 =
      .ok p ∧ (write p).1 = .ok cells ∧ ∀ n ∈ numbers cells, Numeral.isWritable n = true := by
  obtain ⟨p, hp, h⟩ : ∃ p, (Program.lower "sample" Sample.graph Sample.witness default (.int 3)
      Field.defaultModulus).1 = .ok p ∧
      ((write p).1.toOption.any fun cells => (numbers cells).all Numeral.isWritable) = true :=
    Clamped.exists_ok_and (by decide +kernel)
  cases hc : (write p).1 with
  | error f => simp [hc, Except.toOption] at h
  | ok cells =>
    rw [hc] at h
    exact ⟨p, cells, hp, hc, List.all_eq_true.1 h⟩

theorem repeated_rows_stable :
    (∃ text m, render? [⟨3, 5⟩, ⟨-1, 2⟩, ⟨3, 7⟩] = .ok text ∧ read text = .ok m ∧
      LastValues [⟨3, 5⟩, ⟨-1, 2⟩, ⟨3, 7⟩] m) ∧
    (∃ p cells text,
      (Program.lower "sample" Sample.graph Sample.witness default (.int 3) Field.defaultModulus).1 =
        .ok p ∧ (write p).1 = .ok cells ∧ (cells.map (·.address)).Pairwise (· < ·) ∧
      render? cells = .ok text ∧ read text = .ok (entries cells)) ∧
    read " address,value\r\n +3 ,1_0\x0c-1, 2\n3,7" = .ok [(3, 7), (-1, 2)] ∧
    ∃ again, render? (ofEntries [(3, 7), (-1, 2)]) = .ok again ∧
      read again = .ok [(3, 7), (-1, 2)] := by
  have hw : ∀ n ∈ numbers [⟨3, 5⟩, ⟨-1, 2⟩, ⟨3, 7⟩], Numeral.isWritable n = true :=
    List.all_eq_true.1 (by decide +kernel)
  have htext : read " address,value\r\n +3 ,1_0\x0c-1, 2\n3,7" = .ok [(3, 7), (-1, 2)] := by
    obtain ⟨m, hm, rfl⟩ : ∃ m, read " address,value\r\n +3 ,1_0\x0c-1, 2\n3,7" = .ok m ∧
        m = [(3, 7), (-1, 2)] := Clamped.exists_ok_and (by decide +kernel)
    exact hm
  obtain ⟨p, cells, hp, hc, hcells⟩ := sample_cells
  obtain ⟨hascend, hsample⟩ := render_read_stable.2.1 _ _ _ _ _ _ _ _ _ _ Sample.read_circuit
    Sample.read_values hp hc
  obtain ⟨text, ht, hr⟩ := hsample hcells
  exact ⟨render_read_stable.1 _ hw, ⟨p, cells, text, hp, hc, hascend, ht, hr⟩, htext,
    render_read_stable.2.2 _ _ htext⟩

end MemoryTable

end TensorAsm
