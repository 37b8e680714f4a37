import Mathlib
import TensorAsm.Config
import TensorAsm.Proofs.Image
import TensorAsm.Proofs.WitnessValues
/-!
Integers, the elements that they have and the texts that stand for them. An integer comes back from
its element if it is less than half the modulus away from zero. The three ways to write a value
agree on every integer that fits.
-/

namespace TensorAsm

/-! ## Elements -/

namespace Field

variable {m v e : Int}

/-- The element of an integer can be taken, and its centred value is the integer again. -/
def Recovered (m v : Int) : Prop := (encode? m v >>= centre? m) = .ok v

theorem encode?_eq (hm : m ≠ 0) (v : Int) : encode? m v = .ok (encode m v) := by
  rw [encode?, nonzero, if_neg hm]

theorem centre?_eq (hm : m ≠ 0) (e : Int) : centre? m e = .ok (centre m e) := by
  rw [centre?, nonzero, if_neg hm]

theorem recovered_iff (hm : m ≠ 0) : Recovered m v ↔ centre m (encode m v) = v := by
  have hbind : (encode? m v >>= centre? m) = centre? m (encode m v) := by
    rw [encode?_eq hm]
    rfl
  rw [Recovered, hbind, centre?_eq hm, Except.ok.injEq]

theorem centre_bounds (hm : 0 < m) (e : Int) : -m < 2 * centre m e ∧ 2 * centre m e ≤ m := by
  have hlo := Int.emod_nonneg e hm.ne'
  have hhi := Int.emod_lt_of_pos e hm
  rw [centre, half_eq, Int.fmod_eq_emod_of_nonneg e hm.le]
  split <;> omega

theorem centre_fits (hm : 0 < m) (e : Int) : Fits m (centre m e) := by
  have hb := centre_bounds hm e
  rw [Fits, half_eq]
  omega

theorem centre_modEq (hm : 0 < m) (e : Int) : centre m e ≡ e [ZMOD m] :=
  (encode_eq_iff hm).1 (encode_centre m e)

theorem encode_canonical (h : 0 ≤ e) (he : e < m) : encode m e = e := by
  rw [encode, Int.fmod_eq_emod_of_nonneg e (by omega), Int.emod_eq_of_lt h he]

theorem centre_encode_self_iff (hm : 0 < m) :
    centre m (encode m v) = v ↔ -m < 2 * v ∧ 2 * v ≤ m := by
  constructor
  · intro h
    rw [← h]
    exact centre_bounds hm _
  · rintro ⟨hl, hu⟩
    exact centre_encode hl hu

/-- Of the integers that fit, the least one under an even modulus is not recovered. -/
theorem recovered_iff_fits (hm : 0 < m) : Recovered m v ↔ Fits m v ∧ 2 * v ≠ -m := by
  rw [recovered_iff hm.ne', centre_encode_self_iff hm, Fits, half_eq]
  omega

theorem odd_of_fits_recovered (hm : 0 < m) (h : ∀ v, Fits m v → Recovered m v) : m % 2 = 1 := by
  by_contra heven
  have hfits : Fits m (-(m / 2)) := by
    rw [Fits, half_eq]
    omega
  have hne := ((recovered_iff_fits hm).1 (h _ hfits)).2
  omega

theorem fits_iff_recovered (hodd : m % 2 = 1) (hm : 0 < m) : Fits m v ↔ Recovered m v := by
  rw [recovered_iff_fits hm]
  refine ⟨fun h => ⟨h, ?_⟩, And.left⟩
  omega

theorem encode_mapsTo (hm : 0 < m) : Set.MapsTo (encode m) {v | Fits m v} (Set.Ico 0 m) :=
  fun v _ => encode_bounds hm v

theorem encode_surjOn (hm : 0 < m) : Set.SurjOn (encode m) {v | Fits m v} (Set.Ico 0 m) := by
  rintro e ⟨h, he⟩
  exact ⟨centre m e, centre_fits hm e, (encode_centre m e).trans (encode_canonical h he)⟩

/-- Elements are given once if the modulus is odd, and only then: half an even modulus and its
opposite have one element. -/
theorem encode_injOn_iff (hm : 0 < m) : Set.InjOn (encode m) {v | Fits m v} ↔ m % 2 = 1 := by
  constructor
  · intro hinj
    apply odd_of_fits_recovered hm
    intro v hv
    rw [recovered_iff hm.ne']
    apply hinj (centre_fits hm _) hv
    rw [encode_centre, encode_encode]
  · intro hodd v hv w hw h
    rw [← hv.centre_encode hodd, ← hw.centre_encode hodd, h]

end Field

namespace Config

theorem modulus_three_le {config : Json} {m : Int} (h : modulus config = .ok m) : 3 ≤ m := by
  have hcheck {n : Int} (hn : checkModulus n = .ok m) : 3 ≤ m := by
    rw [checkModulus] at hn
    split at hn
    · exact absurd hn (by simp)
    · obtain rfl := Except.ok.inj hn
      omega
  unfold modulus at h
  split at h
  · exact absurd h (by simp)
  dsimp only at h
  split at h
  · exact absurd h (by simp)
  · obtain rfl := Except.ok.inj h
    decide
  split at h
  · exact absurd h (by simp)
  · exact hcheck h

/-- Under every modulus that can be configured, an integer comes back from its element exactly if
it fits and is not the opposite of half the modulus. Every element has a centred value, which fits
and has that element again. So fitting integers and elements go together one by one exactly if the
modulus is odd. -/
theorem modulus_recovers {config : Json} {m : Int} (h : modulus config = .ok m) :
    (∀ v, Field.Recovered m v ↔ Field.Fits m v ∧ 2 * v ≠ -m) ∧
      (∀ e, 0 ≤ e → e < m →
        ∃ v, Field.centre? m e = .ok v ∧ Field.Fits m v ∧ Field.encode? m v = .ok e) ∧
      ((∀ v, Field.Fits m v ↔ Field.Recovered m v) ↔ m % 2 = 1) ∧
      (Set.BijOn (Field.encode m) {v | Field.Fits m v} (Set.Ico 0 m) ↔ m % 2 = 1) := by
  have hthree := modulus_three_le h
  have hm : 0 < m := by omega
  refine ⟨fun v => Field.recovered_iff_fits hm, ?_, ?_, ?_⟩
  · intro e h0 he
    refine ⟨Field.centre m e, Field.centre?_eq hm.ne' e, Field.centre_fits hm e, ?_⟩
    rw [Field.encode?_eq hm.ne', Field.encode_centre, Field.encode_canonical h0 he]
  · exact ⟨fun hall => Field.odd_of_fits_recovered hm fun v => (hall v).1,
      fun hodd v => Field.fits_iff_recovered hodd hm⟩
  · rw [← Field.encode_injOn_iff hm]
    exact ⟨fun hb => hb.injOn, fun hi => ⟨Field.encode_mapsTo hm, hi, Field.encode_surjOn hm⟩⟩

def ofModulus (j : Json) : Json := .obj [("field", .obj [("modulus", j)])]

theorem seven_recovers :
    modulus (ofModulus (.str " 0b111")) = .ok 7 ∧ Field.Recovered 7 (-3) ∧ Field.Recovered 7 3 ∧
      ¬ Field.Recovered 7 4 ∧ Set.BijOn (Field.encode 7) {v | Field.Fits 7 v} (Set.Ico 0 7) := by
  have h : modulus (ofModulus (.str " 0b111")) = .ok 7 := rfl
  obtain ⟨hrec, -, -, hbij⟩ := modulus_recovers h
  refine ⟨h, (hrec _).2 (by decide), (hrec _).2 (by decide), ?_, hbij.2 rfl⟩
  exact fun h4 => absurd ((hrec 4).1 h4).1 (by decide)

/-- Four can be configured, minus two fits there, and two comes back from its element. -/
theorem even_modulus_ambiguous :
    modulus (ofModulus (.int 4)) = .ok 4 ∧ Field.Fits 4 (-2) ∧
      (Field.encode? 4 (-2) >>= Field.centre? 4) = .ok 2 ∧ ¬ Field.Recovered 4 (-2) := by
  refine ⟨rfl, by decide, rfl, ?_⟩
  exact fun h => absurd (Except.ok.inj h) (by decide)

end Config

/-! ## Texts -/

namespace Numeral

open Text

theorem toLower_cases (c : Char) :
    c.toLower = c ∨ 65 ≤ c.toNat ∧ c.toNat ≤ 90 ∧ c.toLower.toNat = c.toNat + 32 := by
  by_cases h : c.isUpper = true
  · have hb : 65 ≤ c.toNat ∧ c.toNat ≤ 90 := by
      simpa [Char.isUpper, UInt32.le_iff_toNat_le] using h
    rw [Char.toLower_eq_of_isUpper h, Char.toNat_ofNat, if_pos (.inl (by omega))]
    exact .inr ⟨hb.1, hb.2, rfl⟩
  · exact .inl (Char.toLower_eq_of_not_isUpper h)

theorem digitValue_toLower (c : Char) : digitValue? 16 c.toLower = digitValue? 16 c := by
  rcases toLower_cases c with h | ⟨hl, hu, h⟩
  · rw [h]
  · have hnone : ¬(48 ≤ c.toNat ∧ c.toNat ≤ 57) ∧ ¬(97 ≤ c.toNat ∧ c.toNat ≤ 102) := by omega
    have hnone' : ¬(48 ≤ c.toNat + 32 ∧ c.toNat + 32 ≤ 57) := by omega
    have hsame : (97 ≤ c.toNat + 32 ∧ c.toNat + 32 ≤ 102) ↔ 65 ≤ c.toNat ∧ c.toNat ≤ 70 := by omega
    have hupper : ¬(65 ≤ c.toNat + 32 ∧ c.toNat + 32 ≤ 70) := by omega
    have hsub : c.toNat + 32 - 87 = c.toNat - 55 := by omega
    simp only [digitValue?, h, hnone.1, hnone.2, hnone', hsame, hupper, hsub, if_false]

theorem digitValue_digitChar : ∀ d < 16, digitValue? 16 (Nat.digitChar d) = some d := by
  decide

theorem Digits.of_values {base : Nat} {s : List Char} {ds : List Nat} (hne : s ≠ [])
    (h : s.map (digitValue? base) = ds.map some) : Digits base s ds := by
  induction s generalizing ds with
  | nil => exact absurd rfl hne
  | cons c s ih =>
    cases ds with
    | nil => simp at h
    | cons d ds =>
      obtain ⟨hc, hs⟩ := List.cons.inj h
      cases s with
      | nil =>
        obtain rfl : ds = [] := by simpa using hs.symm
        exact .one hc
      | cons e s => exact .next hc (ih (by simp) hs)

theorem toDigits_values (n : Nat) : ∃ ds : List Nat, Nat.ofDigits 16 ds.reverse = n ∧
    (Nat.toDigits 16 n).map (digitValue? 16) = ds.map some := by
  induction n using Nat.strongRecOn with
  | ind n ih =>
    by_cases hn : n < 16
    · refine ⟨[n], by simp, ?_⟩
      rw [Nat.toDigits_of_lt_base hn, List.map_singleton, digitValue_digitChar n hn]
      rfl
    · obtain ⟨ds, hds, hmap⟩ := ih (n / 16) (by omega)
      refine ⟨ds ++ [n % 16], ?_, ?_⟩
      · rw [List.reverse_append, List.reverse_singleton, List.singleton_append, Nat.ofDigits_cons,
          hds]
        omega
      · rw [Nat.toDigits_of_base_le (by decide) (by omega), List.map_append, hmap,
          List.map_singleton, digitValue_digitChar _ (Nat.mod_lt n (by decide))]
        simp

theorem digitValue_ascii {c : Char} {d : Nat} (h : digitValue? 16 c = some d) : c.toNat < 127 := by
  by_contra hlt
  have hd : ¬(48 ≤ c.toNat ∧ c.toNat ≤ 57) := by omega
  have hl : ¬(97 ≤ c.toNat ∧ c.toNat ≤ 102) := by omega
  have hu : ¬(65 ≤ c.toNat ∧ c.toNat ≤ 70) := by omega
  simp [digitValue?, hd, hl, hu] at h

theorem Hexadecimal.of_toLower {body : List Char} {n : Nat}
    (h : body.map Char.toLower = '0' :: 'x' :: Nat.toDigits 16 n) : Hexadecimal body n := by
  obtain ⟨zero, body, rfl, hz, h⟩ := List.map_eq_cons_iff.1 h
  obtain ⟨mark, rest, rfl, hm, h⟩ := List.map_eq_cons_iff.1 h
  obtain ⟨ds, hds, hmap⟩ := toDigits_values n
  have hvalues : rest.map (digitValue? 16) = ds.map some := by
    rw [← hmap, ← h, List.map_map]
    exact List.map_congr_left fun c _ => (digitValue_toLower c).symm
  have hzero : zero = '0' := by
    rcases toLower_cases zero with he | ⟨hl, -, he⟩
    · rw [← he, hz]
    · rw [hz] at he
      exact absurd he (by have : '0'.toNat = 48 := rfl; omega)
  have hmark : mark = 'x' ∨ mark = 'X' := by
    rcases toLower_cases mark with he | ⟨hl, -, he⟩
    · exact .inl (by rw [← he, hm])
    · rw [hm] at he
      have hx : 'x'.toNat = 'X'.toNat + 32 := rfl
      exact .inr (Char.toNat_inj.1 (by omega))
  have hplain : ∀ c ∈ rest, plain c = c := by
    intro c hc
    have hmem : digitValue? 16 c ∈ ds.map some := hvalues ▸ List.mem_map_of_mem hc
    obtain ⟨d, -, hd⟩ := List.mem_map.1 hmem
    exact plain_ascii (digitValue_ascii hd.symm)
  have hne : rest ≠ [] := by
    rintro rfl
    simp at h
  refine ⟨mark, rest, [], rest, ds, by rw [hzero], hmark, ?_, .inl rfl, .of_values hne hvalues, ?_⟩
  · rw [List.map_congr_left hplain, List.map_id', List.nil_append]
  · simp [number, hds]

theorem decimal_write {n : Int} (h : isWritable n = true) : Decimal (write n).toList n := by
  obtain ⟨a, body, b, htext, hspace, hnum⟩ := read_decimal_iff.1 (read_write h)
  -- a written number has no blanks, so there are none around the numeral
  have hnone (l : List Char) (hl : l ⊆ a ++ b) (hw : l ⊆ (write n).toList) : l = [] := by
    rw [List.eq_nil_iff_forall_not_mem]
    intro c hc
    have hsolid := (word_write n).solid c (hw hc)
    rw [blank_of_isSpace (hspace c (hl hc))] at hsolid
    exact absurd hsolid (by simp)
  obtain rfl := hnone a (List.subset_append_left _ _) (by rw [htext]; simp)
  obtain rfl := hnone b (List.subset_append_right _ _) (by rw [htext]; simp)
  rwa [htext, List.nil_append, List.append_nil]

end Numeral

namespace Field

open Text Numeral

variable {m v : Int}

theorem hasHexMark_trim {s a rest : List Char} {mark : Char} (hs : s = a ++ '0' :: mark :: rest)
    (ha : ∀ c ∈ a, isBlank c = true) (hm : mark = 'x' ∨ mark = 'X') :
    hasHexMark (trim s) = true := by
  have hlast : ∀ c ∈ ['0', mark].getLast?, isBlank c = false := by
    rcases hm with rfl | rfl <;> simp [isBlank]
  have hstart : trimStart ('0' :: mark :: rest) = ['0', mark] ++ rest :=
    trimStart_solid (by simp [isBlank])
  rw [hs, trim, trimStart_blanks ha, hstart, trimEnd_append hlast]
  simpa [hasHexMark] using hm

/-- A fitting integer, its decimal numeral among any blanks, and its element in hexadecimal, with
small or capital letters, are all read as the integer. Whatever text with a mark is read, however
great its number, its value fits and is congruent to the number. -/
theorem parse_spellings (hm : 3 ≤ m) (hodd : m % 2 = 1) :
    (∀ v, Fits m v →
      parse m (.int v) = .ok v ∧
      ∀ a b, (∀ c ∈ a ++ b, isBlank c = true) →
        (isWritable v = true →
          parse m (.str (String.ofList (a ++ (write v).toList ++ b))) = .ok v) ∧
        ∀ body, body.map Char.toLower = '0' :: 'x' :: Nat.toDigits 16 (encode m v).toNat →
          parse m (.str (String.ofList (a ++ body ++ b))) = .ok v) ∧
    ∀ s a mark rest v, s.toList = a ++ '0' :: mark :: rest → (∀ c ∈ a, isBlank c = true) →
      mark = 'x' ∨ mark = 'X' → parse m (.str s) = .ok v →
      Fits m v ∧ ∃ front body back n, s.toList = front ++ body ++ back ∧
        (∀ c ∈ front ++ back, isBlank c = true) ∧ Hexadecimal body n ∧ v ≡ n [ZMOD m] := by
  have hpos : 0 < m := by omega
  constructor
  · intro v hv
    refine ⟨rfl, fun a b hab => ⟨fun hw => ?_, fun body hbody => ?_⟩⟩
    · exact (parse_iff hpos.ne').2 (.decimal String.toList_ofList hab (decimal_write hw))
    · have hread := (parse_iff hpos.ne').2
        (.hexadecimal String.toList_ofList hab (Hexadecimal.of_toLower hbody))
      rwa [Int.toNat_of_nonneg (encode_bounds hpos v).1, hv.centre_encode hodd] at hread
  · intro s a mark rest v hs ha hmark hp
    have hx := hasHexMark_trim hs ha hmark
    cases (parse_iff hpos.ne').1 hp with
    | decimal hs' hb hnum =>
      rw [hs', trim_blanks hb hnum.solid hnum.ne_nil, hnum.hasHexMark] at hx
      exact absurd hx (by simp)
    | @hexadecimal _ front body back n hs' hb hnum =>
      exact ⟨centre_fits hpos n, front, body, back, n, hs', hb, hnum, centre_modEq hpos n⟩

/-- Minus five under the modulus 31, as an integer, among blanks, and as its element 26 with a
capital mark; and the value of a long text with divided digits. -/
theorem minus_five_spellings :
    parse 31 (.int (-5)) = .ok (-5) ∧ parse 31 (.str "\u2003-5\n") = .ok (-5) ∧
      parse 31 (.str "0X1a ") = .ok (-5) ∧
      ∃ v, parse 31 (.str "0x_1F_00000000000000000000000000000005") = .ok v ∧ Fits 31 v := by
  obtain ⟨hspell, hmarked⟩ := parse_spellings (m := 31) (by decide) (by decide)
  obtain ⟨hint, htext⟩ := hspell (-5) (by decide)
  refine ⟨hint, ?_, ?_, ?_⟩
  · exact (htext ['\u2003'] ['\n'] (by simp [isBlank])).1
      (isWritable_of_lt (k := 1) (by decide) (by decide))
  · exact (htext [] [' '] (by simp [isBlank])).2 ['0', 'X', '1', 'a'] (by decide)
  · obtain ⟨v, hv⟩ : ∃ v, parse 31 (.str "0x_1F_00000000000000000000000000000005") = .ok v :=
      ⟨_, rfl⟩
    exact ⟨v, hv, (hmarked _ [] 'x' _ v rfl (by simp) (.inl rfl) hv).1⟩

end Field

end TensorAsm
