/-!
Halves of pairs. A text may have one half of a surrogate pair alone, and no character has its code
point. Texts are held with a mark for this: a half is held as the mark and the character `0x100000`
above the half, and the mark itself is held twice. Every other code point is held as its character.
Main statement: `codes_flatMap_hold`, a text has the code points it is held for.
-/

namespace TensorAsm.Text

def isHalfCode (n : Nat) : Bool := 0xd800 ≤ n && n < 0xe000

def mark : Char := Char.ofNat 0x10ffff

/-- A code point as it is held. -/
def hold (n : Nat) : List Char :=
  if isHalfCode n then [mark, Char.ofNat (0x100000 + n)]
  else if n = 0x10ffff then [mark, mark]
  else [Char.ofNat n]

def marked (c : Char) : Nat :=
  if isHalfCode (c.toNat - 0x100000) then c.toNat - 0x100000 else c.toNat

def codes : List Char → List Nat
  | [] => []
  | [c] => [c.toNat]
  | c :: d :: s => if c = mark then marked d :: codes s else c.toNat :: codes (d :: s)

def ofCodes (ns : List Nat) : String := String.ofList (ns.flatMap hold)

theorem toNat_ofNat {n : Nat} (h : n < 0x110000) (hn : isHalfCode n = false) :
    (Char.ofNat n).toNat = n := by
  have hv : n.isValidChar := by
    simp only [isHalfCode, Bool.and_eq_false_iff, decide_eq_false_iff_not] at hn
    simp only [Nat.isValidChar]
    omega
  rw [Char.ofNat, dif_pos hv]
  rfl

theorem codes_cons {c : Char} (h : c ≠ mark) (s : List Char) :
    codes (c :: s) = c.toNat :: codes s := by
  cases s with
  | nil => rfl
  | cons d s => rw [codes, if_neg h]

theorem codes_marked (c : Char) (s : List Char) : codes (mark :: c :: s) = marked c :: codes s := by
  rw [codes, if_pos rfl]

theorem marked_ofNat {n : Nat} (h : isHalfCode n = true) :
    marked (Char.ofNat (0x100000 + n)) = n := by
  have hb : 0xd800 ≤ n ∧ n < 0xe000 := by simpa [isHalfCode] using h
  have hn : isHalfCode (0x100000 + n) = false := by simp [isHalfCode]; omega
  rw [marked, toNat_ofNat (by omega) hn, Nat.add_sub_cancel_left, if_pos h]

theorem marked_mark : marked mark = 0x10ffff := by decide

theorem codes_hold_append {n : Nat} (h : n < 0x110000) (s : List Char) :
    codes (hold n ++ s) = n :: codes s := by
  unfold hold
  split
  · next hn =>
      rw [List.cons_append, List.cons_append, List.nil_append, codes_marked, marked_ofNat hn]
  split
  · next hn =>
      rw [List.cons_append, List.cons_append, List.nil_append, codes_marked, marked_mark, hn]
  · next hn hm =>
    have hn : isHalfCode n = false := by simpa using hn
    have hc : (Char.ofNat n).toNat = n := toNat_ofNat h hn
    have hne : Char.ofNat n ≠ mark := fun e => hm (by rw [← hc, e]; decide)
    rw [List.cons_append, List.nil_append, codes_cons hne, hc]

theorem codes_flatMap_hold {ns : List Nat} (h : ∀ n ∈ ns, n < 0x110000) :
    codes (ns.flatMap hold) = ns := by
  induction ns with
  | nil => rfl
  | cons n ns ih =>
    rw [List.flatMap_cons, codes_hold_append (h n (by simp)), ih fun m hm => h m (by simp [hm])]

def symbols (s : String) : List String := (codes s.toList).map fun n => ofCodes [n]

def ofPlain (s : String) : String :=
  if s.toList.contains mark then ofCodes (s.toList.map Char.toNat) else s

/-- What a text is compared by: its code points, and behind them the characters it is held as. -/
def rank (s : String) : List Nat := (codes s.toList).map (· + 1) ++ 0 :: s.toList.map Char.toNat

def le (a b : String) : Bool := !List.lex (rank b) (rank a) fun x y => decide (x < y)

def isByteHalf (n : Nat) : Bool := 0xdc80 ≤ n && n ≤ 0xdcff

/-- The first half among `bare` with its place, counted from `i`, and the halves right behind it. -/
def runFrom? (bare : Nat → Bool) (i : Nat) : List Nat → Option (Nat × List Nat)
  | [] => none
  | n :: s => if bare n then some (i, n :: s.takeWhile isHalfCode) else runFrom? bare (i + 1) s

def halves? (bare : Nat → Bool) (s : String) : Option (Nat × List Nat) :=
  if s.toList.contains mark then runFrom? bare 0 (codes s.toList) else none

end TensorAsm.Text
