import TensorAsm.Binary64
import TensorAsm.Numeral
/-!
Doubles as text. Written are the fewest digits that read back, positional for exponents from -4
to 15. Read is what a decimal numeral means, rounded to nearest.
-/

namespace TensorAsm.Decimal

open Text Binary64

structure Scientific where
  digits : Nat
  count : Nat
  exponent : Int

def length (n : Nat) : Nat := (Nat.toDigits 10 n).length

def log10Ratio (num den : Nat) : Int :=
  if den ≤ num then (length (num / den) : Int) - 1
  else
    let n := length (den / num)
    if num * Nat.pow 10 (n - 1) = den then 1 - (n : Int) else -(n : Int)

/-- Four times a double's magnitude and the ends of the interval of numbers that round to it, all
over the same denominator; the ends belong to it when `closed`. -/
structure Interval where
  low : Nat
  value : Nat
  high : Nat
  den : Nat
  closed : Bool

def interval (m : Nat) (e : Int) : Interval :=
  let unit := Nat.pow 2 e.toNat
  let low := if m = fractionCount ∧ e ≠ -1074 then 4 * m - 1 else 4 * m - 2
  ⟨low * unit, 4 * m * unit, (4 * m + 2) * unit, 4 * Nat.pow 2 (-e).toNat, m % 2 = 0⟩

def Interval.holds (i : Interval) (c : Nat) (scale : Int) : Bool :=
  let x := c * Nat.pow 10 scale.toNat * i.den
  let down := Nat.pow 10 (-scale).toNat
  if i.closed then i.low * down ≤ x && x ≤ i.high * down
  else i.low * down < x && x < i.high * down

/-- The nearer of the two neighbours of the value with `n` digits that lies in the interval. -/
def Interval.candidate (i : Interval) (k : Int) (n : Nat) : Option Nat :=
  let scale := k - (n : Int) + 1
  let num := i.value * Nat.pow 10 (-scale).toNat
  let den := i.den * Nat.pow 10 scale.toNat
  let c := num / den
  let r := num % den
  match i.holds c scale, i.holds (c + 1) scale with
  | true, true => if den < 2 * r ∨ (2 * r = den ∧ c % 2 = 1) then some (c + 1) else some c
  | true, false => some c
  | false, true => some (c + 1)
  | false, false => none

def Interval.search (i : Interval) (k : Int) : Nat → Nat → Scientific
  | 0, n =>
    ⟨i.value * Nat.pow 10 ((n : Int) - 1 - k).toNat / (i.den * Nat.pow 10 (k + 1 - n).toNat), n, k⟩
  | fuel + 1, n =>
    match i.candidate k n with
    | some c => if c = Nat.pow 10 n then ⟨c / 10, n, k + 1⟩ else ⟨c, n, k⟩
    | none => i.search k fuel (n + 1)

/-- The fewest digits that read back as the positive double with these parts. -/
def shortest (m : Nat) (e : Int) : Scientific :=
  let i := interval m e
  i.search (log10Ratio i.value i.den) 17 1

def positional (k : Int) : Bool := -4 ≤ k && k < 16

def writeExponent (k : Int) : String :=
  (if k < 0 then "e-" else "e+") ++ (if k.natAbs < 10 then "0" else "") ++ Numeral.write k.natAbs

def Scientific.write (s : Scientific) : String :=
  let ds := Nat.toDigits 10 s.digits
  if positional s.exponent then
    if s.exponent < 0 then
      "0." ++ String.ofList (List.replicate (s.exponent.natAbs - 1) '0') ++ String.ofList ds
    else
      let whole := s.exponent.toNat + 1
      let tail := ds.drop whole
      String.ofList (ds.take whole ++ List.replicate (whole - ds.length) '0') ++ "."
        ++ (if tail.isEmpty then "0" else String.ofList tail)
  else
    let tail := ds.drop 1
    String.ofList (ds.take 1) ++ (if tail.isEmpty then "" else "." ++ String.ofList tail)
      ++ writeExponent s.exponent

def write (x : Float) : String :=
  match parts x with
  | .nan => "nan"
  | .infinite negative => if negative then "-inf" else "inf"
  | .finite negative m e =>
    (if negative then "-" else "") ++ if m = 0 then "0.0" else (shortest m e).write

def ofDigits (negative : Bool) (digits : Nat) (exponent : Int) : Float :=
  if digits = 0 then ofRatio negative 0 1
  else
    let top := (length digits : Int) + exponent
    if 330 < top then ofMagnitude negative infinityBits
    else if top < -350 then ofMagnitude negative 0
    else ofRatio negative (digits * Nat.pow 10 exponent.toNat) (Nat.pow 10 (-exponent).toNat)

def isAsciiDigit (c : Char) : Bool := 48 ≤ c.toNat && c.toNat ≤ 57

def digitRun (s : List Char) : List Char × List Char :=
  (s.takeWhile isAsciiDigit, s.dropWhile isAsciiDigit)

def natOf (ds : List Char) : Nat := Numeral.valueOf 10 ds

def readExponent : List Char → Option Int
  | [] => some 0
  | c :: s =>
    if c = 'e' ∨ c = 'E' then
      let (negative, s) := Numeral.splitSign s
      let (ds, rest) := digitRun s
      if ds.isEmpty ∨ !rest.isEmpty then none
      else some (if negative then -(natOf ds : Int) else natOf ds)
    else none

def readUnsigned (negative : Bool) (s : List Char) : Option Float :=
  let (whole, rest) := digitRun s
  let (fraction, rest) := match rest with
    | '.' :: r => digitRun r
    | r => ([], r)
  if whole.isEmpty ∧ fraction.isEmpty then none
  else (readExponent rest).map fun e =>
    ofDigits negative (natOf (whole ++ fraction)) (e - fraction.length)

/-- Every underscore stands between two digits; the text without them. -/
def dropUnderscores (prev : Char) : List Char → Option (List Char)
  | [] => if prev = '_' then none else some []
  | c :: s =>
    if c = '_' then if isAsciiDigit prev then dropUnderscores c s else none
    else if prev = '_' ∧ !isAsciiDigit c then none
    else (dropUnderscores c s).map (c :: ·)

def isInfinityWord (s : List Char) : Bool :=
  let w := s.map Char.toLower
  w == "inf".toList || w == "infinity".toList

def readChars (s : List Char) : Option Float := do
  let s := (s.dropWhile Numeral.isSpace).reverse.dropWhile Numeral.isSpace |>.reverse
  let s ← dropUnderscores ' ' s
  let (negative, s) := Numeral.splitSign s
  if isInfinityWord s then return ofMagnitude negative infinityBits
  else if s.map Char.toLower == "nan".toList then return Float.ofBits 0x7ff8000000000000
  else readUnsigned negative s

def read? (text : String) : Option Float := readChars (text.toList.map Numeral.plain)

end TensorAsm.Decimal
