/-!
Sorting by runs: rising and falling runs are found from the left, short ones are filled up by
insertion, and neighbours are merged, the deeper pairs first. A merge goes element by element until
one side wins often, then by whole stretches. The comparisons made are fixed, and with them the
outcome where they contradict one another.
-/

namespace TensorAsm.Runs

def halve (stays : Nat → Bool) : Nat → Nat → Nat → Nat
  | 0, lo, _ => lo
  | fuel + 1, lo, hi =>
    if lo < hi then
      let mid := lo + (hi - lo) / 2
      if stays mid then halve stays fuel (mid + 1) hi else halve stays fuel lo mid
    else lo

/-- Strides of 1, 3, 7, and so on, as long as they go on: the last that did, and the next one, which
is at most `limit`. -/
def strides (goesOn : Nat → Bool) (limit : Nat) : Nat → Nat → Nat → Nat × Nat
  | 0, last, next => (last, min next limit)
  | fuel + 1, last, next =>
    if next < limit && goesOn next then strides goesOn limit fuel next (2 * next + 1)
    else (last, min next limit)

def gallop (stays : Nat → Bool) (n near : Nat) : Nat :=
  if stays near then
    let (last, next) := strides (fun k => stays (near + k)) (n - near) n 0 1
    halve stays n (near + last + 1) (near + next)
  else
    let (last, next) := strides (fun k => !stays (near - k)) (near + 1) n 0 1
    halve stays n (near + 1 - next) (near - last)

variable {α : Type}

def run (goesOn : α → α → Bool) (last : α) (done : List α) : List α → List α × List α
  | [] => (last :: done, [])
  | x :: xs => if goesOn last x then run goesOn x (last :: done) xs else (last :: done, x :: xs)

/-- The first run in rising order: it rises or stays level, or falls at every step. -/
def firstRun (lt : α → α → Bool) : List α → List α × List α
  | x :: y :: xs =>
    if lt y x then run (fun last next => lt next last) x [] (y :: xs)
    else
      let (r, rest) := run (fun last next => !lt next last) x [] (y :: xs)
      (r.reverse, rest)
  | xs => (xs, [])

def insert (lt : α → α → Bool) (xs : List α) (x : α) : List α :=
  let place := halve (fun i => (xs[i]?).any fun y => !lt x y) (xs.length + 1) 0 xs.length
  xs.take place ++ x :: xs.drop place

/-- Runs are filled up to this length: the number of elements, halved and rounded up until it is at
most 64. -/
def leastLength (n : Nat) : Nat :=
  let unit := Nat.pow 2 (n.log2 - 5)
  (n + unit - 1) / unit

def nextRun (lt : α → α → Bool) (least : Nat) (xs : List α) : List α × List α :=
  let (r, rest) := firstRun lt xs
  ((rest.take (least - r.length)).foldl (insert lt) r, rest.drop (least - r.length))

def splitRuns (lt : α → α → Bool) (least : Nat) : Nat → List α → List (List α)
  | 0, _ => []
  | _ + 1, [] => []
  | fuel + 1, xs =>
    let (r, rest) := nextRun lt least xs
    r :: splitRuns lt least fuel rest

structure Merging (α : Type) where
  done : List α
  as : List α
  bs : List α

namespace Merging

def takeA (m : Merging α) (k : Nat) : Merging α :=
  ⟨(m.as.take k).reverse ++ m.done, m.as.drop k, m.bs⟩

def takeB (m : Merging α) (k : Nat) : Merging α :=
  ⟨(m.bs.take k).reverse ++ m.done, m.as, m.bs.drop k⟩

end Merging

/-- An end from which runs are merged: when a merge is over and with what outcome, whether the next
of `b` goes before that of `a`, and how many of one run go before the next of the other. -/
structure Side (α : Type) where
  outcome? : Merging α → Option (List α)
  prefersB : α → α → Bool
  countA : α → List α → Nat
  countB : α → List α → Nat

def low (lt : α → α → Bool) : Side α where
  outcome?
    | ⟨done, [], bs⟩ => some (done.reverse ++ bs)
    | ⟨done, as, []⟩ => some (done.reverse ++ as)
    | ⟨done, [a], bs⟩ => some (done.reverse ++ bs ++ [a])
    | _ => none
  prefersB a b := lt b a
  countA b as := let xs := as.toArray; gallop (fun i => (xs[i]?).any fun x => !lt b x) xs.size 0
  countB a bs := let xs := bs.toArray; gallop (fun i => (xs[i]?).any fun x => lt x a) xs.size 0

def high (lt : α → α → Bool) : Side α where
  outcome?
    | ⟨done, [], bs⟩ => some (bs.reverse ++ done)
    | ⟨done, as, []⟩ => some (as.reverse ++ done)
    | ⟨done, as, [b]⟩ => some (b :: as.reverse ++ done)
    | _ => none
  prefersB a b := !lt b a
  countA b as :=
    let xs := as.reverse.toArray
    xs.size - gallop (fun i => (xs[i]?).any fun x => !lt b x) xs.size (xs.size - 1)
  countB a bs :=
    let xs := bs.reverse.toArray
    xs.size - gallop (fun i => (xs[i]?).any fun x => lt x a) xs.size (xs.size - 1)

namespace Side

def goOn (s : Side α) (m : Merging α) : Except (List α) (Merging α) :=
  match s.outcome? m with
  | some out => .error out
  | none => .ok m

/-- A stretch of `a`, one of `b`, a stretch of `b` and one of `a`, with the lengths of the
stretches, or the outcome if the merge ends on the way. -/
def stretches (s : Side α) (m : Merging α) : Except (List α) (Merging α × Nat × Nat) := do
  let a := match m.bs with
    | b :: _ => s.countA b m.as
    | [] => 0
  let m ← s.goOn (m.takeA a)
  let m ← s.goOn (m.takeB 1)
  let b := match m.as with
    | x :: _ => s.countB x m.bs
    | [] => 0
  let m ← s.goOn (m.takeB b)
  let m ← s.goOn (m.takeA 1)
  return (m, a, b)

def worth : Nat := 7

mutual

/-- Goes element by element until one side has won `patience` times in a row. Returns the outcome
and the patience for the next merge. -/
def race (s : Side α) : Nat → Nat → Nat → Nat → Merging α → List α × Nat
  | 0, patience, _, _, m => (m.done.reverse ++ m.as ++ m.bs, patience)
  | fuel + 1, patience, a, b, m =>
    match m.as, m.bs with
    | x :: _, y :: _ =>
      if s.prefersB x y then
        match s.goOn (m.takeB 1) with
        | .error out => (out, patience)
        | .ok m =>
          if patience ≤ b + 1 then s.leap fuel patience m else s.race fuel patience 0 (b + 1) m
      else
        match s.goOn (m.takeA 1) with
        | .error out => (out, patience)
        | .ok m =>
          if patience ≤ a + 1 then s.leap fuel patience m else s.race fuel patience (a + 1) 0 m
    | _, _ => (m.done.reverse ++ m.as ++ m.bs, patience)

/-- Goes by stretches as long as they are worth it. Each time the patience falls; it rises when the
stretches are given up. -/
def leap (s : Side α) : Nat → Nat → Merging α → List α × Nat
  | 0, patience, m => (m.done.reverse ++ m.as ++ m.bs, patience)
  | fuel + 1, patience, m =>
    match s.stretches m with
    | .error out => (out, patience)
    | .ok (m, a, b) =>
      if worth ≤ a ∨ worth ≤ b then s.leap fuel (max 1 (patience - 1)) m
      else s.race fuel (patience + 1) 0 0 m

end

def finish (s : Side α) (patience : Nat) (m : Merging α) : List α × Nat :=
  match s.goOn m with
  | .error out => (out, patience)
  | .ok m => s.race (2 * (m.as.length + m.bs.length) + 2) patience 0 0 m

end Side

def merge (lt : α → α → Bool) (patience : Nat) (as bs : List α) : List α × Nat :=
  match bs with
  | [] => (as, patience)
  | b :: _ =>
    let before := (low lt).countA b as
    match (as.drop before).reverse with
    | [] => (as ++ bs, patience)
    | last :: others =>
      let xs := bs.toArray
      let within := gallop (fun i => (xs[i]?).any fun x => lt x last) xs.size (xs.size - 1)
      if within = 0 then (as ++ bs, patience)
      else
        let m : Merging α := ⟨[], as.drop before, bs.take within⟩
        let (out, patience) :=
          if m.as.length ≤ within then (low lt).finish patience (m.takeB 1)
          else (high lt).finish patience (Merging.takeA ⟨[], last :: others, m.bs.reverse⟩ 1)
        (as.take before ++ out ++ bs.drop within, patience)

structure Waiting (α : Type) where
  start : Nat
  items : List α
  depth : Nat

/-- The depth of the border between two neighbours among `total` elements: the first binary digit
in which the places of their middles differ. -/
def borderDepth (start first second total : Nat) : Nat :=
  let a := 2 * start + first
  let b := a + first + second
  ((List.range 64).find? fun k => a * Nat.pow 2 k / total != b * Nat.pow 2 k / total).getD 64

def settle (lt : α → α → Bool) (depth patience : Nat) (top : Waiting α) :
    List (Waiting α) → List (Waiting α) × Nat
  | [] => ([{ top with depth := depth }], patience)
  | w :: below =>
    if depth < w.depth then
      let (items, patience) := merge lt patience w.items top.items
      settle lt depth patience ⟨w.start, items, 0⟩ below
    else ({ top with depth := depth } :: w :: below, patience)

def push (lt : α → α → Bool) (total : Nat) (state : List (Waiting α) × Nat) (items : List α) :
    List (Waiting α) × Nat :=
  match state with
  | ([], patience) => ([⟨0, items, 0⟩], patience)
  | (top :: below, patience) =>
    let depth := borderDepth top.start top.items.length items.length total
    let (stack, patience) := settle lt depth patience top below
    (⟨top.start + top.items.length, items, 0⟩ :: stack, patience)

/-- Merges all that waits, the shorter neighbour of the second run first. -/
def collapse (lt : α → α → Bool) : Nat → Nat → List (Waiting α) → List α
  | _, _, [] => []
  | _, _, [w] => w.items
  | 0, _, ws => (ws.reverse.map (·.items)).flatten
  | fuel + 1, patience, c :: b :: a :: below =>
    if a.items.length < c.items.length then
      let (items, patience) := merge lt patience a.items b.items
      collapse lt fuel patience (c :: ⟨a.start, items, 0⟩ :: below)
    else
      let (items, patience) := merge lt patience b.items c.items
      collapse lt fuel patience (⟨b.start, items, 0⟩ :: a :: below)
  | _ + 1, patience, [c, b] => (merge lt patience b.items c.items).1

def sort (lt : α → α → Bool) (xs : List α) : List α :=
  let runs := splitRuns lt (leastLength xs.length) xs.length xs
  let (stack, patience) := runs.foldl (push lt xs.length) ([], Side.worth)
  collapse lt runs.length patience stack

end TensorAsm.Runs
