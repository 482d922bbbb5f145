import ScanTriage.Number.Power

/-!
# Quicksort

An unstable sort whose order of equal items is fixed: a quicksort that tells
sorted, reversed and many equal items by looking at a few of them, scatters
some items after an unbalanced partition, and turns to heapsort after too many
of those. Short ranges are sorted by insertion, so up to `maxInsertion` items
keep their order if they are equal.

Every step exchanges two items of an array, so the result is a permutation of
what is sorted. A range `a b` holds the places from `a` to below `b`.
-/

namespace ScanTriage

namespace Quicksort

variable {α : Type}

/-- Ranges of at most so many items are sorted by insertion. -/
def maxInsertion : Nat := 12

/-- From so many items on, the pivot is a median of three medians. -/
def shortestNinther : Nat := 50

/-- From so many items on, a nearly sorted range is mended item by item. -/
def shortestShifting : Nat := 50

/-- So many items of a nearly sorted range are mended at most. -/
def maxShifts : Nat := 5

def lessAt (lt : α → α → Bool) (data : Array α) (i j : Nat) : Bool :=
  match data[i]?, data[j]? with
  | some x, some y => lt x y
  | _, _ => false

/-! ## Insertion -/

/-- Moves the item at a place down to `low` as long as it is less than the one
below it. -/
def sink (lt : α → α → Bool) (low : Nat) : (place : Nat) → Array α → Array α
  | 0, data => data
  | j + 1, data =>
    if low ≤ j && lessAt lt data (j + 1) j then sink lt low j (data.swapIfInBounds (j + 1) j)
    else data

/-- Moves the item below a place up as long as the one at the place is less. -/
def rise (lt : α → α → Bool) : (steps place : Nat) → Array α → Array α
  | 0, _, data => data
  | steps + 1, j, data =>
    if lessAt lt data j (j - 1) then rise lt steps (j + 1) (data.swapIfInBounds j (j - 1))
    else data

def insertionSort (lt : α → α → Bool) (a b : Nat) (data : Array α) : Array α :=
  (List.range' (a + 1) (b - (a + 1))).foldl (fun data i => sink lt a i data) data

/-- The first place from `i` on whose item is less than the one below it. -/
def firstDescent (lt : α → α → Bool) (data : Array α) : (steps i : Nat) → Nat
  | 0, i => i
  | steps + 1, i => if lessAt lt data i (i - 1) then i else firstDescent lt data steps (i + 1)

/-- Mends a range that is nearly sorted. Answers whether it is sorted now. -/
def mend (lt : α → α → Bool) (a b : Nat) : (shifts i : Nat) → Array α → Bool × Array α
  | 0, _, data => (false, data)
  | shifts + 1, i, data =>
    let i := firstDescent lt data (b - i) i
    if i == b then (true, data)
    else if b - a < shortestShifting then (false, data)
    else
      let data := data.swapIfInBounds i (i - 1)
      let data := if 2 ≤ i - a then sink lt 0 (i - 1) data else data
      let data := if 2 ≤ b - i then rise lt (b - (i + 1)) (i + 1) data else data
      mend lt a b shifts i data

/-! ## Heapsort -/

/-- Restores a heap with the greatest item on top, whose root is at `first`. -/
def siftDown (lt : α → α → Bool) (first hi : Nat) : (fuel root : Nat) → Array α → Array α
  | 0, _, data => data
  | fuel + 1, root, data =>
    let child := 2 * root + 1
    if hi ≤ child then data
    else
      let child :=
        if child + 1 < hi && lessAt lt data (first + child) (first + child + 1) then child + 1
        else child
      if lessAt lt data (first + root) (first + child) then
        siftDown lt first hi fuel child (data.swapIfInBounds (first + root) (first + child))
      else data

def heapSort (lt : α → α → Bool) (a b : Nat) (data : Array α) : Array α :=
  let size := b - a
  let heap := (List.range ((size - 1) / 2 + 1)).reverse.foldl
    (fun data root => siftDown lt a size size root data) data
  (List.range size).reverse.foldl
    (fun data last => siftDown lt a last size 0 (data.swapIfInBounds a (a + last))) heap

/-! ## Pivots -/

/-- What the items that were compared for a pivot say of the range. -/
inductive Trend where
  | increasing
  | decreasing
  | unknown
  deriving DecidableEq

/-- Two places in the order of their items, one exchange more if they were not. -/
def order2 (lt : α → α → Bool) (data : Array α) (i j swaps : Nat) : Nat × Nat × Nat :=
  if lessAt lt data j i then (j, i, swaps + 1) else (i, j, swaps)

def median (lt : α → α → Bool) (data : Array α) (i j k swaps : Nat) : Nat × Nat :=
  let (i, j, swaps) := order2 lt data i j swaps
  let (j, _, swaps) := order2 lt data j k swaps
  let (_, j, swaps) := order2 lt data i j swaps
  (j, swaps)

/-- A pivot for a range of more than `maxInsertion` items. -/
def choosePivot (lt : α → α → Bool) (a b : Nat) (data : Array α) : Nat × Trend :=
  let quarter := (b - a) / 4
  let around (i swaps : Nat) : Nat × Nat :=
    if shortestNinther ≤ b - a then median lt data (i - 1) i (i + 1) swaps else (i, swaps)
  let (i, swaps) := around (a + quarter) 0
  let (j, swaps) := around (a + quarter * 2) swaps
  let (k, swaps) := around (a + quarter * 3) swaps
  let (pivot, swaps) := median lt data i j k swaps
  (pivot, if swaps == 0 then .increasing else if swaps == 12 then .decreasing else .unknown)

def reverseRange (a b : Nat) (data : Array α) : Array α :=
  (List.range ((b - a) / 2)).foldl (fun data i => data.swapIfInBounds (a + i) (b - 1 - i)) data

def nextRandom (r : UInt64) : UInt64 :=
  let r := r ^^^ (r <<< 13)
  let r := r ^^^ (r >>> 7)
  r ^^^ (r <<< 17)

/-- Exchanges three items in the middle of a range with others. -/
def scatter (a b : Nat) (data : Array α) : Array α :=
  let length := b - a
  let middle := a + length / 4 * 2 - 2
  let step (state : UInt64 × Array α) (i : Nat) : UInt64 × Array α :=
    let random := nextRandom state.1
    let other := random.toNat % 2 ^ (length.log2 + 1)
    let other := if length ≤ other then other - length else other
    (random, state.2.swapIfInBounds (middle + i) (a + other))
  ([0, 1, 2].foldl step (UInt64.ofNat length, data)).2

/-! ## Partitions -/

/-- The first place from `i` to `j` that fails a test, or the one after `j`. -/
def advance (test : Nat → Bool) (j : Nat) : (fuel i : Nat) → Nat
  | 0, i => i
  | fuel + 1, i => if i ≤ j && test i then advance test j fuel (i + 1) else i

/-- The last place from `j` down to `i` that fails a test, or the one before
`i`. -/
def retreat (test : Nat → Bool) (i : Nat) : (j : Nat) → Nat
  | 0 => 0
  | j + 1 => if i ≤ j + 1 && test (j + 1) then retreat test i j else j + 1

/-- Exchanges items that stand on the wrong side, from both ends of what is
left: `low` tells the items for the lower side and `high` those for the upper.
Answers where the two sides meet, how many exchanges were made, and the items. -/
def divide (low high : Array α → Nat → Bool) :
    (fuel exchanged i j : Nat) → Array α → Nat × Nat × Nat × Array α
  | 0, exchanged, i, j, data => (i, j, exchanged, data)
  | fuel + 1, exchanged, i, j, data =>
    let i := advance (low data) j (j + 1 - i) i
    let j := retreat (high data) i j
    if j < i then (i, j, exchanged, data)
    else divide low high fuel (exchanged + 1) (i + 1) (j - 1) (data.swapIfInBounds i j)

/-- Divides a range into items less than the pivot, the pivot, and the others.
Answers the new place of the pivot, and whether the range was so divided
already. -/
def partition (lt : α → α → Bool) (a b pivot : Nat) (data : Array α) : Nat × Bool × Array α :=
  let (_, j, exchanged, data) :=
    divide (fun data i => lessAt lt data i a) (fun data j => !lessAt lt data j a) (b - a) 0
      (a + 1) (b - 1) (data.swapIfInBounds a pivot)
  (j, exchanged == 0, data.swapIfInBounds j a)

/-- Divides a range without items less than the pivot into those equal to it
and those greater. Answers where the greater ones start. -/
def partitionEqual (lt : α → α → Bool) (a b pivot : Nat) (data : Array α) : Nat × Array α :=
  let (i, _, _, data) :=
    divide (fun data i => !lessAt lt data a i) (fun data j => lessAt lt data a j) (b - a) 0
      (a + 1) (b - 1) (data.swapIfInBounds a pivot)
  (i, data)

/-! ## Sorting -/

/-- What is known from the partitions before. -/
structure Course where
  /-- So many more unbalanced partitions are put up with. -/
  patience : Nat
  wasBalanced : Bool := true
  wasPartitioned : Bool := true

/-- Sorts a range. The shorter side of a partition is sorted first. -/
def sortRange (lt : α → α → Bool) : (fuel : Nat) → Course → (a b : Nat) → Array α → Array α
  | 0, _, _, _, data => data
  | fuel + 1, c, a, b, data =>
    if b - a ≤ maxInsertion then insertionSort lt a b data
    else if c.patience == 0 then heapSort lt a b data
    else
      let data := if c.wasBalanced then data else scatter a b data
      let c := if c.wasBalanced then c else { c with patience := c.patience - 1 }
      let (pivot, trend) := choosePivot lt a b data
      let (pivot, trend, data) :=
        match trend with
        | .decreasing => (b - 1 - (pivot - a), Trend.increasing, reverseRange a b data)
        | trend => (pivot, trend, data)
      let (isSorted, data) :=
        if c.wasBalanced && c.wasPartitioned && trend == .increasing then
          mend lt a b maxShifts (a + 1) data
        else (false, data)
      if isSorted then data
      else if 0 < a && !lessAt lt data (a - 1) pivot then
        let (middle, data) := partitionEqual lt a b pivot data
        sortRange lt fuel c middle b data
      else
        let (middle, wasPartitioned, data) := partition lt a b pivot data
        let shorter := min (middle - a) (b - middle)
        let next : Course :=
          { c with wasBalanced := (b - a) / 8 ≤ shorter, wasPartitioned := wasPartitioned }
        let fresh : Course := { patience := c.patience }
        if middle - a < b - middle then
          sortRange lt fuel next (middle + 1) b (sortRange lt fuel fresh a middle data)
        else
          sortRange lt fuel next a middle (sortRange lt fuel fresh (middle + 1) b data)

def sort (lt : α → α → Bool) (items : List α) : List α :=
  let size := items.length
  let patience := if size == 0 then 0 else size.log2 + 1
  (sortRange lt (size + 1) { patience := patience } 0 size items.toArray).toList

end Quicksort

end ScanTriage
