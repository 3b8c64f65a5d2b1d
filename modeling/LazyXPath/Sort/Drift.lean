import LazyXPath.Power
import LazyXPath.Sort.Inquiry

/-!
# Driftsort

The stable sort of the standard library. Short lists are sorted by insertion. A longer one is cut into **stretches**:
runs that are sorted already, if they are long enough, and pieces of other elements. Stretches are joined in the order
of a balanced tree that is drawn up on the way (`Drift.depth`). Pieces of short lists are sorted at once; in longer
lists they are joined unsorted as long as possible, to be sorted by a stable quicksort later.

A sort is an inquiry. Of its parts only `Drift.mergeHalves` notices when the answers belong to no order: it merges two
halves from both ends, and breaks off when the two merges do not meet.
-/

namespace LazyXPath

namespace Drift

open Inquiry

variable {α : Type}

/-! ### Insertion -/

/-- Moves an element to its place in a sorted list that stands in reverse. -/
def sink (x : α) : List α → Inquiry α (List α)
  | [] => return [x]
  | y :: ys => do
    if ← before x y then return y :: (← sink x ys)
    else return x :: y :: ys

/-- Inserts elements one by one into a sorted list that stands in reverse. -/
def insertAll : List α → List α → Inquiry α (List α)
  | reversed, [] => return reversed.reverse
  | reversed, x :: xs => do insertAll (← sink x reversed) xs

/-! ### Merging -/

/-- Takes up to the given number of elements from the heads of two lists, until one of them is used up: the lesser head,
or the greater one when the lists stand in reverse. Gives the elements taken and what is left of the two lists. -/
def draw (front : Bool) : Nat → List α → List α → Inquiry α (List α × List α × List α)
  | n + 1, x :: xs, y :: ys => do
    if (← before y x) = front then
      let (taken, xs, ys) ← draw front n (x :: xs) ys
      return (y :: taken, xs, ys)
    else
      let (taken, xs, ys) ← draw front n xs (y :: ys)
      return (x :: taken, xs, ys)
  | _, xs, ys => return ([], xs, ys)

/-- Merges two sorted lists, starting at the end where the shorter one is. -/
def merge (xs ys : List α) : Inquiry α (List α) := do
  if xs.length ≤ ys.length then
    let (taken, xs, ys) ← draw true (xs.length + ys.length) xs ys
    return taken ++ xs ++ ys
  else
    let (taken, xs, ys) ← draw false (xs.length + ys.length) xs.reverse ys.reverse
    return (taken ++ xs ++ ys).reverse

/-- Merges the two sorted halves of a list from both ends, each up to the middle. The one element in between, if there
is one, is in both remainders. It breaks off if an element was taken twice or never. -/
def mergeHalves (xs ys : List α) : Inquiry α (List α) := do
  let n := xs.length
  let (low, xs₁, ys₁) ← draw true n xs ys
  let (high, xs₂, ys₂) ← draw false n xs.reverse ys.reverse
  if xs.length ≤ xs₁.length + xs₂.length ∧ ys.length ≤ ys₁.length + ys₂.length then
    let middle := xs₁.take (xs₁.length + xs₂.length - xs.length) ++ ys₁.take (ys₁.length + ys₂.length - ys.length)
    return low ++ middle ++ high.reverse
  else broken

/-! ### Small lists -/

/-- Two elements, the second one first if it is less. -/
def inOrder (x y : α) : Inquiry α (α × α) := do
  if ← before y x then return (y, x) else return (x, y)

/-- Sorts four elements with five questions. -/
def sortFour (p q r s : α) : Inquiry α (List α) := do
  let (a, b) ← inOrder p q
  let (c, d) ← inOrder r s
  let lower ← before c a
  let upper ← before d b
  let least := if lower then c else a
  let greatest := if upper then b else d
  let (x, y) ← inOrder (if lower then a else if upper then c else b) (if upper then d else if lower then b else c)
  return [least, x, y, greatest]

/-- Sorts one half of a small list, the first four elements together if the list is not too short. -/
def sortHalf : Bool → List α → Inquiry α (List α)
  | true, p :: q :: r :: s :: rest => do insertAll (← sortFour p q r s).reverse rest
  | _, xs => insertAll [] xs

/-- Sorts a small list. -/
def smallSort (v : List α) : Inquiry α (List α) := do
  if v.length < 2 then return v
  else
    let (xs, ys) := v.splitAt (v.length / 2)
    let xs ← sortHalf (8 ≤ v.length) xs
    let ys ← sortHalf (8 ≤ v.length) ys
    mergeHalves xs ys

/-- Lists up to this length are small. -/
def smallLength : Nat := 32

/-! ### Stretches -/

/-- A part of the list, whose elements may be sorted already. -/
structure Stretch (α : Type) where
  sorted : Bool
  items : List α

/-- The elements by which a run goes on after the given one. A run goes up, or it goes strictly down. -/
def climb (down : Bool) (x : α) : List α → Inquiry α (List α)
  | [] => return []
  | y :: ys => do
    if (← before y x) = down then return y :: (← climb down y ys)
    else return []

/-- The run with which a list begins, in ascending order. -/
def existingRun : List α → Inquiry α (List α)
  | x :: y :: ys => do
    let down ← before y x
    let run := x :: y :: (← climb down y ys)
    return if down then run.reverse else run
  | v => return v

/-- How a list is to be sorted: whether the pieces are sorted at once, how they are sorted otherwise, and the length of
the list. -/
structure Plan (α : Type) where
  eager : Bool
  sortPiece : List α → Inquiry α (List α)
  total : Nat

namespace Plan

variable (p : Plan α)

/-- The length from which on a run is kept: half of a short list, and about the square root of the length of a long
one. -/
def goodLength : Nat :=
  if p.total ≤ 4096 then min (p.total - p.total / 2) 64
  else
    let shift := (1 + (p.total ||| 1).log2) / 2
    (twoTo shift + p.total / twoTo shift) / 2

/-- The number of elements for which there is room aside: all of them, or half of a list that takes more than eight
megabytes. An item has 72 bytes. -/
def room : Nat := max (p.total - p.total / 2) (min p.total (8000000 / 72))

/-- The run with which the rest of the list begins, where there is room for a long one. -/
def firstRun (v : List α) : Inquiry α (List α) :=
  if p.goodLength ≤ v.length then existingRun v else return []

/-- The stretch with which the rest of the list begins. -/
def stretch (v : List α) : Inquiry α (Stretch α) := do
  let run ← p.firstRun v
  if p.goodLength ≤ run.length then return ⟨true, run⟩
  else if p.eager then return ⟨true, ← smallSort (v.take smallLength)⟩
  else return ⟨false, v.take p.goodLength⟩

/-- The elements of a stretch in order. -/
def settle (s : Stretch α) : Inquiry α (List α) :=
  if s.sorted then return s.items else p.sortPiece s.items

/-- Joins two stretches. Two pieces that are not sorted stay so as long as there is room for both. -/
def join (s t : Stretch α) : Inquiry α (Stretch α) := do
  if p.room < s.items.length + t.items.length ∨ s.sorted ∨ t.sorted then
    let xs ← p.settle s
    let ys ← p.settle t
    return ⟨true, ← merge xs ys⟩
  else return ⟨false, s.items ++ t.items⟩

/-- The depth in the tree of the joint between two neighbouring stretches, given where the first one begins, where they
meet and where the second one ends. -/
def depth (first joint last : Nat) : Nat :=
  let scale := (twoTo 62 + p.total - 1) / p.total
  let z := (scale * (first + joint)) ^^^ (scale * (joint + last))
  if z = 0 then 64 else 63 - z.log2

/-- Joins a stretch with those before it whose joints are not above the given depth. The first one always stays. -/
def collapse (depth : Nat) (s : Stretch α) : List (Stretch α × Nat) → Inquiry α (Stretch α × List (Stretch α × Nat))
  | (t, d) :: u :: stack => do
    if depth ≤ d then collapse depth (← p.join t s) (u :: stack)
    else return (s, (t, d) :: u :: stack)
  | stack => return (s, stack)

/-- Cuts what is left of the list into stretches and joins them, given where it begins, the last stretch before it, and
the stretches before that one with the depths of their joints. -/
def joinAll (place : Nat) (last : Stretch α) (stack : List (Stretch α × Nat)) :
    List α → Inquiry α (Stretch α)
  | [] => do
    let (whole, _) ← p.collapse 0 last stack
    return whole
  | x :: xs => do
    let next ← p.stretch (x :: xs)
    let stop := place + next.items.length
    let depth := p.depth (place - last.items.length) place stop
    let (last, stack) ← p.collapse depth last stack
    joinAll stop next ((last, depth) :: stack) (xs.drop (next.items.length - 1))
termination_by v => v.length

end Plan

/-- Sorts a list by its stretches. -/
def byStretches (eager : Bool) (sortPiece : List α → Inquiry α (List α)) (v : List α) : Inquiry α (List α) := do
  let p : Plan α := ⟨eager, sortPiece, v.length⟩
  p.settle (← p.joinAll 0 ⟨true, []⟩ [] v)

/-! ### Quicksort -/

/-- The place of the median of the elements at three places. -/
def median (v : Nat → α) (i j k : Nat) : Inquiry α Nat := do
  let x ← before (v i) (v j)
  let y ← before (v i) (v k)
  if x = y then
    let z ← before (v j) (v k)
    return if z = x then j else k
  else return i

/-- A place near the median of the elements that follow three places. -/
def spread (v : Nat → α) (i j k n : Nat) : Inquiry α Nat := do
  if n < 8 then median v i j k
  else
    let m := n / 8
    let i ← spread v i (i + 4 * m) (i + 7 * m) m
    let j ← spread v j (j + 4 * m) (j + 7 * m) m
    let k ← spread v k (k + 4 * m) (k + 7 * m) m
    median v i j k
termination_by n

/-- Divides a list by a question about each element. -/
def divide (toLeft : α → Inquiry α Bool) : List α → Inquiry α (List α × List α)
  | [] => return ([], [])
  | x :: xs => do
    let here ← toLeft x
    let (left, right) ← divide toLeft xs
    return if here then (x :: left, right) else (left, x :: right)

/-- What a pivot makes of a list. -/
structure Division (α : Type) where
  pivot : α
  /-- Whether the elements on the left are all equal to the pivot, which is one of them. -/
  even : Bool
  left : List α
  right : List α

/-- Whether a pivot is no greater than one to the left of the list. -/
def equalsAncestor (pivot : α) : Option α → Inquiry α Bool
  | some a => do return !(← before a pivot)
  | none => return false

/-- Divides a list without lesser elements than the pivot: those that are equal go to the left. -/
def evenDivision (leading : List α) (pivot : α) (trailing : List α) : Inquiry α (Division α) := do
  let toLeft (y : α) : Inquiry α Bool := do return !(← before pivot y)
  let (left₁, right₁) ← divide toLeft leading
  let (left₂, right₂) ← divide toLeft trailing
  return ⟨pivot, true, left₁ ++ pivot :: left₂, right₁ ++ right₂⟩

/-- Divides a list at an element: the lesser ones go to the left, if there are any. -/
def divisionAt (ancestor : Option α) (leading : List α) (pivot : α) (trailing : List α) : Inquiry α (Division α) := do
  if ← equalsAncestor pivot ancestor then evenDivision leading pivot trailing
  else
    let (left₁, right₁) ← divide (before · pivot) leading
    let (left₂, right₂) ← divide (before · pivot) trailing
    if (left₁ ++ left₂).isEmpty then evenDivision leading pivot trailing
    else return ⟨pivot, false, left₁ ++ left₂, right₁ ++ pivot :: right₂⟩

/-- The place of an element near the median of a list. -/
def pivotPlace (x : α) (v : List α) : Inquiry α Nat :=
  let n := v.length / 8
  spread (fun i => v.getD i x) 0 (4 * n) (7 * n) n

/-- Sorts a list by pivots, with a bound for their number in a row. -/
def quicksort : Nat → Option α → List α → Inquiry α (List α)
  | _, _, [] => return []
  | 0, _, v => if v.length ≤ smallLength then smallSort v else byStretches true smallSort v
  | bound + 1, ancestor, x :: xs => do
    let v := x :: xs
    if v.length ≤ smallLength then smallSort v
    else
      let place ← pivotPlace x v
      let d ← divisionAt ancestor (v.take place) (v.getD place x) (v.drop (place + 1))
      if d.even then return d.left ++ (← quicksort bound none d.right)
      else
        let right ← quicksort bound (some d.pivot) d.right
        let left ← quicksort bound ancestor d.left
        return left ++ right

/-- Sorts a piece of a long list. -/
def sortPiece (v : List α) : Inquiry α (List α) := quicksort (2 * (v.length ||| 1).log2) none v

/-! ### All lists -/

/-- Sorts a list. -/
def sort (v : List α) : Inquiry α (List α) :=
  if v.length ≤ 20 then insertAll [] v else byStretches (v.length ≤ 2 * smallLength) sortPiece v

end Drift

end LazyXPath
