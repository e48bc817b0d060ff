import TxnDeps.Sorted

/-!
Sorted lists as they are walked in loops. A loop keeps the place that it has reached in each of the
lists, and what it has put out or counted so far.
-/

namespace TxnDeps.Walk

variable {α : Type} [Ord α]

/-- Puts `x` in front, in the place of an equal element that is there. -/
def pushDistinct (x : α) : List α → List α
  | [] => [x]
  | y :: ys => if compare x y = .eq then x :: ys else x :: y :: ys

def sortDistinct (xs : List α) : List α :=
  (xs.mergeSort fun x y => (compare x y).isLE).foldr pushDistinct []

/-- Goes on from place `i` in the one list and place `j` in the other, with `out` behind it. When
one list comes to its end, the rest of both is put out. -/
def unionFrom (as bs : List α) (i j : Nat) (out : List α) : List α :=
  if hi : i < as.length then
    if hj : j < bs.length then
      match compare as[i] bs[j] with
      | .lt => unionFrom as bs (i + 1) j (out ++ [as[i]])
      | .eq => unionFrom as bs (i + 1) (j + 1) (out ++ [as[i]])
      | .gt => unionFrom as bs i (j + 1) (out ++ [bs[j]])
    else out ++ as.drop i ++ bs.drop j
  else out ++ as.drop i ++ bs.drop j
termination_by (as.length - i) + (bs.length - j)

def union (as bs : List α) : List α := unionFrom as bs 0 0 []

def skipBelow (xs : List α) (y : α) (i : Nat) : Nat :=
  if h : i < xs.length then
    if compare xs[i] y = .lt then skipBelow xs y (i + 1) else i
  else i
termination_by xs.length - i

/-- Looks for `y` from place `i` on. The answer is whether it is there, and the place to go on
from. -/
def seek (xs : List α) (i : Nat) (y : α) : Bool × Nat :=
  let place := skipBelow xs y i
  match xs[place]? with
  | some x => if compare x y = .eq then (true, place + 1) else (false, place)
  | none => (false, place)

def countStep (xs : List α) : Nat × Nat → α → Nat × Nat
  | (i, found), y =>
    match seek xs i y with
    | (true, next) => (next, found + 1)
    | (false, next) => (next, found)

def countIn (xs ys : List α) : Nat := (ys.foldl (countStep xs) (0, 0)).2

def isSubset (xs ys : List α) : Bool :=
  if ys.length < xs.length then false else countIn xs ys == xs.length

end TxnDeps.Walk
