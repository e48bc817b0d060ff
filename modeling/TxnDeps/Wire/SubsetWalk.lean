import TxnDeps.Sorted.Walk
import TxnDeps.Wire.Subset

namespace TxnDeps.Walk

variable {α : Type}

section

variable [Ord α]

/-- The places of the second list from `i` on, each with whether its element is in the first list
from place `j` on. -/
def membershipFrom (xs : List α) : (j i : Nat) → List α → List (Nat × Bool)
  | _, _, [] => []
  | j, i, y :: ys =>
    let found := seek xs j y
    (i, found.1) :: membershipFrom xs found.2 (i + 1) ys

def membership (xs ys : List α) : List (Nat × Bool) := membershipFrom xs 0 0 ys

/-- Each element is searched for only after the count has failed. -/
def checkSubset (xs ys : List α) : Except SubsetViolation Unit :=
  if isSubset xs ys then .ok ()
  else .error ⟨xs.length, ys.length, xs.countP fun x => (bisect? ys x).isNone⟩

def absentBitmap (xs ys : List α) : Except (Halt SubsetViolation) Nat :=
  ((membership xs ys).filter fun place => !place.2).foldlM
    (fun bitmap place => (bitmap ||| ·) <$> Halt.shiftLeft 1 place.1) 0

def encodeSubset (xs ys : List α) : Except (Halt SubsetViolation) Bytes :=
  match checkSubset xs ys with
  | .error violation => .error (.failed violation)
  | .ok () =>
    if ys.length < bitmapLimit then Uvarint.encode <$> absentBitmap xs ys
    else do
      let missing ← Halt.minus ys.length xs.length
      let wanted := Marks.listsPresent ys.length xs.length
      let listed := (membership xs ys).filter fun place => place.2 == wanted
      pure (Uvarint.encode missing ++ listed.flatMap fun place => Uvarint.encode place.1)

/-- How long the code of a subset is. The elements are not tested for being in the superset. -/
def subsetSize (xs ys : List α) : Except (Halt SubsetViolation) Nat :=
  if ys.length < bitmapLimit then Uvarint.size <$> absentBitmap xs ys
  else do
    let wanted := Marks.listsPresent ys.length xs.length
    let listed := (membership xs ys).filter fun place => place.2 == wanted
    let missing ← Halt.minus ys.length xs.length
    pure (Uvarint.size missing + Bytes.totalSize (fun place => Uvarint.size place.1) listed)

end

def keepUnset (bits : Nat) (ys : List α) : Except (Halt Fault) (List α) :=
  List.map Prod.fst <$> ys.zipIdx.filterM fun (_, i) => (bits &&& · == 0) <$> Halt.shiftLeft 1 i

def dropPlaces : (places : List Nat) → (i : Nat) → List α → List α
  | _, _, [] => []
  | places, i, y :: ys =>
    if places.head? = some i then dropPlaces places.tail (i + 1) ys
    else y :: dropPlaces places (i + 1) ys

def readSubset {σ : Type} [ByteSource σ] (ys : List α) : Step σ (Halt Fault) (List α) := do
  let start ← Reader.position
  if ys.length < bitmapLimit then
    let bits ← Reader.uvarint
    let beyond ← Step.ofExcept (Halt.shiftRight bits ys.length)
    if beyond ≠ 0 then Reader.failAt start (.subsetBits bits ys.length)
    else Step.ofExcept (keepUnset bits ys)
  else
    let missing ← (Reader.count ys.length).mapError
      (Halt.map fun _ => ⟨start, .subsetMissing ys.length⟩)
    let present ← Step.ofExcept (Halt.minus ys.length missing)
    let wanted := Marks.listsPresent ys.length present
    let places ← Reader.increasing ys.length (if wanted then present else missing) none
    if wanted then Step.ofExcept (places.mapM fun i => Halt.expect .index ys[i]?)
    else pure (dropPlaces places 0 ys)

end TxnDeps.Walk
