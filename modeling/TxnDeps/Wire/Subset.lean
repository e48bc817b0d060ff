import TxnDeps.Wire.Uvarint

/-!
Subsets of a set that both sides know. A subset is a mark for each element of the superset, and the
marks go on the wire: fewer than 64 of them as the bits of one number, with a bit set for each
element that is absent; more of them as the number of absent elements and then the positions of
the present or of the absent elements, whichever that number says are fewer.
-/

namespace TxnDeps

structure SubsetViolation where
  size : Nat
  superset : Nat
  missing : Nat
  deriving DecidableEq

def SubsetViolation.message (v : SubsetViolation) : String :=
  s!"Subset violation: {v.missing} of {v.size} elements absent from superset of {v.superset}"

def bitmapLimit : Nat := 64

namespace Marks

def absentBits : List Bool → Nat
  | [] => 0
  | mark :: rest => (if mark then 0 else 1) + 2 * absentBits rest

def ofAbsentBits (bits : Nat) : (size i : Nat) → Except (Halt Fault) (List Bool)
  | 0, _ => .ok []
  | size + 1, i =>
    match Halt.shiftLeft 1 i, ofAbsentBits bits size (i + 1) with
    | .ok bit, .ok marks => .ok ((bits &&& bit == 0) :: marks)
    | .error halt, _ => .error halt
    | _, .error halt => .error halt

def positions (wanted : Bool) : (i : Nat) → List Bool → List Nat
  | _, [] => []
  | i, mark :: rest =>
    if mark = wanted then i :: positions wanted (i + 1) rest else positions wanted (i + 1) rest

/-- The marks at `i` and after it that are `wanted` at the given positions only, which have to be
among them. -/
def ofPositions? (wanted : Bool) : (size i : Nat) → List Nat → Option (List Bool)
  | 0, _, [] => some []
  | 0, _, _ :: _ => none
  | size + 1, i, [] => (ofPositions? wanted size (i + 1) []).map ((!wanted) :: ·)
  | size + 1, i, p :: ps =>
    if p = i then (ofPositions? wanted size (i + 1) ps).map (wanted :: ·)
    else (ofPositions? wanted size (i + 1) (p :: ps)).map ((!wanted) :: ·)

/-- The present elements are listed if they are fewer than half. -/
def listsPresent (size present : Nat) : Bool := present < size / 2

def present (marks : List Bool) : Nat := marks.count true

def encode (marks : List Bool) : Bytes :=
  if marks.length < bitmapLimit then Uvarint.encode (absentBits marks)
  else
    Uvarint.encode (marks.length - present marks) ++
      (positions (listsPresent marks.length (present marks)) 0 marks).flatMap Uvarint.encode

def encodedSize (marks : List Bool) : Nat :=
  if marks.length < bitmapLimit then Uvarint.size (absentBits marks)
  else
    Uvarint.size (marks.length - present marks) +
      Bytes.totalSize Uvarint.size
        (positions (listsPresent marks.length (present marks)) 0 marks)

def select {α : Type} : List Bool → List α → List α
  | true :: marks, x :: xs => x :: select marks xs
  | false :: marks, _ :: xs => select marks xs
  | _, _ => []

theorem select_sublist {α : Type} (marks : List Bool) (xs : List α) :
    (select marks xs).Sublist xs := by
  induction xs generalizing marks with
  | nil => cases marks with
    | nil => exact .slnil
    | cons mark marks => cases mark <;> exact .slnil
  | cons x xs ih => cases marks with
    | nil => exact List.nil_sublist _
    | cons mark marks =>
      cases mark
      · exact .cons _ (ih marks)
      · exact .cons_cons _ (ih marks)

end Marks

namespace Reader

variable {σ : Type} [ByteSource σ]

/-- Positions below `size`, each above the `previous` one. -/
def increasing (size : Nat) : (count : Nat) → (previous : Option Nat) →
    Step σ (Halt Fault) (List Nat)
  | 0, _ => pure []
  | count + 1, previous => do
    let start ← position
    let p ← uvarint
    if size ≤ p then failAt start (.subsetPosition p size)
    else if previous.any (p ≤ ·) then failAt start .subsetOrder
    else
      let rest ← increasing size count (some p)
      pure (p :: rest)

def marks (size : Nat) : Reader (List Bool) := do
  let start ← position
  if size < bitmapLimit then
    let bits ← uvarint
    let beyond ← Step.ofExcept (Halt.shiftRight bits size)
    if beyond ≠ 0 then failAt start (.subsetBits bits size)
    else Step.ofExcept (Marks.ofAbsentBits bits size 0)
  else
    let missing ← (count size).mapError (Halt.map fun _ => ⟨start, .subsetMissing size⟩)
    let present ← Step.ofExcept (Halt.minus size missing)
    let wanted := Marks.listsPresent size present
    let listed ← increasing size (if wanted then present else missing) none
    Step.ofExcept (Halt.expect .index (Marks.ofPositions? wanted size 0 listed))

end Reader

namespace SortedList

variable {α : Type} [Ord α]

def marksIn : (subset superset : List α) → List Bool
  | _, [] => []
  | subset, y :: superset =>
    match subset.dropWhile (compare · y == .lt) with
    | [] => false :: marksIn [] superset
    | x :: rest =>
      if compare x y = .eq then true :: marksIn rest superset
      else false :: marksIn (x :: rest) superset

def marks (subset superset : SortedList α) : List Bool := marksIn subset.toList superset.toList

def pick (superset : SortedList α) (marks : List Bool) : SortedList α :=
  ⟨Marks.select marks superset.toList,
    superset.ascending.sublist (Marks.select_sublist marks superset.toList)⟩

def checkSubset (subset superset : SortedList α) : Except SubsetViolation Unit :=
  if subset.isSubsetOf superset then .ok ()
  else
    .error ⟨subset.size, superset.size,
      (subset.toList.filter fun x => !superset.contains x).length⟩

def encodeIn (subset superset : SortedList α) : Except SubsetViolation Bytes :=
  match subset.checkSubset superset with
  | .ok () => .ok (Marks.encode (subset.marks superset))
  | .error violation => .error violation

def encodedSizeIn (subset superset : SortedList α) : Nat :=
  Marks.encodedSize (subset.marks superset)

def readIn (superset : SortedList α) : Reader (SortedList α) := do
  let marks ← Reader.marks superset.size
  pure (superset.pick marks)

end SortedList

end TxnDeps
