import TxnDeps.Text.Outline

/-!
Finite sets kept as strictly ascending lists. The list operations come first, then the type
`SortedList`, whose elements are always in order, so that equal sets are equal values.
-/

namespace TxnDeps

open Std (TransOrd LawfulEqOrd OrientedOrd TransCmp OrientedCmp)

variable {α : Type} [Ord α]

def Ascending (xs : List α) : Prop :=
  xs.Pairwise fun a b => compare a b = .lt

def ascends : List α → Bool
  | [] => true
  | [_] => true
  | a :: b :: rest => compare a b == .lt && ascends (b :: rest)

theorem ascending_of_ascends [TransOrd α] {xs : List α} (h : ascends xs = true) :
    Ascending xs := by
  induction xs with
  | nil => exact List.Pairwise.nil
  | cons a xs ih =>
    cases xs with
    | nil => exact List.pairwise_singleton _ _
    | cons b rest =>
      simp only [ascends, Bool.and_eq_true, beq_iff_eq] at h
      have tail : Ascending (b :: rest) := ih h.2
      refine List.pairwise_cons.2 ⟨fun c hc => ?_, tail⟩
      rcases List.mem_cons.1 hc with rfl | hc
      · exact h.1
      · exact TransCmp.lt_trans h.1 ((List.pairwise_cons.1 tail).1 c hc)

theorem ascends_of_ascending {xs : List α} (h : Ascending xs) : ascends xs = true := by
  induction xs with
  | nil => rfl
  | cons a xs ih =>
    cases xs with
    | nil => rfl
    | cons b rest =>
      have parts := List.pairwise_cons.1 h
      simp [ascends, parts.1 b List.mem_cons_self, ih parts.2]

theorem ascends_eq_true_iff [TransOrd α] {xs : List α} : ascends xs = true ↔ Ascending xs :=
  ⟨ascending_of_ascends, ascends_of_ascending⟩

instance [TransOrd α] (xs : List α) : Decidable (Ascending xs) :=
  decidable_of_iff _ ascends_eq_true_iff

def insertOrdered (x : α) : List α → List α
  | [] => [x]
  | y :: ys =>
    match compare x y with
    | .lt => x :: y :: ys
    | .eq => y :: ys
    | .gt => y :: insertOrdered x ys

theorem mem_insertOrdered [LawfulEqOrd α] {x z : α} {ys : List α} :
    z ∈ insertOrdered x ys ↔ z = x ∨ z ∈ ys := by
  induction ys with
  | nil => simp [insertOrdered]
  | cons y ys ih =>
    rw [insertOrdered]
    split
    · simp
    · next h => simp [LawfulEqOrd.eq_of_compare h]
    · simp only [List.mem_cons, ih]
      exact or_left_comm

theorem ascending_insertOrdered [TransOrd α] [LawfulEqOrd α] (x : α) {ys : List α}
    (h : Ascending ys) : Ascending (insertOrdered x ys) := by
  induction ys with
  | nil => exact List.pairwise_singleton _ _
  | cons y ys ih =>
    have parts := List.pairwise_cons.1 h
    rw [insertOrdered]
    split
    · next hlt =>
      refine List.pairwise_cons.2 ⟨fun z hz => ?_, h⟩
      rcases List.mem_cons.1 hz with rfl | hz
      · exact hlt
      · exact TransCmp.lt_trans hlt (parts.1 z hz)
    · exact h
    · next hgt =>
      refine List.pairwise_cons.2 ⟨fun z hz => ?_, ih parts.2⟩
      rcases mem_insertOrdered.1 hz with rfl | hz
      · exact OrientedCmp.lt_of_gt hgt
      · exact parts.1 z hz

def sortDistinct (xs : List α) : List α :=
  xs.foldr insertOrdered []

theorem mem_sortDistinct [LawfulEqOrd α] {z : α} {xs : List α} :
    z ∈ sortDistinct xs ↔ z ∈ xs := by
  induction xs with
  | nil => simp [sortDistinct]
  | cons x xs ih =>
    rw [sortDistinct, List.foldr_cons, mem_insertOrdered, List.mem_cons]
    exact or_congr_right ih

theorem ascending_sortDistinct [TransOrd α] [LawfulEqOrd α] (xs : List α) :
    Ascending (sortDistinct xs) := by
  induction xs with
  | nil => exact List.Pairwise.nil
  | cons x xs ih => exact ascending_insertOrdered x ih

/-- The step of `mergeOrdered` that holds the head `a` of the left list back; `rest` merges what
follows `a`. -/
def mergeHead (a : α) (rest : List α → List α) : List α → List α
  | [] => a :: rest []
  | b :: bs =>
    match compare a b with
    | .lt => a :: rest (b :: bs)
    | .eq => a :: rest bs
    | .gt => b :: mergeHead a rest bs

/-- Walks two ascending lists side by side and keeps one copy of what they share. -/
def mergeOrdered : List α → List α → List α
  | [], bs => bs
  | a :: as, bs => mergeHead a (mergeOrdered as) bs

theorem mem_mergeHead [LawfulEqOrd α] {a z : α} {as : List α} {rest : List α → List α}
    (hrest : ∀ bs, z ∈ rest bs ↔ z ∈ as ∨ z ∈ bs) (bs : List α) :
    z ∈ mergeHead a rest bs ↔ z ∈ a :: as ∨ z ∈ bs := by
  induction bs with
  | nil => simp [mergeHead, hrest]
  | cons b bs ih =>
    rw [mergeHead]
    split
    · simp only [List.mem_cons, hrest, or_assoc]
    · next h =>
      have hab : a = b := LawfulEqOrd.eq_of_compare h
      simp only [List.mem_cons, hrest, hab]
      constructor
      · rintro (h | h | h) <;> simp [h]
      · rintro ((h | h) | h | h) <;> simp [h]
    · simp only [List.mem_cons, ih]
      exact or_left_comm

theorem mem_mergeOrdered [LawfulEqOrd α] {z : α} {as bs : List α} :
    z ∈ mergeOrdered as bs ↔ z ∈ as ∨ z ∈ bs := by
  induction as generalizing bs with
  | nil => simp [mergeOrdered]
  | cons a as ih => exact mem_mergeHead (fun _ => ih) bs

theorem ascending_mergeOrdered [TransOrd α] [LawfulEqOrd α] {as bs : List α}
    (ha : Ascending as) (hb : Ascending bs) : Ascending (mergeOrdered as bs) := by
  induction as generalizing bs with
  | nil => exact hb
  | cons a as iha =>
    have left := List.pairwise_cons.1 ha
    rw [mergeOrdered]
    induction bs with
    | nil =>
      rw [mergeHead]
      refine List.pairwise_cons.2 ⟨fun z hz => ?_, iha left.2 hb⟩
      exact left.1 z ((mem_mergeOrdered.1 hz).resolve_right (List.not_mem_nil))
    | cons b bs ihb =>
      have right := List.pairwise_cons.1 hb
      rw [mergeHead]
      split
      · next hlt =>
        refine List.pairwise_cons.2 ⟨fun z hz => ?_, iha left.2 hb⟩
        rcases mem_mergeOrdered.1 hz with hz | hz
        · exact left.1 z hz
        · rcases List.mem_cons.1 hz with rfl | hz
          · exact hlt
          · exact TransCmp.lt_trans hlt (right.1 z hz)
      · next heq =>
        refine List.pairwise_cons.2 ⟨fun z hz => ?_, iha left.2 right.2⟩
        rcases mem_mergeOrdered.1 hz with hz | hz
        · exact left.1 z hz
        · exact LawfulEqOrd.eq_of_compare heq ▸ right.1 z hz
      · next hgt =>
        have hba : compare b a = .lt := OrientedCmp.lt_of_gt hgt
        refine List.pairwise_cons.2 ⟨fun z hz => ?_, ihb right.2⟩
        rcases (mem_mergeHead (fun _ => mem_mergeOrdered) bs).1 hz with hz | hz
        · rcases List.mem_cons.1 hz with rfl | hz
          · exact hba
          · exact TransCmp.lt_trans hba (left.1 z hz)
        · exact right.1 z hz

def includedIn : List α → List α → Bool
  | [], _ => true
  | _ :: _, [] => false
  | x :: xs, y :: ys =>
    match compare x y with
    | .lt => false
    | .eq => includedIn xs ys
    | .gt => includedIn (x :: xs) ys

/-- Halves a window of `size` places at `base` until one place is left, keeping the upper half
unless its first element exceeds `x`. -/
def narrow (xs : List α) (x : α) : (fuel base size : Nat) → Nat
  | 0, base, _ => base
  | fuel + 1, base, size =>
    if size ≤ 1 then base
    else
      let half := size / 2
      match xs[base + half]? with
      | some y =>
        narrow xs x fuel (if compare y x = .gt then base else base + half) (size - half)
      | none => base

/-- A place of `x` by binary search. On an ascending list it finds `x` wherever it stands; on any
other list the answer depends on the places that the halving visits. -/
def bisect? (xs : List α) (x : α) : Option Nat :=
  let place := narrow xs x xs.length 0 xs.length
  match xs[place]? with
  | some y => if compare y x = .eq then some place else none
  | none => none

structure SortedList (α : Type) [Ord α] where
  toList : List α
  ascending : Ascending toList

namespace SortedList

@[ext]
theorem ext {s t : SortedList α} (h : s.toList = t.toList) : s = t := by
  cases s; cases t; cases h; rfl

instance [DecidableEq α] : DecidableEq (SortedList α) := fun s t =>
  decidable_of_iff (s.toList = t.toList) ⟨ext, congrArg toList⟩

def empty : SortedList α := ⟨[], List.Pairwise.nil⟩

instance : Inhabited (SortedList α) := ⟨empty⟩

instance : Membership α (SortedList α) := ⟨fun s x => x ∈ s.toList⟩

def ofList [TransOrd α] [LawfulEqOrd α] (xs : List α) : SortedList α :=
  ⟨sortDistinct xs, ascending_sortDistinct xs⟩

def ofAscending? [TransOrd α] (xs : List α) : Option (SortedList α) :=
  if h : Ascending xs then some ⟨xs, h⟩ else none

def insert [TransOrd α] [LawfulEqOrd α] (s : SortedList α) (x : α) : SortedList α :=
  ⟨insertOrdered x s.toList, ascending_insertOrdered x s.ascending⟩

def size (s : SortedList α) : Nat := s.toList.length

def isEmpty (s : SortedList α) : Bool := s.toList.isEmpty

def get? (s : SortedList α) (i : Nat) : Option α := s.toList[i]?

def indexOf? (s : SortedList α) (x : α) : Option Nat := bisect? s.toList x

def contains (s : SortedList α) (x : α) : Bool := (s.indexOf? x).isSome

def isSubsetOf (s t : SortedList α) : Bool := includedIn s.toList t.toList

def filter (s : SortedList α) (keep : α → Bool) : SortedList α :=
  ⟨s.toList.filter keep, s.ascending.filter keep⟩

def union [TransOrd α] [LawfulEqOrd α] (s t : SortedList α) : SortedList α :=
  ⟨mergeOrdered s.toList t.toList, ascending_mergeOrdered s.ascending t.ascending⟩

instance [Outline α] : Outline (SortedList α) where
  outline s := Outline.fields "SortedList" [("items", outline s.toList)]

end SortedList

end TxnDeps
