import TxnDeps.Proofs.Sorted.Membership

namespace TxnDeps

open Std (TransOrd LawfulEqOrd OrientedCmp)

variable {α : Type} [Ord α] [TransOrd α] [LawfulEqOrd α]

theorem Ascending.compare_lt_iff {xs : List α} (h : Ascending xs) {i j : Nat} {x y : α}
    (hi : xs[i]? = some x) (hj : xs[j]? = some y) : compare x y = .lt ↔ i < j := by
  obtain ⟨hil, rfl⟩ := List.getElem?_eq_some_iff.1 hi
  obtain ⟨hjl, rfl⟩ := List.getElem?_eq_some_iff.1 hj
  obtain hij | rfl | hji := Nat.lt_trichotomy i j
  · simp [List.pairwise_iff_getElem.1 h i j hil hjl hij, hij]
  · simp
  · have hgt : compare xs[j] xs[i] = .lt := List.pairwise_iff_getElem.1 h j i hjl hil hji
    simp [OrientedCmp.gt_of_lt hgt, Nat.le_of_lt hji]

/-- The window holds the place of `x` and shrinks to it. -/
theorem narrow_eq {xs : List α} {x : α} (h : Ascending xs) {place : Nat}
    (hplace : xs[place]? = some x) (fuel base size : Nat) (hfuel : size ≤ fuel + 1)
    (hend : base + size ≤ xs.length) (hlow : base ≤ place) (hhigh : place < base + size) :
    narrow xs x fuel base size = place := by
  induction fuel generalizing base size with
  | zero =>
    rw [narrow]
    omega
  | succ fuel ih =>
    rw [narrow]
    split
    · omega
    · next hsize =>
      have hmid : base + size / 2 < xs.length := by omega
      have hy : xs[base + size / 2]? = some xs[base + size / 2] := List.getElem?_eq_getElem hmid
      simp only [hy, OrientedCmp.gt_iff_lt, h.compare_lt_iff hplace hy]
      split
      · exact ih base (size - size / 2) (by omega) (by omega) hlow (by omega)
      · exact ih (base + size / 2) (size - size / 2) (by omega) (by omega) (by omega) (by omega)

omit [TransOrd α] [LawfulEqOrd α] in
theorem lt_length_of_bisect? {xs : List α} {x : α} {i : Nat} (h : bisect? xs x = some i) :
    i < xs.length := by
  simp only [bisect?] at h
  split at h
  · next y hy =>
    split at h
    · cases h
      exact (List.getElem?_eq_some_iff.1 hy).1
    · cases h
  · cases h

theorem bisect?_eq_some_iff {xs : List α} (h : Ascending xs) {x : α} {i : Nat} :
    bisect? xs x = some i ↔ xs[i]? = some x := by
  constructor
  · intro hi
    simp only [bisect?] at hi
    split at hi
    · next y hy =>
      split at hi
      · next heq =>
        cases hi
        rw [hy, LawfulEqOrd.eq_of_compare heq]
      · cases hi
    · cases hi
  · intro hi
    have hlen : i < xs.length := (List.getElem?_eq_some_iff.1 hi).1
    have hplace : narrow xs x xs.length 0 xs.length = i :=
      narrow_eq h hi _ _ _ (by omega) (by omega) (by omega) (by omega)
    simp [bisect?, hplace, hi]

theorem isSome_bisect?_iff {xs : List α} (h : Ascending xs) {x : α} :
    (bisect? xs x).isSome ↔ x ∈ xs := by
  rw [Option.isSome_iff_exists, List.mem_iff_getElem?]
  exact exists_congr fun _ => bisect?_eq_some_iff h

namespace SortedList

theorem indexOf?_eq_some_iff {s : SortedList α} {x : α} {i : Nat} :
    s.indexOf? x = some i ↔ s.toList[i]? = some x :=
  bisect?_eq_some_iff s.ascending

@[simp]
theorem contains_eq_true_iff {s : SortedList α} {x : α} : s.contains x = true ↔ x ∈ s :=
  isSome_bisect?_iff s.ascending

theorem indexOf?_eq_none_iff {s : SortedList α} {x : α} : s.indexOf? x = none ↔ x ∉ s := by
  rw [← Option.not_isSome_iff_eq_none]
  exact not_congr contains_eq_true_iff

instance (x : α) (s : SortedList α) : Decidable (x ∈ s) :=
  decidable_of_iff (s.contains x = true) contains_eq_true_iff

end SortedList

end TxnDeps
