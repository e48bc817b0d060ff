import TxnDeps.Sorted

namespace TxnDeps

open Std (TransOrd LawfulEqOrd OrientedOrd TransCmp OrientedCmp)

variable {α : Type} [Ord α]

namespace Ascending

theorem lt_of_mem {x y : α} {xs : List α} (h : Ascending (x :: xs)) (hy : y ∈ xs) :
    compare x y = .lt :=
  (List.pairwise_cons.1 h).1 y hy

theorem tail {x : α} {xs : List α} (h : Ascending (x :: xs)) : Ascending xs :=
  (List.pairwise_cons.1 h).2

variable [LawfulEqOrd α]

theorem nodup {xs : List α} (h : Ascending xs) : xs.Nodup :=
  h.imp fun hlt he => by simp [he] at hlt

theorem head_not_mem {x : α} {xs : List α} (h : Ascending (x :: xs)) : x ∉ xs :=
  fun hx => by simpa using h.lt_of_mem hx

theorem not_mem_of_lt [TransOrd α] {x y : α} {xs : List α} (h : Ascending (x :: xs))
    (hlt : compare y x = .lt) : y ∉ x :: xs := by
  intro hy
  obtain rfl | hy := List.mem_cons.1 hy
  · simp at hlt
  · have hyy : compare y y = .lt := TransCmp.lt_trans hlt (h.lt_of_mem hy)
    simp at hyy

theorem mem_of_mem_cons {x z : α} {xs ys : List α} (h : Ascending (x :: xs)) (hz : z ∈ xs)
    (hmem : z ∈ x :: ys) : z ∈ ys := by
  apply (List.mem_cons.1 hmem).resolve_left
  rintro rfl
  exact h.head_not_mem hz

theorem eq_of_mem_iff [TransOrd α] {xs ys : List α} (hx : Ascending xs) (hy : Ascending ys)
    (h : ∀ z, z ∈ xs ↔ z ∈ ys) : xs = ys := by
  induction xs generalizing ys with
  | nil =>
    have hnil : ∀ z, z ∉ ys := fun z hz => List.not_mem_nil ((h z).2 hz)
    exact (List.eq_nil_iff_forall_not_mem.2 hnil).symm
  | cons x xs ih =>
    cases ys with
    | nil => exact absurd ((h x).1 List.mem_cons_self) List.not_mem_nil
    | cons y ys =>
      -- Each head is in the other list, and were they unequal each would precede the other.
      have he : x = y := by
        obtain he | hxy := List.mem_cons.1 ((h x).1 List.mem_cons_self)
        · exact he
        obtain he | hyx := List.mem_cons.1 ((h y).2 List.mem_cons_self)
        · exact he.symm
        have hlt : compare x x = .lt := TransCmp.lt_trans (hx.lt_of_mem hyx) (hy.lt_of_mem hxy)
        simp at hlt
      subst he
      have htail : ∀ z, z ∈ xs ↔ z ∈ ys := by
        intro z
        have hz := h z
        simp only [List.mem_cons] at hz
        by_cases he : z = x
        · subst he
          exact iff_of_false hx.head_not_mem hy.head_not_mem
        · simpa [he] using hz
      rw [ih hx.tail hy.tail htail]

end Ascending

variable [TransOrd α] [LawfulEqOrd α]

theorem sortDistinct_eq_of_mem_iff {xs ys : List α} (h : ∀ z, z ∈ xs ↔ z ∈ ys) :
    sortDistinct xs = sortDistinct ys :=
  (ascending_sortDistinct xs).eq_of_mem_iff (ascending_sortDistinct ys) fun z => by
    rw [mem_sortDistinct, mem_sortDistinct, h]

theorem includedIn_eq_true_iff {xs ys : List α} (hx : Ascending xs) (hy : Ascending ys) :
    includedIn xs ys = true ↔ ∀ x ∈ xs, x ∈ ys := by
  induction ys generalizing xs with
  | nil =>
    cases xs with
    | nil => simp [includedIn]
    | cons x xs =>
      simp only [includedIn, Bool.false_eq_true, false_iff]
      exact fun h => List.not_mem_nil (h x List.mem_cons_self)
  | cons y ys ih =>
    cases xs with
    | nil => simp [includedIn]
    | cons x xs =>
      rw [includedIn]
      split
      · next hlt =>
        -- `x` precedes all of `y :: ys`.
        simp only [Bool.false_eq_true, false_iff]
        intro h
        exact hy.not_mem_of_lt hlt (h x List.mem_cons_self)
      · next heq =>
        have he : x = y := LawfulEqOrd.eq_of_compare heq
        subst he
        rw [ih hx.tail hy.tail]
        constructor
        · intro h z hz
          obtain rfl | hz := List.mem_cons.1 hz
          · exact List.mem_cons_self
          · exact List.mem_cons_of_mem _ (h z hz)
        · intro h z hz
          exact hx.mem_of_mem_cons hz (h z (List.mem_cons_of_mem _ hz))
      · next hgt =>
        -- `y` precedes all of `x :: xs`, so it is none of them.
        have hyx : compare y x = .lt := OrientedCmp.lt_of_gt hgt
        have hne : ∀ z ∈ x :: xs, z ≠ y := by
          rintro z hz rfl
          exact hx.not_mem_of_lt hyx hz
        rw [ih hx hy.tail]
        constructor
        · exact fun h z hz => List.mem_cons_of_mem _ (h z hz)
        · exact fun h z hz => (List.mem_cons.1 (h z hz)).resolve_left (hne z hz)

namespace SortedList

theorem ext_mem {s t : SortedList α} (h : ∀ x, x ∈ s ↔ x ∈ t) : s = t :=
  ext (s.ascending.eq_of_mem_iff t.ascending h)

@[simp]
theorem mem_ofList {xs : List α} {x : α} : x ∈ ofList xs ↔ x ∈ xs := mem_sortDistinct

@[simp]
theorem mem_insert {s : SortedList α} {x y : α} : y ∈ s.insert x ↔ y = x ∨ y ∈ s :=
  mem_insertOrdered

@[simp]
theorem mem_union {s t : SortedList α} {x : α} : x ∈ s.union t ↔ x ∈ s ∨ x ∈ t :=
  mem_mergeOrdered

theorem ofList_eq_of_mem_iff {xs ys : List α} (h : ∀ x, x ∈ xs ↔ x ∈ ys) :
    ofList xs = ofList ys :=
  ext (sortDistinct_eq_of_mem_iff h)

theorem isSubsetOf_eq_true_iff {s t : SortedList α} : s.isSubsetOf t = true ↔ ∀ x ∈ s, x ∈ t :=
  includedIn_eq_true_iff s.ascending t.ascending

omit [LawfulEqOrd α] in
theorem ofAscending?_eq_some_iff {xs : List α} {s : SortedList α} :
    ofAscending? xs = some s ↔ s.toList = xs := by
  rw [ofAscending?]
  split
  · exact ⟨fun h => by cases h; rfl, fun h => congrArg some (ext h.symm)⟩
  · next h => exact ⟨nofun, fun he => absurd (he ▸ s.ascending) h⟩

omit [LawfulEqOrd α] in
theorem ofAscending?_eq_none_iff {xs : List α} : ofAscending? xs = none ↔ ¬Ascending xs := by
  rw [ofAscending?]
  split
  · next h => exact ⟨nofun, fun hno => absurd h hno⟩
  · next h => exact iff_of_true rfl h

end SortedList

end TxnDeps
