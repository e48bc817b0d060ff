import Mathlib.Data.List.TakeWhile
import Mathlib.Data.Set.Card
import TxnDeps.Proofs.Sorted.Bisect
import TxnDeps.Sorted.Walk

namespace TxnDeps

open Std (TransOrd LawfulEqOrd OrientedCmp)

variable {α : Type} [Ord α]

theorem SortedList.size_eq_ncard [LawfulEqOrd α] (s : SortedList α) :
    s.size = {x | x ∈ s}.ncard := by
  let elements : Finset α := ⟨s.toList, s.ascending.nodup⟩
  have hset : {x | x ∈ s} = (elements : Set α) := rfl
  rw [hset, Set.ncard_coe_finset]
  rfl

namespace Walk

theorem drop_skipBelow (xs : List α) (y : α) (i : Nat) :
    xs.drop (skipBelow xs y i) = (xs.drop i).dropWhile (compare · y == .lt) := by
  fun_induction skipBelow xs y i with
  | case1 i h hlt ih =>
    rw [ih, List.drop_eq_getElem_cons h, List.dropWhile_cons]
    exact (if_pos (beq_iff_eq.2 hlt)).symm
  | case2 i h hlt =>
    rw [List.drop_eq_getElem_cons h, List.dropWhile_cons]
    exact (if_neg (mt beq_iff_eq.1 hlt)).symm
  | case3 i h => rw [List.drop_eq_nil_iff.2 (Nat.not_lt.1 h), List.dropWhile_nil]

theorem mem_drop_skipBelow {xs : List α} {y z : α} {i : Nat} (h : z ∈ xs.drop i)
    (hz : compare z y ≠ .lt) : z ∈ xs.drop (skipBelow xs y i) := by
  rw [drop_skipBelow]
  rw [← List.takeWhile_append_dropWhile (p := (compare · y == .lt)) (l := xs.drop i)] at h
  refine (List.mem_append.1 h).resolve_left fun hskipped => hz ?_
  have hbelow := List.mem_takeWhile_imp hskipped
  exact beq_iff_eq.1 hbelow

theorem not_lt_of_getElem?_skipBelow {xs : List α} {x y : α} {i : Nat}
    (h : xs[skipBelow xs y i]? = some x) : compare x y ≠ .lt := by
  rw [← List.head?_drop, drop_skipBelow] at h
  have hstop := List.head?_dropWhile_not (compare · y == .lt) (xs.drop i)
  rw [h] at hstop
  exact ne_of_beq_false hstop

variable [TransOrd α]

theorem lt_of_getElem?_skipBelow {xs : List α} {x y : α} {i : Nat}
    (h : xs[skipBelow xs y i]? = some x) (hne : compare x y ≠ .eq) : compare y x = .lt := by
  have hge := not_lt_of_getElem?_skipBelow h
  apply OrientedCmp.lt_of_gt
  cases hc : compare x y with
  | lt => exact absurd hc hge
  | eq => exact absurd hc hne
  | gt => rfl

variable [LawfulEqOrd α]

/-- If nothing has been left behind of what is looked for from now on, then the look for the first
of it tells whether it is there, and leaves nothing behind of the rest. -/
theorem seek_eq_contains {s : SortedList α} {i : Nat} {y : α} {ys : List α}
    (hy : Ascending (y :: ys)) (h : ∀ z ∈ y :: ys, z ∈ s → z ∈ s.toList.drop i) :
    (seek s.toList i y).1 = s.contains y ∧
      ∀ z ∈ ys, z ∈ s → z ∈ s.toList.drop (seek s.toList i y).2 := by
  have hahead : y ∈ s → y ∈ s.toList.drop (skipBelow s.toList y i) := fun hys =>
    mem_drop_skipBelow (h y List.mem_cons_self hys) (by simp)
  have hlater : ∀ z ∈ ys, z ∈ s → z ∈ s.toList.drop (skipBelow s.toList y i) := by
    intro z hz hzs
    refine mem_drop_skipBelow (h z (List.mem_cons_of_mem y hz) hzs) ?_
    rw [OrientedCmp.gt_of_lt (hy.lt_of_mem hz)]
    decide
  -- At the place that is reached stands nothing, the element itself, or a later one.
  rw [Bool.eq_iff_iff, SortedList.contains_eq_true_iff, seek]
  cases hx : s.toList[skipBelow s.toList y i]? with
  | none =>
    have hnil : s.toList.drop (skipBelow s.toList y i) = [] :=
      List.drop_eq_nil_iff.2 (List.getElem?_eq_none_iff.1 hx)
    exact ⟨⟨nofun, fun hys => absurd (hnil ▸ hahead hys) List.not_mem_nil⟩, hlater⟩
  | some x =>
    obtain ⟨hlt, rfl⟩ := List.getElem?_eq_some_iff.1 hx
    rw [List.drop_eq_getElem_cons hlt] at hahead hlater
    by_cases he : compare s.toList[skipBelow s.toList y i] y = .eq
    · have hxy := LawfulEqOrd.eq_of_compare he
      simp only [he, if_true]
      refine ⟨iff_of_true trivial ?_, fun z hz hzs => ?_⟩
      · exact hxy ▸ List.getElem_mem hlt
      · refine (List.mem_cons.1 (hlater z hz hzs)).resolve_left ?_
        rintro rfl
        exact hy.head_not_mem (hxy ▸ hz)
    · have hyx := lt_of_getElem?_skipBelow hx he
      have horder : Ascending (s.toList.drop (skipBelow s.toList y i)) :=
        s.ascending.sublist (List.drop_sublist _ _)
      rw [List.drop_eq_getElem_cons hlt] at horder
      simp only [he, if_false]
      refine ⟨⟨nofun, fun hys => absurd (hahead hys) (horder.not_mem_of_lt hyx)⟩, ?_⟩
      rw [List.drop_eq_getElem_cons hlt]
      exact hlater

theorem snd_foldl_countStep {s : SortedList α} {i found : Nat} {ys : List α} (hy : Ascending ys)
    (h : ∀ z ∈ ys, z ∈ s → z ∈ s.toList.drop i) :
    (ys.foldl (countStep s.toList) (i, found)).2 = found + ys.countP s.contains := by
  induction ys generalizing i found with
  | nil => rfl
  | cons y ys ih =>
    obtain ⟨hseek, hlater⟩ := seek_eq_contains hy h
    rw [List.foldl_cons, List.countP_cons, ← hseek, countStep]
    rcases hfound : seek s.toList i y with ⟨_ | _, next⟩
    · rw [hfound] at hlater
      exact ih hy.tail hlater
    · rw [hfound] at hlater
      rw [ih hy.tail hlater, if_pos rfl]
      omega

theorem countIn_eq (s t : SortedList α) :
    countIn s.toList t.toList = (t.filter s.contains).size := by
  rw [countIn, snd_foldl_countStep t.ascending fun _ _ hz => hz, Nat.zero_add,
    List.countP_eq_length_filter]
  rfl

end Walk

namespace SortedList

variable [LawfulEqOrd α] {s t : SortedList α}

theorem size_le_of_subset (h : ∀ x ∈ s, x ∈ t) : s.size ≤ t.size :=
  (List.subperm_of_subset s.ascending.nodup h).length_le

variable [TransOrd α]

theorem mem_filter_contains {x : α} : x ∈ t.filter s.contains ↔ x ∈ t ∧ x ∈ s :=
  List.mem_filter.trans (and_congr_right' contains_eq_true_iff)

theorem filter_contains_of_subset (h : ∀ x ∈ s, x ∈ t) : t.filter s.contains = s :=
  ext_mem fun x => mem_filter_contains.trans ⟨And.right, fun hx => ⟨h x hx, hx⟩⟩

theorem eq_of_subset_of_size_le (h : ∀ x ∈ s, x ∈ t) (hsize : t.size ≤ s.size) : s = t :=
  ext_mem fun _ =>
    ((List.subperm_of_subset s.ascending.nodup h).perm_of_length_le hsize).mem_iff

end SortedList

theorem Walk.isSubset_eq [TransOrd α] [LawfulEqOrd α] (s t : SortedList α) :
    Walk.isSubset s.toList t.toList = s.isSubsetOf t := by
  rw [Bool.eq_iff_iff, SortedList.isSubsetOf_eq_true_iff, isSubset, countIn_eq]
  split
  · next hlt =>
    exact ⟨nofun, fun h => absurd (SortedList.size_le_of_subset h) (Nat.not_le.2 hlt)⟩
  · rw [beq_iff_eq]
    constructor
    · intro hsize x hx
      have hcommon : t.filter s.contains = s :=
        SortedList.eq_of_subset_of_size_le (fun x hx => (SortedList.mem_filter_contains.1 hx).2)
          (Nat.le_of_eq hsize.symm)
      exact (SortedList.mem_filter_contains.1 (hcommon ▸ hx)).1
    · intro h
      rw [SortedList.filter_contains_of_subset h]
      rfl

end TxnDeps
