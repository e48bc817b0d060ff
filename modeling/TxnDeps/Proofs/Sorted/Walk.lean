import TxnDeps.Proofs.Sorted.Bisect
import TxnDeps.Sorted.Walk

namespace TxnDeps

open Std (TransOrd LawfulEqOrd OrientedCmp TransCmp ReflCmp)

variable {α : Type} [Ord α]

namespace Walk

theorem mem_pushDistinct [LawfulEqOrd α] {x z : α} {ys : List α} :
    z ∈ pushDistinct x ys ↔ z = x ∨ z ∈ ys := by
  cases ys with
  | nil => exact List.mem_cons
  | cons y ys =>
    rw [pushDistinct]
    split
    · next h =>
      have he : x = y := LawfulEqOrd.eq_of_compare h
      simp [he]
    · exact List.mem_cons

theorem mem_sortDistinct [LawfulEqOrd α] {z : α} {xs : List α} :
    z ∈ sortDistinct xs ↔ z ∈ xs := by
  have hfold : ∀ ys : List α, z ∈ ys.foldr pushDistinct [] ↔ z ∈ ys := by
    intro ys
    induction ys with
    | nil => exact Iff.rfl
    | cons y ys ih => rw [List.foldr_cons, mem_pushDistinct, ih, List.mem_cons]
  rw [sortDistinct, hfold, List.mem_mergeSort]

variable [TransOrd α] [LawfulEqOrd α]

theorem ascending_pushDistinct {x : α} {ys : List α} (h : Ascending ys)
    (hx : ∀ y ∈ ys, (compare x y).isLE) : Ascending (pushDistinct x ys) := by
  cases ys with
  | nil => exact List.pairwise_singleton _ _
  | cons y ys =>
    obtain ⟨hy, htail⟩ := List.forall_mem_cons.1 hx
    rw [pushDistinct]
    split
    · next he =>
      rw [LawfulEqOrd.eq_of_compare he]
      exact h
    · next hne =>
      have hlt : compare x y = .lt := by
        cases hc : compare x y with
        | lt => rfl
        | eq => exact absurd hc hne
        | gt => simp [hc] at hy
      refine List.pairwise_cons.2 ⟨List.forall_mem_cons.2 ⟨hlt, fun z hz => ?_⟩, h⟩
      exact TransCmp.lt_trans hlt (h.lt_of_mem hz)

theorem ascending_sortDistinct (xs : List α) : Ascending (sortDistinct xs) := by
  have hfold : ∀ ys : List α, ys.Pairwise (fun x y => (compare x y).isLE) →
      Ascending (ys.foldr pushDistinct []) ∧
        ∀ z, z ∈ ys.foldr pushDistinct [] → z ∈ ys := by
    intro ys hys
    induction ys with
    | nil => exact ⟨List.Pairwise.nil, fun _ h => h⟩
    | cons y ys ih =>
      obtain ⟨hy, htail⟩ := List.pairwise_cons.1 hys
      obtain ⟨horder, hmem⟩ := ih htail
      refine ⟨ascending_pushDistinct horder fun z hz => hy z (hmem z hz), fun z hz => ?_⟩
      rw [List.foldr_cons, mem_pushDistinct] at hz
      exact List.mem_cons.2 (hz.imp id (hmem z))
  apply (hfold _ _).1
  apply List.pairwise_mergeSort
  · exact fun x y z => TransCmp.isLE_trans
  · intro x y
    rw [Bool.or_eq_true]
    by_cases hxy : (compare x y).isLE
    · exact .inl hxy
    · exact .inr (Ordering.isLE_of_eq_lt (OrientedCmp.lt_of_not_isLE hxy))

theorem sortDistinct_eq (xs : List α) : sortDistinct xs = TxnDeps.sortDistinct xs :=
  (ascending_sortDistinct xs).eq_of_mem_iff (TxnDeps.ascending_sortDistinct xs) fun z => by
    rw [mem_sortDistinct, TxnDeps.mem_sortDistinct]

section

omit [TransOrd α] [LawfulEqOrd α]

theorem mergeOrdered_nil (as : List α) : mergeOrdered as [] = as := by
  induction as with
  | nil => rfl
  | cons a as ih => rw [mergeOrdered, mergeHead, ih]

variable {a b : α} {as bs : List α}

theorem mergeOrdered_of_lt (h : compare a b = .lt) :
    mergeOrdered (a :: as) (b :: bs) = a :: mergeOrdered as (b :: bs) := by
  rw [mergeOrdered, mergeHead, h]

theorem mergeOrdered_of_eq (h : compare a b = .eq) :
    mergeOrdered (a :: as) (b :: bs) = a :: mergeOrdered as bs := by
  rw [mergeOrdered, mergeHead, h]

theorem mergeOrdered_of_gt (h : compare a b = .gt) :
    mergeOrdered (a :: as) (b :: bs) = b :: mergeOrdered (a :: as) bs := by
  rw [mergeOrdered, mergeHead, h, mergeOrdered]

/-- What the loop has still to put out is the merge of what is left of the lists. -/
theorem unionFrom_eq (as bs : List α) (i j : Nat) (out : List α) :
    unionFrom as bs i j out = out ++ mergeOrdered (as.drop i) (bs.drop j) := by
  fun_induction unionFrom as bs i j out with
  | case1 i j out hi hj hlt ih =>
    rw [ih, List.drop_eq_getElem_cons hi, List.drop_eq_getElem_cons hj, mergeOrdered_of_lt hlt,
      List.append_assoc, List.singleton_append]
  | case2 i j out hi hj heq ih =>
    rw [ih, List.drop_eq_getElem_cons hi, List.drop_eq_getElem_cons hj, mergeOrdered_of_eq heq,
      List.append_assoc, List.singleton_append]
  | case3 i j out hi hj hgt ih =>
    rw [ih, List.drop_eq_getElem_cons hi, List.drop_eq_getElem_cons hj, mergeOrdered_of_gt hgt,
      List.append_assoc, List.singleton_append]
  | case4 i j out hi hj =>
    rw [List.drop_eq_nil_iff.2 (Nat.not_lt.1 hj), mergeOrdered_nil, List.append_nil]
  | case5 i j out hi =>
    rw [List.drop_eq_nil_iff.2 (Nat.not_lt.1 hi), List.append_nil, mergeOrdered]

theorem union_eq (as bs : List α) : union as bs = mergeOrdered as bs := by
  rw [union, unionFrom_eq, List.drop_zero, List.drop_zero, List.nil_append]

end

end Walk

namespace SortedList

variable [TransOrd α] [LawfulEqOrd α]

theorem union_eq_ofList (s t : SortedList α) : s.union t = ofList (s.toList ++ t.toList) := by
  apply ext_mem
  intro x
  rw [mem_union, mem_ofList, List.mem_append]
  exact Iff.rfl

/-- Sorting, the union, the filter and the search do on sorted lists what they are for on sets, and
neighbours in order tell that all elements are. The loops give the lists that are kept in order. -/
theorem represents_sets (α : Type) [Ord α] [TransOrd α] [LawfulEqOrd α] :
    (∀ xs : List α, (ofList xs).toList = Walk.sortDistinct xs ∧
      Ascending (Walk.sortDistinct xs) ∧ ∀ x, x ∈ Walk.sortDistinct xs ↔ x ∈ xs) ∧
    (∀ s t : SortedList α, (s.union t).toList = Walk.union s.toList t.toList ∧
      Ascending (Walk.union s.toList t.toList) ∧ s.union t = ofList (s.toList ++ t.toList)) ∧
    (∀ (s : SortedList α) keep, (s.filter keep).toList.Sublist s.toList ∧
      Ascending (s.filter keep).toList ∧ ∀ x, x ∈ s.filter keep ↔ x ∈ s ∧ keep x = true) ∧
    (∀ (s : SortedList α) x, (∀ i, s.indexOf? x = some i ↔ s.toList[i]? = some x) ∧
      (s.indexOf? x = none ↔ x ∉ s) ∧
      ∀ i j : Nat, s.toList[i]? = some x → s.toList[j]? = some x → i = j) ∧
    (∀ xs : List α, ascends xs = true ↔
      ∀ (i j : Nat) x y, xs[i]? = some x → xs[j]? = some y → i < j → compare x y = .lt) ∧
    ∀ (xs : List α) s, ofAscending? xs = some s ↔ Ascending xs ∧ s.toList = xs := by
  refine ⟨fun xs => ⟨(Walk.sortDistinct_eq xs).symm, Walk.ascending_sortDistinct xs, fun x =>
    Walk.mem_sortDistinct⟩, fun s t => ?_, fun s keep => ?_, fun s x => ?_, fun xs => ?_,
    fun xs s => ?_⟩
  · have hunion : (s.union t).toList = Walk.union s.toList t.toList := (Walk.union_eq _ _).symm
    exact ⟨hunion, hunion ▸ (s.union t).ascending, s.union_eq_ofList t⟩
  · exact ⟨List.filter_sublist, (s.filter keep).ascending, fun x => List.mem_filter⟩
  · refine ⟨fun i => indexOf?_eq_some_iff, indexOf?_eq_none_iff, fun i j hi hj => ?_⟩
    have hlt : i < s.toList.length := (List.getElem?_eq_some_iff.1 hi).1
    exact (List.getElem?_inj hlt s.ascending.nodup).1 (hi.trans hj.symm)
  · rw [ascends_eq_true_iff, Ascending, List.pairwise_iff_getElem]
    constructor
    · intro h i j x y hx hy hij
      obtain ⟨hi, rfl⟩ := List.getElem?_eq_some_iff.1 hx
      obtain ⟨hj, rfl⟩ := List.getElem?_eq_some_iff.1 hy
      exact h i j hi hj hij
    · intro h i j hi hj hij
      exact h i j _ _ (List.getElem?_eq_getElem hi) (List.getElem?_eq_getElem hj) hij
  · rw [ofAscending?_eq_some_iff]
    exact ⟨fun h => ⟨h ▸ s.ascending, h⟩, And.right⟩

/-- A list with an element twice, and a set that shares an element with it. -/
theorem represents_sets_numbers :
    let s : SortedList Nat := ofList [5, 1, 3, 1]
    let t : SortedList Nat := ofList [6, 3, 2]
    Walk.sortDistinct [5, 1, 3, 1] = [1, 3, 5] ∧ Walk.union s.toList t.toList = [1, 2, 3, 5, 6] ∧
      (∀ x, x ∈ s.filter (2 < ·) ↔ x ∈ s ∧ decide (2 < x) = true) ∧
      s.toList[2]? = some 5 ∧ 4 ∉ s ∧
      (¬∀ (i j : Nat) x y, [1, 3, 3][i]? = some x → [1, 3, 3][j]? = some y → i < j →
        compare x y = .lt) ∧
      Ascending [1, 3] := by
  intro s t
  obtain ⟨hsort, hunion, hfilter, hindex, hascends, hchecked⟩ := represents_sets Nat
  refine ⟨(hsort _).1.symm.trans (by decide), (hunion s t).1.symm.trans (by decide),
    (hfilter s _).2.2, ((hindex s 5).1 2).1 (by decide), (hindex s 4).2.1.1 (by decide), ?_, ?_⟩
  · exact mt (hascends [1, 3, 3]).2 (by decide)
  · exact ((hchecked [1, 3] (ofList [1, 3])).1 (by decide)).1

end SortedList

end TxnDeps
