import TxnDeps.Proofs.Sorted.Inclusion
import TxnDeps.Proofs.Wire.Subset
import TxnDeps.Wire.SubsetWalk

namespace TxnDeps.Walk

open Std (TransOrd LawfulEqOrd)

variable {α : Type} [Ord α]

theorem marksIn_drop (xs : List α) (j : Nat) (y : α) (ys : List α) :
    SortedList.marksIn (xs.drop j) (y :: ys) =
      (seek xs j y).1 :: SortedList.marksIn (xs.drop (seek xs j y).2) ys := by
  rw [SortedList.marksIn, ← drop_skipBelow, seek]
  cases hx : xs[skipBelow xs y j]? with
  | none =>
    have hnil := List.drop_eq_nil_iff.2 (List.getElem?_eq_none_iff.1 hx)
    simp only [hnil]
  | some x =>
    obtain ⟨hlt, rfl⟩ := List.getElem?_eq_some_iff.1 hx
    rw [List.drop_eq_getElem_cons hlt]
    by_cases he : compare xs[skipBelow xs y j] y = .eq
    · simp only [he, if_true]
    · simp only [he, if_false]
      rw [List.drop_eq_getElem_cons hlt]

theorem membershipFrom_eq (xs : List α) (j i : Nat) (ys : List α) :
    membershipFrom xs j i ys = ((SortedList.marksIn (xs.drop j) ys).zipIdx i).map Prod.swap := by
  induction ys generalizing j i with
  | nil => rfl
  | cons y ys ih => rw [membershipFrom, ih, marksIn_drop, List.zipIdx_cons, List.map_cons]; rfl

theorem membership_eq (s t : SortedList α) :
    membership s.toList t.toList = (s.marks t).zipIdx.map Prod.swap := by
  rw [membership, membershipFrom_eq, List.drop_zero]
  rfl

variable [TransOrd α] [LawfulEqOrd α]

/-- What the walk has passed precedes all that is still to come. -/
theorem marksIn_drop_eq_map {s : SortedList α} {j : Nat} {ys : List α} (hy : Ascending ys)
    (h : ∀ z ∈ ys, z ∈ s → z ∈ s.toList.drop j) :
    SortedList.marksIn (s.toList.drop j) ys = ys.map s.contains := by
  induction ys generalizing j with
  | nil => rfl
  | cons y ys ih =>
    obtain ⟨hseek, hlater⟩ := seek_eq_contains hy h
    rw [marksIn_drop, hseek, ih hy.tail hlater, List.map_cons]

theorem marks_eq_map (s t : SortedList α) : s.marks t = t.toList.map s.contains :=
  marksIn_drop_eq_map (j := 0) t.ascending fun _ _ hz => hz

theorem checkSubset_eq (s t : SortedList α) :
    checkSubset s.toList t.toList = s.checkSubset t := by
  have habsent : ∀ x, (bisect? t.toList x).isNone = !t.contains x := fun x =>
    (Option.not_isSome _).symm
  rw [checkSubset, SortedList.checkSubset, isSubset_eq]
  simp only [habsent, List.countP_eq_length_filter]
  rfl

theorem countP_isNone_bisect? (s t : SortedList α) :
    s.toList.countP (fun x => (bisect? t.toList x).isNone) = {x | x ∈ s ∧ x ∉ t}.ncard := by
  rw [List.countP_eq_length_filter]
  refine (s.filter _).size_eq_ncard.trans (congrArg Set.ncard (Set.ext fun x => ?_))
  refine List.mem_filter.trans (and_congr_right' ?_)
  rw [Option.isNone_iff_eq_none]
  exact SortedList.indexOf?_eq_none_iff

/-- Counting, searching and walking agree on two sets. The first is a subset if all its elements are
in the second, those that are not are counted if it is none, and of each place of the second it is
told whether its element is in the first. -/
theorem inclusion_diagnosed (s t : SortedList α) :
    (isSubset s.toList t.toList = s.isSubsetOf t ∧
      checkSubset s.toList t.toList = s.checkSubset t ∧
      (membership s.toList t.toList).map Prod.snd = s.marks t) ∧
    (isSubset s.toList t.toList = true ↔ ∀ x ∈ s, x ∈ t) ∧
    (checkSubset s.toList t.toList = .ok () ↔ ∀ x ∈ s, x ∈ t) ∧
    ((¬∀ x ∈ s, x ∈ t) → ∃ missing,
      checkSubset s.toList t.toList = .error ⟨s.size, t.size, missing⟩ ∧
        missing = {x | x ∈ s ∧ x ∉ t}.ncard ∧ missing ≠ 0) ∧
    (membership s.toList t.toList).length = t.size ∧
    ∀ (i : Nat) y, t.toList[i]? = some y → ∃ present,
      (membership s.toList t.toList)[i]? = some (i, present) ∧ (present = true ↔ y ∈ s) := by
  have hsubset : isSubset s.toList t.toList = true ↔ ∀ x ∈ s, x ∈ t := by
    rw [isSubset_eq, SortedList.isSubsetOf_eq_true_iff]
  have hmarks : (membership s.toList t.toList).map Prod.snd = s.marks t := by
    rw [membership_eq, List.map_map]
    exact List.zipIdx_map_fst 0 (s.marks t)
  refine ⟨⟨isSubset_eq s t, checkSubset_eq s t, hmarks⟩, hsubset, ?_, ?_, ?_, ?_⟩
  · rw [checkSubset_eq, SortedList.checkSubset_eq_ok_iff]
  · intro h
    refine ⟨_, if_neg (mt hsubset.1 h), countP_isNone_bisect? s t, fun hzero => h fun x hx => ?_⟩
    have hfound := List.countP_eq_zero.1 hzero x hx
    rw [Option.isNone_iff_eq_none] at hfound
    exact Decidable.not_not.1 (mt SortedList.indexOf?_eq_none_iff.2 hfound)
  · rw [membership_eq, List.length_map, List.length_zipIdx, marks_eq_map, List.length_map]
    rfl
  · intro i y hy
    refine ⟨s.contains y, ?_, SortedList.contains_eq_true_iff⟩
    rw [membership_eq, marks_eq_map, List.getElem?_map, List.getElem?_zipIdx, List.getElem?_map, hy]
    simp

/-- Two of three numbers are not in the set, and one is. -/
theorem inclusion_diagnosed_numbers :
    let s : SortedList Nat := .ofList [1, 4, 6]
    let t : SortedList Nat := .ofList [2, 4, 5]
    (¬∀ x ∈ s, x ∈ t) ∧
      checkSubset s.toList t.toList = .error ⟨3, 3, 2⟩ ∧
      {x | x ∈ s ∧ x ∉ t}.ncard = 2 ∧
      ∃ present, (membership s.toList t.toList)[1]? = some (1, present) ∧ present = true := by
  intro s t
  have habsent : ¬∀ x ∈ s, x ∈ t := fun h => absurd (h 1 (by decide)) (by decide)
  obtain ⟨⟨-, hcheck, -⟩, -, -, hmissing, -, hplaces⟩ := inclusion_diagnosed s t
  have hsearch : checkSubset s.toList t.toList = .error ⟨3, 3, 2⟩ := hcheck.trans (by decide)
  obtain ⟨missing, herror, hcard, -⟩ := hmissing habsent
  obtain ⟨present, hplace, hpresent⟩ := hplaces 1 4 (by decide)
  refine ⟨habsent, hsearch, ?_, present, hplace, hpresent.2 (by decide)⟩
  rw [hsearch] at herror
  cases herror
  exact hcard.symm

end TxnDeps.Walk

namespace TxnDeps

open Std (TransOrd LawfulEqOrd)

namespace Marks

theorem foldlM_absentBits {marks : List Bool} {i bitmap : Nat} (hbitmap : bitmap < 2 ^ i)
    (h : i + marks.length ≤ 64) :
    (((marks.zipIdx i).map Prod.swap).filter fun place => !place.2).foldlM
      (fun bitmap place => (bitmap ||| ·) <$> Halt.shiftLeft 1 place.1) bitmap =
      (.ok (bitmap + absentBits marks * 2 ^ i) : Except (Halt SubsetViolation) Nat) := by
  induction marks generalizing i bitmap with
  | nil => simp [absentBits, pure, Except.pure]
  | cons mark marks ih =>
    rw [List.length_cons] at h
    have hpow : 2 ^ (i + 1) = 2 * 2 ^ i := Nat.pow_succ'
    have hunit : ∀ b, (b + 2 * absentBits marks) * 2 ^ i =
        b * 2 ^ i + absentBits marks * 2 ^ (i + 1) := by
      intro b
      rw [hpow, Nat.add_mul, Nat.mul_comm 2, Nat.mul_assoc]
    rw [List.zipIdx_cons, List.map_cons, List.filter_cons, absentBits, hunit, ← Nat.add_assoc,
      Prod.swap_prod_mk]
    cases mark with
    | true =>
      simp only [Bool.not_true, Bool.false_eq_true, if_false, if_true, Nat.zero_mul, Nat.add_zero]
      exact ih (by omega) (by omega)
    | false =>
      have hor : bitmap ||| 2 ^ i = bitmap + 1 * 2 ^ i := by
        simpa using Uvarint.or_eq_add (m := 1) hbitmap
      simp only [Bool.not_false, Bool.false_eq_true, if_false, if_true, ← hor]
      rw [List.foldlM_cons, Halt.shiftLeft_one (by omega)]
      have hnext : bitmap ||| 2 ^ i < 2 ^ (i + 1) := by omega
      exact ih hnext (by omega)

theorem map_fst_filter_zipIdx (wanted : Bool) (i : Nat) (marks : List Bool) :
    (((marks.zipIdx i).map Prod.swap).filter fun place => place.2 == wanted).map Prod.fst =
      positions wanted i marks := by
  induction marks generalizing i with
  | nil => rfl
  | cons mark marks ih =>
    rw [List.zipIdx_cons, List.map_cons, List.filter_cons, positions, Prod.swap_prod_mk]
    by_cases hmark : mark = wanted
    · rw [if_pos (beq_iff_eq.2 hmark), if_pos hmark, List.map_cons, ih]
    · rw [if_neg (mt beq_iff_eq.1 hmark), if_neg hmark, ih]

end Marks

namespace Walk

variable {α : Type} [Ord α] [TransOrd α] [LawfulEqOrd α]

theorem present_marks {s t : SortedList α} (h : ∀ x ∈ s, x ∈ t) :
    Marks.present (s.marks t) = s.size := by
  have hcount : Marks.present (s.marks t) = t.toList.countP s.contains := by
    rw [Marks.present, marks_eq_map, List.count, List.countP_map]
    exact List.countP_congr fun x _ => by simp
  rw [hcount, List.countP_eq_length_filter]
  exact congrArg SortedList.size (SortedList.filter_contains_of_subset h)

omit [TransOrd α] [LawfulEqOrd α] in
theorem absentBitmap_eq_ok {s t : SortedList α} (h : t.size ≤ 64) :
    absentBitmap s.toList t.toList = .ok (Marks.absentBits (s.marks t)) := by
  have hlen : (s.marks t).length = t.size := SortedList.length_marksIn _ _
  have hfits : 0 + (s.marks t).length ≤ 64 := by
    rw [hlen, Nat.zero_add]
    exact h
  rw [absentBitmap, membership_eq, Marks.foldlM_absentBits (i := 0) Nat.one_pos hfits, Nat.pow_zero,
    Nat.mul_one, Nat.zero_add]

theorem encodeSubset_eq_ok {s t : SortedList α} (h : ∀ x ∈ s, x ∈ t) :
    encodeSubset s.toList t.toList = .ok (Marks.encode (s.marks t)) := by
  have hlen : (s.marks t).length = t.toList.length := SortedList.length_marksIn _ _
  have hpresent : Marks.present (s.marks t) = s.toList.length := present_marks h
  rw [encodeSubset, checkSubset_eq, SortedList.checkSubset_eq_ok_iff.2 h, membership_eq,
    Marks.encode, hlen, hpresent]
  dsimp only
  by_cases hsmall : t.toList.length < bitmapLimit
  · rw [if_pos hsmall, if_pos hsmall, absentBitmap_eq_ok (Nat.le_of_lt hsmall)]
    rfl
  · have hle : s.toList.length ≤ t.toList.length := SortedList.size_le_of_subset h
    rw [if_neg hsmall, if_neg hsmall, Halt.minus_eq_ok hle, ← Marks.map_fst_filter_zipIdx,
      List.flatMap_map]
    rfl

theorem subsetSize_eq_ok {s t : SortedList α} (h : ∀ x ∈ s, x ∈ t) :
    subsetSize s.toList t.toList = .ok (s.encodedSizeIn t) := by
  have hlen : (s.marks t).length = t.toList.length := SortedList.length_marksIn _ _
  have hpresent : Marks.present (s.marks t) = s.toList.length := present_marks h
  rw [subsetSize, membership_eq, SortedList.encodedSizeIn, Marks.encodedSize, hlen, hpresent]
  by_cases hsmall : t.toList.length < bitmapLimit
  · rw [if_pos hsmall, if_pos hsmall, absentBitmap_eq_ok (Nat.le_of_lt hsmall)]
    rfl
  · have hle : s.toList.length ≤ t.toList.length := SortedList.size_le_of_subset h
    rw [if_neg hsmall, if_neg hsmall, Halt.minus_eq_ok hle, ← Marks.map_fst_filter_zipIdx,
      Bytes.totalSize_map]
    rfl

theorem encodeSubset_eq (s t : SortedList α) :
    encodeSubset s.toList t.toList = (s.encodeIn t).mapError Halt.failed := by
  cases hcheck : s.checkSubset t with
  | error violation =>
    rw [encodeSubset, checkSubset_eq, SortedList.encodeIn, hcheck]
    rfl
  | ok _ =>
    have hsubset := SortedList.checkSubset_eq_ok_iff.1 hcheck
    rw [encodeSubset_eq_ok hsubset, SortedList.encodeIn_eq_ok hsubset]
    rfl

end Walk

namespace Marks

variable {α : Type}

theorem ofAbsentBits_eq_map {size i : Nat} (bits : Nat) (h : i + size ≤ 64) :
    ofAbsentBits bits size i = .ok ((List.range' i size).map fun k => !bits.testBit k) := by
  induction size generalizing i with
  | zero => rfl
  | succ size ih =>
    rw [ofAbsentBits, Halt.shiftLeft_one (by omega), ih (by omega), List.range'_succ, List.map_cons,
      ← and_two_pow_beq_zero]

theorem select_map_range' (keep : Nat → Bool) (i : Nat) (ys : List α) :
    select ((List.range' i ys.length).map keep) ys =
      ((ys.zipIdx i).filter fun place => keep place.2).map Prod.fst := by
  induction ys generalizing i with
  | nil => rfl
  | cons y ys ih =>
    rw [List.length_cons, List.range'_succ, List.map_cons, List.zipIdx_cons, List.filter_cons]
    cases keep i with
    | false => exact ih (i + 1)
    | true => exact congrArg (y :: ·) (ih (i + 1))

/-- Whether the mark at `i` is wanted is told by the first of the positions that are left. -/
theorem ofPositions?_succ (wanted : Bool) (size i : Nat) (ps : List Nat) :
    ofPositions? wanted (size + 1) i ps =
      if ps.head? = some i then (ofPositions? wanted size (i + 1) ps.tail).map (wanted :: ·)
      else (ofPositions? wanted size (i + 1) ps).map ((!wanted) :: ·) := by
  cases ps with
  | nil => rfl
  | cons p ps =>
    rw [ofPositions?, List.head?_cons, List.tail_cons]
    exact if_congr (Option.some_inj.symm) rfl rfl

theorem select_ofPositions?_true (front : List α) {ys : List α} {places : List Nat}
    {marks : List Bool} (h : ofPositions? true ys.length front.length places = some marks) :
    places.mapM (fun i => Halt.expect .index (front ++ ys)[i]?) =
      (.ok (select marks ys) : Except (Halt Fault) (List α)) := by
  induction ys generalizing front places marks with
  | nil =>
    cases places with
    | nil => cases h; rfl
    | cons p ps => cases h
  | cons y ys ih =>
    have hfront : front ++ y :: ys = (front ++ [y]) ++ ys := by rw [List.append_assoc]; rfl
    have hlen : front.length + 1 = (front ++ [y]).length := by rw [List.length_append]; rfl
    rw [List.length_cons, ofPositions?_succ, hlen] at h
    split at h
    · next hp =>
      obtain ⟨ps, rfl⟩ := List.head?_eq_some_iff.1 hp
      rw [List.tail_cons] at h
      obtain ⟨rest, hrest, rfl⟩ := Option.map_eq_some_iff.1 h
      have hfirst : (front ++ y :: ys)[front.length]? = some y := by
        rw [List.getElem?_append_right (Nat.le_refl _), Nat.sub_self]
        rfl
      rw [List.mapM_cons, hfirst, hfront, ih (front ++ [y]) hrest]
      rfl
    · obtain ⟨rest, hrest, rfl⟩ := Option.map_eq_some_iff.1 h
      rw [hfront]
      exact ih (front ++ [y]) hrest

theorem select_ofPositions?_false {i : Nat} {ys : List α} {places : List Nat} {marks : List Bool}
    (h : ofPositions? false ys.length i places = some marks) :
    Walk.dropPlaces places i ys = select marks ys := by
  induction ys generalizing i places marks with
  | nil =>
    cases marks with
    | nil => rfl
    | cons mark marks => cases mark <;> rfl
  | cons y ys ih =>
    rw [List.length_cons, ofPositions?_succ] at h
    rw [Walk.dropPlaces]
    split at h
    · next hp =>
      obtain ⟨rest, hrest, rfl⟩ := Option.map_eq_some_iff.1 h
      rw [if_pos hp, ih hrest]
      rfl
    · next hp =>
      obtain ⟨rest, hrest, rfl⟩ := Option.map_eq_some_iff.1 h
      rw [if_neg hp, ih hrest]
      rfl

end Marks

namespace Walk

variable {α : Type}

theorem keepUnset_eq {bits : Nat} {ys : List α} (h : ys.length ≤ 64) :
    keepUnset bits ys = (Marks.select · ys) <$> Marks.ofAbsentBits bits ys.length 0 := by
  have hkeep : ∀ place ∈ ys.zipIdx,
      ((bits &&& · == 0) <$> Halt.shiftLeft 1 place.2 : Except (Halt Fault) Bool) =
        .ok (!bits.testBit place.2) := by
    intro place hplace
    have hlt := List.snd_lt_of_mem_zipIdx hplace
    rw [Halt.shiftLeft_one (by omega), ← Marks.and_two_pow_beq_zero]
    rfl
  rw [keepUnset, Halt.filterM_eq_ok hkeep, Marks.ofAbsentBits_eq_map bits (by omega)]
  exact congrArg Except.ok (Marks.select_map_range' (fun k => !bits.testBit k) 0 ys).symm

theorem readSubset_eq_map (ys : List α) :
    readSubset ys = (Marks.select · ys) <$> Reader.marks ys.length := by
  rw [readSubset, Reader.marks, Step.map_bind]
  refine congrArg _ (funext fun start => ?_)
  by_cases hsmall : ys.length < bitmapLimit
  · have hlt : ys.length < 64 := hsmall
    rw [if_pos hsmall, if_pos hsmall, Step.map_bind]
    refine congrArg _ (funext fun bits => ?_)
    rw [Step.map_bind]
    refine congrArg _ (funext fun beyond => ?_)
    split
    · rfl
    · rw [keepUnset_eq (by omega), Step.map_ofExcept]
  · rw [if_neg hsmall, if_neg hsmall, Step.map_bind]
    refine congrArg _ (funext fun missing => ?_)
    rw [Step.map_bind]
    refine congrArg _ (funext fun present => ?_)
    rw [Step.map_bind]
    apply (Reader.safe_increasing _ _ none).bind_congr
    rintro places ⟨-, horder, hall⟩
    obtain ⟨marks, hmarks, -⟩ :=
      Marks.exists_marks (Marks.listsPresent ys.length present) horder fun p hp => (hall p hp).1
    rw [hmarks, Halt.expect_some, Step.map_ofExcept]
    cases hwanted : Marks.listsPresent ys.length present with
    | true =>
      rw [hwanted] at hmarks
      have hpick := Marks.select_ofPositions?_true [] hmarks
      rw [List.nil_append] at hpick
      rw [if_pos rfl, hpick]
      rfl
    | false =>
      rw [hwanted] at hmarks
      rw [if_neg Bool.false_ne_true, Marks.select_ofPositions?_false hmarks]
      rfl

theorem readSubset_eq [Ord α] (t : SortedList α) :
    readSubset t.toList = SortedList.toList <$> t.readIn := by
  rw [readSubset_eq_map, SortedList.readIn, Step.map_bind]
  rfl

end Walk

end TxnDeps
