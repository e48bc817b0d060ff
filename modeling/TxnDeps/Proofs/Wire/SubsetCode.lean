import TxnDeps.Proofs.Wire.Spelling
import TxnDeps.Proofs.Wire.SubsetWalk

namespace TxnDeps

open Std (TransOrd LawfulEqOrd OrientedCmp)

namespace Marks

/-- The numbers that stand for marks. -/
def numbers (marks : List Bool) : List Nat :=
  if marks.length < bitmapLimit then [absentBits marks]
  else
    (marks.length - present marks) ::
      positions (listsPresent marks.length (present marks)) 0 marks

theorem encode_eq_flatMap_numbers (marks : List Bool) :
    encode marks = (numbers marks).flatMap Uvarint.encode := by
  rw [encode, numbers]
  split
  · exact (List.flatMap_singleton _ _).symm
  · rfl

theorem absentBits_map_range' (bits i size : Nat) :
    absentBits ((List.range' i size).map fun k => !bits.testBit k) = (bits >>> i) % 2 ^ size := by
  induction size generalizing i with
  | zero => rw [Nat.pow_zero, Nat.mod_one]; rfl
  | succ size ih =>
    have hbit : (if (!bits.testBit i) = true then 0 else 1) = (bits >>> i) % 2 := by
      rw [Nat.testBit, Nat.and_comm, Nat.and_one_is_mod]
      obtain h | h := Nat.mod_two_eq_zero_or_one (bits >>> i) <;> rw [h] <;> rfl
    rw [List.range'_succ, List.map_cons, absentBits, ih, hbit, Nat.shiftRight_succ, Nat.pow_succ',
      Nat.mod_mul]

theorem positions_ofPositions? {wanted : Bool} {size i : Nat} {ps : List Nat} {marks : List Bool}
    (h : ofPositions? wanted size i ps = some marks) :
    positions wanted i marks = ps ∧ marks.length = size := by
  induction size generalizing i ps marks with
  | zero =>
    cases ps with
    | nil => cases h; exact ⟨rfl, rfl⟩
    | cons p ps => cases h
  | succ size ih =>
    have hother : (!wanted) ≠ wanted := Bool.not_ne_self wanted
    rw [ofPositions?_succ] at h
    split at h
    · next hp =>
      obtain ⟨ps, rfl⟩ := List.head?_eq_some_iff.1 hp
      obtain ⟨rest, hrest, rfl⟩ := Option.map_eq_some_iff.1 h
      obtain ⟨hps, hlen⟩ := ih hrest
      exact ⟨by rw [positions, if_pos rfl, hps, List.tail_cons], congrArg Nat.succ hlen⟩
    · obtain ⟨rest, hrest, rfl⟩ := Option.map_eq_some_iff.1 h
      obtain ⟨hps, hlen⟩ := ih hrest
      exact ⟨by rw [positions, if_neg hother, hps], congrArg Nat.succ hlen⟩

/-- As many elements are present as the number of absent ones says, whichever are listed. -/
theorem present_ofPositions? {wanted : Bool} {size missing : Nat} {ps : List Nat}
    {marks : List Bool} (h : ofPositions? wanted size 0 ps = some marks) (hle : missing ≤ size)
    (hps : ps.length = if wanted then size - missing else missing) :
    present marks = size - missing := by
  obtain ⟨rfl, hlen⟩ := positions_ofPositions? h
  rw [length_positions, count_eq, hlen] at hps
  have hpresent : present marks ≤ size := hlen ▸ List.count_le_length
  cases wanted
  · simp only [Bool.false_eq_true, if_false] at hps
    omega
  · exact hps

end Marks

namespace Reader

theorem spells_of_increasing {size count : Nat} {previous : Option Nat} {ps : List Nat}
    {c c' : Cursor} (h : (increasing size count previous).run c = (.ok ps, c')) :
    c.Spells c' ps := by
  induction count generalizing previous ps c with
  | zero =>
    cases h
    exact Cursor.spells_nil _
  | succ count ih =>
    rw [increasing, run_position_bind] at h
    obtain ⟨p, c₁, hp, h⟩ := Step.exists_of_run_bind h
    split at h
    · cases h
    split at h
    · cases h
    obtain ⟨rest, c₂, hrest, h⟩ := Step.exists_of_run_bind h
    cases h
    obtain ⟨word, hword, hpasses⟩ := exists_spells_of_uvarint hp
    exact .cons hword hpasses (ih hrest)

theorem run_uvarint_of_count {limit n : Nat} {c c' : Cursor}
    (h : (count limit).run c = (.ok n, c')) : uvarint.run c = (.ok n, c') ∧ n ≤ limit := by
  refine ⟨?_, (safe_count limit c).of_ok (congrArg Prod.fst h)⟩
  rw [count, run_position_bind] at h
  obtain ⟨m, c₁, hm, h⟩ := Step.exists_of_run_bind h
  split at h
  · cases h
  · cases h
    exact hm

theorem spells_of_bitmap {size : Nat} {marks : List Bool} {c c' : Cursor}
    (hsmall : size < bitmapLimit) (h : (Reader.marks size).run c = (.ok marks, c')) :
    c.Spells c' (Marks.numbers marks) := by
  have hlt : size < 64 := hsmall
  rw [Reader.marks, run_position_bind, if_pos hsmall] at h
  obtain ⟨bits, c₁, hbits, h⟩ := Step.exists_of_run_bind h
  obtain ⟨beyond, c₂, hbeyond, h⟩ := Step.exists_of_run_bind h
  rw [Halt.shiftRight_eq_ok hlt] at hbeyond
  cases hbeyond
  split at h
  · cases h
  next hzero =>
    rw [Marks.ofAbsentBits_eq_map bits (by omega)] at h
    cases h
    have hfits : bits < 2 ^ size := by
      rw [Nat.shiftRight_eq_div_pow, ne_eq, Decidable.not_not] at hzero
      exact (Nat.div_eq_zero_iff_lt (Nat.two_pow_pos size)).1 hzero
    obtain ⟨word, hword, hpasses⟩ := exists_spells_of_uvarint hbits
    rw [Marks.numbers, List.length_map, List.length_range', if_pos hsmall,
      Marks.absentBits_map_range', Nat.shiftRight_zero, Nat.mod_eq_of_lt hfits]
    exact .cons hword hpasses (Cursor.spells_nil _)

theorem spells_of_listed {size : Nat} {marks : List Bool} {c c' : Cursor}
    (hlarge : bitmapLimit ≤ size) (h : (Reader.marks size).run c = (.ok marks, c')) :
    c.Spells c' (Marks.numbers marks) ∧ ∃ missing after, uvarint.run c = (.ok missing, after) ∧
      missing ≤ size ∧ Marks.present marks = size - missing := by
  rw [Reader.marks, run_position_bind, if_neg (Nat.not_lt.2 hlarge)] at h
  obtain ⟨missing, c₁, hcount, h⟩ := Step.exists_of_run_bind h
  obtain ⟨hmissing, hle⟩ := run_uvarint_of_count (Step.run_of_run_mapError hcount)
  obtain ⟨present, c₂, hpresent, h⟩ := Step.exists_of_run_bind h
  rw [Halt.minus_eq_ok hle] at hpresent
  cases hpresent
  obtain ⟨ps, c₃, hps, h⟩ := Step.exists_of_run_bind h
  have hlisted := (safe_increasing _ _ _ c₁).of_ok (congrArg Prod.fst hps)
  rcases hmarks : Marks.ofPositions? (Marks.listsPresent size (size - missing)) size 0 ps with _ | m
  · rw [hmarks] at h
    cases h
  · rw [hmarks] at h
    cases h
    obtain ⟨hpositions, hlen⟩ := Marks.positions_ofPositions? hmarks
    have hpresent := Marks.present_ofPositions? hmarks hle hlisted.1
    obtain ⟨word, hword, hpasses⟩ := exists_spells_of_uvarint hmissing
    refine ⟨?_, missing, c₁, hmissing, hle, hpresent⟩
    rw [Marks.numbers, hlen, hpresent, hpositions, if_neg (Nat.not_lt.2 hlarge),
      Nat.sub_sub_self hle]
    exact .cons hword hpasses (spells_of_increasing hps)

end Reader

namespace SortedList

variable {α : Type} [Ord α] [TransOrd α] [LawfulEqOrd α]

theorem marksIn_select {ys : List α} {marks : List Bool} (hy : Ascending ys)
    (hlen : marks.length = ys.length) : marksIn (Marks.select marks ys) ys = marks := by
  induction ys generalizing marks with
  | nil => exact (List.length_eq_zero_iff.1 hlen).symm
  | cons y ys ih =>
    cases marks with
    | nil => cases hlen
    | cons mark marks =>
      have htail := ih hy.tail (Nat.succ.inj hlen)
      have hmem : ∀ x ∈ Marks.select marks ys, x ∈ ys := fun x hx =>
        (Marks.select_sublist marks ys).subset hx
      rw [marksIn, dropWhile_lt_eq_self hy fun x hx =>
        (Marks.select_sublist (mark :: marks) (y :: ys)).subset hx]
      cases mark with
      | true =>
        have hyy : compare y y = .eq := LawfulEqOrd.compare_eq_iff_eq.2 rfl
        rw [Marks.select]
        simp only [hyy, if_true, htail]
      | false =>
        rw [Marks.select]
        cases hpicked : Marks.select marks ys with
        | nil =>
          rw [hpicked] at htail
          exact congrArg (false :: ·) htail
        | cons x rest =>
          have hlt : compare y x = .lt :=
            hy.lt_of_mem (hmem x (hpicked ▸ List.mem_cons_self))
          have hne : compare x y ≠ .eq := by
            rw [OrientedCmp.gt_of_lt hlt]
            decide
          rw [hpicked] at htail
          simp only [hne, if_false, htail]

theorem marks_pick {superset : SortedList α} {marks : List Bool}
    (hlen : marks.length = superset.size) : (superset.pick marks).marks superset = marks :=
  marksIn_select superset.ascending hlen

omit [TransOrd α] [LawfulEqOrd α] in
theorem mem_of_mem_pick {superset : SortedList α} {marks : List Bool} {x : α}
    (h : x ∈ superset.pick marks) : x ∈ superset :=
  (Marks.select_sublist marks superset.toList).subset h

end SortedList

namespace Walk

variable {α : Type} [Ord α]

theorem exists_of_run_readSubset {superset : SortedList α} {c c' : Cursor} {xs : List α}
    (h : (readSubset superset.toList).run c = (.ok xs, c')) :
    ∃ marks, (Reader.marks superset.size).run c = (.ok marks, c') ∧
      marks.length = superset.size ∧ xs = (superset.pick marks).toList := by
  rw [readSubset_eq_map] at h
  obtain ⟨marks, c₁, hmarks, h⟩ := Step.exists_of_run_bind h
  cases h
  exact ⟨marks, hmarks, (Reader.safe_marks _ c).of_ok (congrArg Prod.fst hmarks), rfl⟩

variable [TransOrd α] [LawfulEqOrd α]

/-- Subsets and their encodings correspond. What is written is read as the subset, whatever follows
it, and what is read is a subset whose encoding differs from the bytes that were taken only in
numbers that were spelled too long. A large superset has as many elements more than the subset as
the number in front says. -/
theorem subset_code_canonical (superset : SortedList α) (hsize : superset.size < 2 ^ 64) :
    ((∀ subset : SortedList α, encodeSubset subset.toList superset.toList =
        (subset.encodeIn superset).mapError .failed) ∧
      readSubset superset.toList = SortedList.toList <$> superset.readIn) ∧
    (∀ subset : SortedList α, (∀ x ∈ subset, x ∈ superset) → ∃ bytes,
      encodeSubset subset.toList superset.toList = .ok bytes ∧
        ∀ suffix position, (readSubset superset.toList).run ⟨bytes ++ suffix, position⟩ =
          (.ok subset.toList, ⟨suffix, position + bytes.length⟩)) ∧
    ∀ cursor xs cursor', (readSubset superset.toList).run cursor = (.ok xs, cursor') →
      Ascending xs ∧ (∀ x ∈ xs, x ∈ superset) ∧
      (∃ taken bytes, cursor.Passes cursor' taken ∧
        encodeSubset xs superset.toList = .ok bytes ∧ bytes.length ≤ taken.length ∧
        (bytes.length = taken.length → bytes = taken) ∧
        ∃ words numbers, taken = words.flatten ∧ bytes = numbers.flatMap Uvarint.encode ∧
          List.Forall₂ (fun word n => Uvarint.Spells word n ∧
            (word = Uvarint.encode n ∨ (Uvarint.encode n).length < word.length)) words numbers) ∧
      (bitmapLimit ≤ superset.size → ∃ missing after,
        Reader.uvarint.run cursor = (.ok missing, after) ∧ missing ≤ superset.size ∧
          xs.length = superset.size - missing) := by
  refine ⟨⟨fun subset => encodeSubset_eq subset superset, readSubset_eq superset⟩, ?_, ?_⟩
  · intro subset hsubset
    have hreads := SortedList.reads_readIn hsubset hsize
    refine ⟨Marks.encode (subset.marks superset), ?_, fun suffix position => ?_⟩
    · exact encodeSubset_eq_ok hsubset
    · have hrun := hreads.map SortedList.toList ⟨_ ++ suffix, position⟩ suffix rfl
      rw [readSubset_eq, hrun]
      exact congrArg (fun rest => (_, (⟨rest, _⟩ : Cursor))) List.drop_left
  · intro cursor xs cursor' hrun
    obtain ⟨marks, hmarks, hlen, rfl⟩ := exists_of_run_readSubset hrun
    have hsubset : ∀ x ∈ superset.pick marks, x ∈ superset := fun x => SortedList.mem_of_mem_pick
    have hpick := SortedList.marks_pick hlen
    have hcount := present_marks hsubset
    rw [hpick] at hcount
    -- In either form it is the numbers of the marks that were spelled.
    have hspells : cursor.Spells cursor' (Marks.numbers marks) := by
      obtain hsmall | hlarge := Nat.lt_or_ge superset.size bitmapLimit
      · exact Reader.spells_of_bitmap hsmall hmarks
      · exact (Reader.spells_of_listed hlarge hmarks).1
    obtain ⟨words, hwords, hpasses⟩ := hspells
    have hshortest := Uvarint.flatten_eq_flatMap_encode_or_lt hwords
    refine ⟨(superset.pick marks).ascending, hsubset, ⟨words.flatten, _, hpasses, ?_, ?_, ?_,
      words, Marks.numbers marks, rfl, rfl, ?_⟩, ?_⟩
    · rw [encodeSubset_eq_ok hsubset, hpick, Marks.encode_eq_flatMap_numbers]
    · obtain heq | hlt := hshortest
      · exact Nat.le_of_eq (congrArg List.length heq.symm)
      · exact Nat.le_of_lt hlt
    · exact fun hlen => (hshortest.resolve_right (Nat.not_lt.2 (Nat.le_of_eq hlen.symm))).symm
    · exact hwords.imp fun word n hword => ⟨hword, hword.eq_encode_or_lt⟩
    · intro hlarge
      obtain ⟨-, missing, after, hmissing, hle, hpresent⟩ := Reader.spells_of_listed hlarge hmarks
      exact ⟨missing, after, hmissing, hle, hcount.symm.trans hpresent⟩

/-- Two of three numbers, with a group too many in the bits, and two of sixty-four by their
positions. -/
theorem subset_code_canonical_numbers :
    let few : SortedList Nat := .ofList [10, 20, 30]
    let subset : SortedList Nat := .ofList [10, 30]
    let many : SortedList Nat := .ofList (List.range 64)
    few.size < 2 ^ 64 ∧ (∀ x ∈ subset, x ∈ few) ∧ many.size < 2 ^ 64 ∧
      (∃ bytes, encodeSubset subset.toList few.toList = .ok bytes ∧
        (readSubset few.toList).run ⟨bytes ++ [7], 5⟩ = (.ok [10, 30], ⟨[7], 5 + bytes.length⟩)) ∧
      (readSubset few.toList).run ⟨[130, 0, 7], 5⟩ = (.ok [10, 30], ⟨[7], 7⟩) ∧
      (∃ taken bytes, (Cursor.mk [130, 0, 7] 5).Passes ⟨[7], 7⟩ taken ∧
        encodeSubset [10, 30] few.toList = .ok bytes ∧ bytes.length ≤ taken.length) ∧
      (readSubset many.toList).run ⟨[62, 3, 40], 0⟩ = (.ok [3, 40], ⟨[], 3⟩) ∧
      ∃ missing after, Reader.uvarint.run ⟨[62, 3, 40], 0⟩ = (.ok missing, after) ∧
        2 = many.size - missing := by
  intro few subset many
  have hfew : few.size < 2 ^ 64 := by decide
  have hmany : many.size < 2 ^ 64 := by decide
  have hsubset : ∀ x ∈ subset, x ∈ few := SortedList.isSubsetOf_eq_true_iff.1 rfl
  have hbits : (readSubset few.toList).run ⟨[130, 0, 7], 5⟩ = (.ok [10, 30], ⟨[7], 7⟩) := by decide
  have hlisted : (readSubset many.toList).run ⟨[62, 3, 40], 0⟩ = (.ok [3, 40], ⟨[], 3⟩) := by
    decide
  obtain ⟨-, hwritten, hread⟩ := subset_code_canonical few hfew
  obtain ⟨-, -, hread'⟩ := subset_code_canonical many hmany
  obtain ⟨bytes, hbytes, hback⟩ := hwritten subset hsubset
  obtain ⟨-, -, ⟨taken, shortest, hpasses, hencode, hle, -⟩, -⟩ := hread _ _ _ hbits
  obtain ⟨-, -, -, hcount⟩ := hread' _ _ _ hlisted
  obtain ⟨missing, after, hmissing, -, hlength⟩ := hcount (by decide)
  exact ⟨hfew, hsubset, hmany, ⟨bytes, hbytes, hback [7] 5⟩, hbits,
    ⟨taken, shortest, hpasses, hencode, hle⟩, hlisted, missing, after, hmissing, hlength⟩

end Walk

end TxnDeps
