import TxnDeps.Proofs.Wire.Refusal
import TxnDeps.Proofs.Wire.SubsetWalk

namespace TxnDeps

open Uvarint (size_le_of_lt)

namespace Marks

/-- The elements that are listed are hardly more than those that are present. -/
theorem length_listed_le (marks : List Bool) :
    (positions (listsPresent marks.length (present marks)) 0 marks).length ≤
      present marks + 1 := by
  rw [length_positions, count_eq]
  by_cases hfew : present marks < marks.length / 2
  · have hwanted : listsPresent marks.length (present marks) = true := decide_eq_true hfew
    rw [hwanted, if_pos rfl]
    exact Nat.le_succ _
  · have hwanted : listsPresent marks.length (present marks) = false := decide_eq_false hfew
    rw [hwanted, if_neg Bool.false_ne_true]
    omega

/-- Two numbers of ten and five bytes at most, and five bytes for each element. -/
theorem encodedSize_le {marks : List Bool} (h : marks.length ≤ 2 ^ 32) :
    encodedSize marks ≤ 10 + 5 * present marks := by
  rw [encodedSize]
  split
  · next hsmall =>
    have hlt : marks.length < 64 := hsmall
    have hpow : 2 ^ marks.length ≤ 2 ^ (7 * 10) := Nat.pow_le_pow_right Nat.two_pos (by omega)
    have hbits := size_le_of_lt (by decide) (Nat.lt_of_lt_of_le (absentBits_lt marks) hpow)
    omega
  · have hsmall : ∀ n ≤ marks.length, Uvarint.size n ≤ 5 := fun n hn =>
      size_le_of_lt (by decide) (Nat.lt_of_le_of_lt (Nat.le_trans hn h) (by decide))
    have hmissing := hsmall (marks.length - present marks) (Nat.sub_le _ _)
    have hlisted : ∀ p ∈ positions (listsPresent marks.length (present marks)) 0 marks,
        Uvarint.size p ≤ 5 := by
      intro p hp
      have hplace := (le_of_mem_positions hp).2
      exact hsmall p (by omega)
    have htotal := Bytes.totalSize_le hlisted
    have hlength := length_listed_le marks
    omega

end Marks

theorem RoutingKeys.le_encodedSize (keys : RoutingKeys) :
    1 + 17 * keys.size ≤ keys.encodedSize := by
  have hkey : ∀ k ∈ keys.toList, 17 ≤ k.encodedSize := by
    rintro ⟨table, kind⟩ -
    cases kind with
    | token v => exact Nat.le_add_right 17 8
    | min | max => exact Nat.le_refl 17
  exact Nat.add_le_add (Uvarint.one_le_size _) (Bytes.le_totalSize hkey)

/-- A subset costs less than its keys, even behind a flag. -/
theorem RoutingKeys.encodedSizeIn_lt {keys superset : RoutingKeys} (hsize : superset.size ≤ 2 ^ 32)
    (hkeys : 0 < keys.size) (hsubset : ∀ k ∈ keys, k ∈ superset) :
    1 + keys.encodedSizeIn superset < keys.encodedSize := by
  have hlength : (keys.marks superset).length = superset.size := SortedList.length_marksIn _ _
  have hmarks := Marks.encodedSize_le (Nat.le_trans (Nat.le_of_eq hlength) hsize)
  rw [Walk.present_marks hsubset] at hmarks
  have hfull := keys.le_encodedSize
  rw [SortedList.encodedSizeIn]
  omega

namespace DepsCodec

variable {c : DepsCodec} {v : WireVersion} {d : Deps} {superset : RoutingKeys}

theorem size_of_keySetMode {superset? : Option RoutingKeys} {mode : KeySetMode}
    (h : c.keySetMode d.byKey.keys superset? v = .ok mode) :
    c.size d superset? v = .ok (keySetSize d.byKey.keys mode + (d.byKey.bodySize +
      c.rangesSize d.byRange.keys + d.byRange.bodySize +
        directKeysSize d.direct.keys d.byKey.keys + d.direct.bodySize)) := by
  rw [size, h]
  simp only [Nat.add_assoc]

theorem keySetMode_none (keys : RoutingKeys) (h : c.config.accepts v = true) :
    c.keySetMode keys none v = .ok .full := by
  rw [keySetMode.eq_def, CodecConfig.check_eq_ok_iff.2 h]

theorem keySetMode_of_subset {keys : RoutingKeys} (h : c.config.accepts v = true)
    (hsubset : ∀ k ∈ keys, k ∈ superset) :
    c.keySetMode keys (some superset) v = .ok (.relative superset v.flagsKeySet) := by
  rw [keySetMode.eq_def, CodecConfig.check_eq_ok_iff.2 h]
  dsimp only
  rw [SortedList.checkSubset_eq_ok_iff.2 hsubset]

theorem keySetMode_of_not_subset {keys : RoutingKeys} (h : c.config.accepts v = true)
    (hflags : v.flagsKeySet = true) (hsubset : ¬∀ k ∈ keys, k ∈ superset) :
    c.keySetMode keys (some superset) v = .ok .flaggedFull := by
  rw [keySetMode.eq_def, CodecConfig.check_eq_ok_iff.2 h]
  dsimp only
  cases hcheck : keys.checkSubset superset with
  | ok _ => exact absurd (SortedList.checkSubset_eq_ok_iff.1 hcheck) hsubset
  | error violation => exact if_pos hflags

end DepsCodec

/-- A superset pays. Dependencies whose keys are in it take up less than without it, and if they
are not, the flag that says so is all that they take up besides. -/
theorem superset_pays (c : DepsCodec) (v : WireVersion) (d : Deps) (superset : RoutingKeys)
    (hversion : c.config.accepts v = true) (hkeys : 0 < d.byKey.keys.size)
    (hsize : superset.size ≤ 2 ^ 32) :
    ∃ full, WireForm.size c d none v = .ok full ∧
      ((∀ k ∈ d.byKey.keys, k ∈ superset) →
        Walk.subsetSize d.byKey.keys.toList superset.toList =
            .ok (d.byKey.keys.encodedSizeIn superset) ∧
          ∃ relative, WireForm.size c d (some superset) v = .ok relative ∧ relative < full) ∧
      ((¬∀ k ∈ d.byKey.keys, k ∈ superset) → v = .v2 →
        WireForm.size c d (some superset) v = .ok (full + 1)) := by
  refine ⟨_, DepsCodec.size_of_keySetMode (DepsCodec.keySetMode_none _ hversion), ?_, ?_⟩
  · intro hsubset
    have hmode := DepsCodec.keySetMode_of_subset hversion hsubset
    have hsaved := RoutingKeys.encodedSizeIn_lt hsize hkeys hsubset
    refine ⟨Walk.subsetSize_eq_ok hsubset, _, DepsCodec.size_of_keySetMode hmode,
      Nat.add_lt_add_right ?_ _⟩
    rw [DepsCodec.keySetSize, DepsCodec.keySetSize]
    split
    · exact hsaved
    · omega
  · rintro habsent rfl
    have hmode := DepsCodec.keySetMode_of_not_subset hversion rfl habsent
    refine (DepsCodec.size_of_keySetMode hmode).trans (congrArg Except.ok ?_)
    rw [DepsCodec.keySetSize, DepsCodec.keySetSize, Nat.add_assoc, Nat.add_comm]

/-- The keys in a superset of three, and outside a superset of one. -/
theorem superset_pays_sample :
    let key := RoutingKey.token (.ofNat 7)
    let around : RoutingKeys := .ofList [key 1, key 3, key 5]
    let beside : RoutingKeys := .ofList [key 2]
    let c : DepsCodec := ⟨.simple (.ofNat 7), .forTesting⟩
    c.config.accepts .v2 = true ∧ 0 < sampleDeps.byKey.keys.size ∧
      (around.size ≤ 2 ^ 32 ∧ ∀ k ∈ sampleDeps.byKey.keys, k ∈ around) ∧
      (beside.size ≤ 2 ^ 32 ∧ ¬∀ k ∈ sampleDeps.byKey.keys, k ∈ beside) ∧
      ∃ full relative, WireForm.size c sampleDeps none .v2 = .ok full ∧
        WireForm.size c sampleDeps (some around) .v2 = .ok relative ∧ relative < full ∧
        WireForm.size c sampleDeps (some beside) .v2 = .ok (full + 1) := by
  intro key around beside c
  have haround : ∀ k ∈ sampleDeps.byKey.keys, k ∈ around := by decide
  have hbeside : ¬∀ k ∈ sampleDeps.byKey.keys, k ∈ beside := by decide
  obtain ⟨full, hfull, hpays, -⟩ :=
    superset_pays c .v2 sampleDeps around (by decide) (by decide) (by decide)
  obtain ⟨full', hfull', -, hcosts⟩ :=
    superset_pays c .v2 sampleDeps beside (by decide) (by decide) (by decide)
  obtain ⟨-, relative, hrelative, hlt⟩ := hpays haround
  rw [hfull] at hfull'
  cases hfull'
  exact ⟨by decide, by decide, ⟨by decide, haround⟩, ⟨by decide, hbeside⟩, full, relative, hfull,
    hrelative, hlt, hcosts hbeside rfl⟩

end TxnDeps
