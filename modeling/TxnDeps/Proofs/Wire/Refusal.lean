import TxnDeps.Proofs.Deps.WellFormed
import TxnDeps.Proofs.Sorted.Bisect
import TxnDeps.Proofs.Wire.Writing

namespace TxnDeps

open Std (TransOrd LawfulEqOrd)

namespace SortedList

variable {α : Type} [Ord α] [TransOrd α] [LawfulEqOrd α] {s t : SortedList α}

def absentFrom (s t : SortedList α) : List α := s.toList.filter (· ∉ t)

theorem absentFrom_ne_nil_iff : s.absentFrom t ≠ [] ↔ ∃ x ∈ s, x ∉ t := by
  have hs : ∀ x, x ∈ s ↔ x ∈ s.toList := fun _ => Iff.rfl
  simp [absentFrom, hs]

theorem checkSubset_eq_error_iff {violation : SubsetViolation} :
    s.checkSubset t = .error violation ↔
      (∃ x ∈ s, x ∉ t) ∧ violation = ⟨s.size, t.size, (s.absentFrom t).length⟩ := by
  have hcount : (s.toList.filter fun x => !t.contains x) = s.absentFrom t := by
    apply List.filter_congr
    intro x _
    rw [Bool.eq_iff_iff, Bool.not_eq_true', ← Bool.not_eq_true, decide_eq_true_eq,
      contains_eq_true_iff]
  rw [checkSubset, hcount]
  split
  · next h =>
    have hall := isSubsetOf_eq_true_iff.1 h
    constructor
    · intro hok
      cases hok
    · rintro ⟨⟨x, hx, habsent⟩, -⟩
      exact absurd (hall x hx) habsent
  · next h =>
    rw [isSubsetOf_eq_true_iff] at h
    push Not at h
    simp [h, eq_comm]

end SortedList

/-- The reasons to refuse a value with the given keys, or without any: its version is older than
the oldest accepted, or some of its keys are not in the superset while the version has no flag that
could say so. -/
inductive DepsCodec.Declines (c : DepsCodec) (v : WireVersion)
    (superset? keys? : Option RoutingKeys) : Refusal → Prop
  | version (older : v.tag < c.config.minVersion.tag) : Declines c v superset? keys? (.version v)
  | subset {keys superset : RoutingKeys} (accepted : c.config.minVersion.tag ≤ v.tag)
      (unflagged : v = .v1) (hkeys : keys? = some keys) (hsuperset : superset? = some superset)
      (absent : ∃ k ∈ keys, k ∉ superset) :
      Declines c v superset? keys?
        (.subset ⟨keys.size, superset.size, (keys.absentFrom superset).length⟩)

namespace CodecConfig

variable {c : CodecConfig} {v : WireVersion}

theorem check_of_newer (h : c.minVersion.tag ≤ v.tag) : c.check v = .ok () :=
  check_eq_ok_iff.2 (decide_eq_true h)

theorem check_of_older (h : v.tag < c.minVersion.tag) : c.check v = .error (.version v) := by
  simp [check, accepts, h]

end CodecConfig

namespace DepsCodec

variable {c : DepsCodec} {v : WireVersion} {superset? keys? : Option RoutingKeys}
  {refusal : Refusal}

theorem declines_iff_of_older (h : v.tag < c.config.minVersion.tag) :
    c.Declines v superset? keys? refusal ↔ .version v = refusal := by
  constructor
  · rintro (_ | ⟨accepted⟩)
    · rfl
    · exact absurd accepted (UInt8.not_le.2 h)
  · rintro rfl
    exact .version h

theorem declines_iff_of_accepted (h : c.config.minVersion.tag ≤ v.tag) :
    c.Declines v superset? keys? refusal ↔
      v = .v1 ∧ ∃ keys ∈ keys?, ∃ superset ∈ superset?, (∃ k ∈ keys, k ∉ superset) ∧
        .subset ⟨keys.size, superset.size, (keys.absentFrom superset).length⟩ = refusal := by
  constructor
  · rintro (older | ⟨_, unflagged, hkeys, hsuperset, absent⟩)
    · exact absurd h (UInt8.not_le.2 older)
    · exact ⟨unflagged, _, hkeys, _, hsuperset, absent, rfl⟩
  · rintro ⟨unflagged, keys, hkeys, superset, hsuperset, absent, rfl⟩
    exact .subset h unflagged hkeys hsuperset absent

theorem check_eq_error_iff :
    c.config.check v = .error refusal ↔ c.Declines v superset? none refusal := by
  obtain hold | hnew := UInt8.lt_or_le v.tag c.config.minVersion.tag
  · simp [CodecConfig.check_of_older hold, declines_iff_of_older hold]
  · simp [CodecConfig.check_of_newer hnew, declines_iff_of_accepted hnew]

theorem keySetMode_eq_error_iff {keys : RoutingKeys} :
    c.keySetMode keys superset? v = .error refusal ↔
      c.Declines v superset? (some keys) refusal := by
  rw [keySetMode.eq_def]
  obtain hold | hnew := UInt8.lt_or_le v.tag c.config.minVersion.tag
  · simp [CodecConfig.check_of_older hold, declines_iff_of_older hold]
  rw [CodecConfig.check_of_newer hnew, declines_iff_of_accepted hnew]
  cases superset? with
  | none => simp
  | some superset =>
    cases hsubset : keys.checkSubset superset with
    | ok _ =>
      have habsent : ¬∃ k ∈ keys, k ∉ superset := by
        intro hne
        rw [SortedList.checkSubset_eq_error_iff.2 ⟨hne, rfl⟩] at hsubset
        cases hsubset
      simp [hsubset, habsent]
    | error violation =>
      obtain ⟨habsent, hviolation⟩ := SortedList.checkSubset_eq_error_iff.1 hsubset
      cases v <;> simp [hsubset, hviolation, habsent, WireVersion.flagsKeySet, WireVersion.tag]

theorem outcome_eq_error_iff (d : Deps) :
    c.outcome d superset? v = .error refusal ↔
      c.Declines v superset? (some d.byKey.keys) refusal := by
  rw [outcome, Halt.map_eq_error_iff, keySetMode_eq_error_iff]

theorem outcomePartial_eq_error_iff (p : PartialDeps) :
    c.outcomePartial p superset? v = .error refusal ↔
      c.Declines v superset? (some p.deps.byKey.keys) refusal := by
  rw [outcomePartial, Halt.map_eq_error_iff, outcome_eq_error_iff]

theorem outcomeNullable_eq_error_iff {α : Type} {outcome : α → Except Refusal Bytes}
    {keys : α → RoutingKeys}
    (h : ∀ a, outcome a = .error refusal ↔ c.Declines v superset? (some (keys a)) refusal)
    (a? : Option α) :
    c.outcomeNullable outcome v a? = .error refusal ↔
      c.Declines v superset? (a?.map keys) refusal := by
  cases a? with
  | none =>
    rw [outcomeNullable, Halt.map_eq_error_iff]
    exact check_eq_error_iff
  | some a =>
    rw [outcomeNullable, Halt.map_eq_error_iff]
    exact h a

end DepsCodec

namespace WireForm

/-- Writing a value is refused for the reasons to decline its keys and for no other, and leaves
nothing in the buffer where it is. -/
def RefusedFor {α : Type} [WireForm α] (c : DepsCodec) (superset? : Option RoutingKeys)
    (v : WireVersion) (keys? : α → Option RoutingKeys) : Prop :=
  ∀ a buffer refusal rest, (write c a superset? v).run buffer = (.error refusal, rest) ↔
    c.Declines v superset? (keys? a) refusal ∧ rest = buffer

theorem refusedFor_of_ends {α : Type} [WireForm α] {c : DepsCodec} {superset? : Option RoutingKeys}
    {v : WireVersion} {keys? : α → Option RoutingKeys} {outcome : α → Except Refusal Bytes}
    (hwrite : ∀ a, Writer.Ends (write c a superset? v) (outcome a))
    (h : ∀ a refusal, outcome a = .error refusal ↔ c.Declines v superset? (keys? a) refusal) :
    RefusedFor c superset? v keys? := by
  intro a buffer refusal rest
  rw [(hwrite a).run_eq_error_iff, h]

section

variable {c : DepsCodec} {superset? : Option RoutingKeys} {v : WireVersion}

theorem refusedFor_deps : RefusedFor c superset? v fun d : Deps => some d.byKey.keys :=
  refusedFor_of_ends DepsCodec.ends_write fun d _ => DepsCodec.outcome_eq_error_iff d

theorem refusedFor_partialDeps :
    RefusedFor c superset? v fun p : PartialDeps => some p.deps.byKey.keys :=
  refusedFor_of_ends DepsCodec.ends_writePartial fun p _ => DepsCodec.outcomePartial_eq_error_iff p

theorem refusedFor_nullableDeps :
    RefusedFor c superset? v fun d? : Option Deps => d?.map (·.byKey.keys) :=
  refusedFor_of_ends (DepsCodec.ends_writeNullable DepsCodec.ends_write) fun d? _ =>
    DepsCodec.outcomeNullable_eq_error_iff DepsCodec.outcome_eq_error_iff d?

theorem refusedFor_nullablePartialDeps :
    RefusedFor c superset? v fun p? : Option PartialDeps => p?.map (·.deps.byKey.keys) :=
  refusedFor_of_ends (DepsCodec.ends_writeNullable DepsCodec.ends_writePartial) fun p? _ =>
    DepsCodec.outcomeNullable_eq_error_iff DepsCodec.outcomePartial_eq_error_iff p?

end

/-- All four forms are refused before the first byte, for their version or for the keys of the key
graph. Where the keys are written relative to a set, they are in it. -/
theorem write_refused_iff (c : DepsCodec) (v : WireVersion) (superset? : Option RoutingKeys) :
    (RefusedFor c superset? v (fun d : Deps => some d.byKey.keys) ∧
      RefusedFor c superset? v (fun p : PartialDeps => some p.deps.byKey.keys) ∧
      RefusedFor c superset? v (fun d? : Option Deps => d?.map (·.byKey.keys)) ∧
      RefusedFor c superset? v (fun p? : Option PartialDeps => p?.map (·.deps.byKey.keys))) ∧
    (∀ keys? violation, c.Declines v superset? keys? (.subset violation) →
      1 ≤ violation.missing) ∧
    (∀ keys superset flagged, c.keySetMode keys superset? v = .ok (.relative superset flagged) →
      ∃ bytes, keys.encodeIn superset = .ok bytes) ∧
    ∀ direct keys : RoutingKeys, direct.isSubsetOf keys = true →
      ∃ bytes, direct.encodeIn keys = .ok bytes := by
  refine ⟨⟨refusedFor_deps, refusedFor_partialDeps, refusedFor_nullableDeps,
    refusedFor_nullablePartialDeps⟩, ?_, ?_, ?_⟩
  · rintro keys? violation (_ | ⟨_, _, _, _, absent⟩)
    exact List.length_pos_iff.2 (SortedList.absentFrom_ne_nil_iff.2 absent)
  · intro keys superset flagged hmode
    obtain ⟨-, hmode⟩ := DepsCodec.keySetMode_eq_ok hmode
    cases hmode with
    | relative subset => exact ⟨_, SortedList.encodeIn_eq_ok subset⟩
  · intro direct keys hsubset
    exact ⟨_, SortedList.encodeIn_eq_ok (SortedList.isSubsetOf_eq_true_iff.1 hsubset)⟩

/-- One key of two is missing from the superset, and the buffer is left alone. The key that was
accessed directly is among the keys of the key graph. -/
theorem write_refused_sample :
    let key := RoutingKey.token (.ofNat 7)
    let superset : RoutingKeys := .ofList [key 1, key 3]
    let violation : SubsetViolation := ⟨2, 2, 1⟩
    sampleDeps.direct.keys.isSubsetOf sampleDeps.byKey.keys = true ∧
      DepsCodec.default.Declines .v1 (some superset) (some sampleDeps.byKey.keys)
        (.subset violation) ∧
      (write .default (some sampleDeps) (some superset) .v1).run [9] =
        (.error (.subset violation), [9]) ∧
      1 ≤ violation.missing ∧
      ∃ bytes, sampleDeps.direct.keys.encodeIn sampleDeps.byKey.keys = .ok bytes := by
  intro key superset violation
  have hdirect : sampleDeps.direct.keys.isSubsetOf sampleDeps.byKey.keys = true := rfl
  have habsent : ∃ k ∈ sampleDeps.byKey.keys, k ∉ superset := ⟨key 5, by decide, by decide⟩
  have haccepted : DepsCodec.default.config.minVersion.tag ≤ WireVersion.v1.tag := by decide
  have hdeclines : DepsCodec.default.Declines .v1 (some superset) (some sampleDeps.byKey.keys)
      (.subset violation) :=
    (DepsCodec.declines_iff_of_accepted haccepted).2 ⟨rfl, _, rfl, _, rfl, habsent, by decide⟩
  obtain ⟨⟨-, -, hnullable, -⟩, hmissing, -, hencode⟩ :=
    write_refused_iff .default .v1 (some superset)
  refine ⟨hdirect, hdeclines, ?_, ?_, hencode _ _ hdirect⟩
  · exact (hnullable (some sampleDeps) [9] _ _).2 ⟨hdeclines, rfl⟩
  · exact hmissing _ _ hdeclines

end WireForm

end TxnDeps
