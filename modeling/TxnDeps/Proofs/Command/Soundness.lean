import TxnDeps.Command.Record
import TxnDeps.Proofs.Graph.Access
import TxnDeps.Proofs.MessagePack.Soundness
import TxnDeps.Proofs.Range.Union

namespace TxnDeps

open Step (Safe)

namespace MessagePack

variable {α : Type} {p : α → Prop}

theorem safe_optional {value : Unpacker α} (h : Safe value p) :
    Safe (optional value) fun a? => ∀ a ∈ a?, p a := by
  have hsome : Safe (some <$> value) fun a? => ∀ a ∈ a?, p a :=
    (h.mono fun a ha => by simpa using ha).map
  intro rest
  change Halt.Safe (optional value rest).1 _
  unfold optional
  split
  · exact fun a ha => absurd ha (Option.not_mem_none a)
  · exact hsome rest

theorem safe_optionalField {row : Row} {i : Nat} {value : (level : Nat) → Unpacker α}
    (h : ∀ level, Safe (value level) p) :
    Safe (row.optionalField i value) fun a? => ∀ a ∈ a?, p a := by
  have hfield : Safe (row.field i fun level => optional (value level)) fun a? => ∀ a ∈ a?, p a :=
    safe_field fun level => safe_optional (h level)
  cases row with
  | inOrder => exact hfield
  | apart level starts =>
    rw [Row.optionalField]
    split
    · exact Safe.pure fun a ha => absurd ha (Option.not_mem_none a)
    · exact hfield

end MessagePack

open MessagePack

/-- The keys are in order, the arrays fit each other, and walking them stays inside them. -/
structure Graph.Reliable {α : Type} [Ord α] (g : Graph α) : Prop where
  keys : Ascending g.keys.toList
  wellFormed : g.WellFormed
  accessible : g.Accessible

theorem Graph.WellFormed.reliable {α : Type} [Ord α] {g : Graph α} (h : g.WellFormed) :
    g.Reliable :=
  ⟨g.keys.ascending, h, h.accessible⟩

/-- Each graph can be relied on. The covering set is in order, and no range crosses tables. -/
structure PartialDeps.Reliable (p : PartialDeps) : Prop where
  byKey : p.deps.byKey.Reliable
  byRange : p.deps.byRange.Reliable
  direct : p.deps.direct.Reliable
  ranges : ∀ r ∈ p.deps.byRange.keys, r.SingleTable
  coveringKeys : Ascending p.covering.keySet.toList
  coveringRanges : Ascending p.covering.rangeSet.toList
  covering : ∀ r ∈ p.covering.rangeSet, r.SingleTable

def Command.Reliable (c : Command) : Prop := ∀ p ∈ c.deps, p.Reliable

structure CommandUpdate.Reliable (u : CommandUpdate) : Prop where
  before : ∀ c ∈ u.before, c.Reliable
  after : ∀ c ∈ u.after, c.Reliable

theorem PartialDeps.reliable {covering : Participants} {d : Deps} (hd : d.WellFormed)
    (hranges : ∀ r ∈ d.byRange.keys, r.SingleTable)
    (hcovering : ∀ r ∈ covering.rangeSet, r.SingleTable) :
    (⟨covering, d⟩ : PartialDeps).Reliable where
  byKey := hd.byKey.reliable
  byRange := hd.byRange.reliable
  direct := hd.direct.reliable
  ranges := hranges
  coveringKeys := covering.keySet.ascending
  coveringRanges := covering.rangeSet.ascending
  covering := hcovering

namespace Packed

theorem checked_option {α : Type} {p : α → Prop} [Packed α] (h : Checked p) :
    Checked fun a? : Option α => ∀ a ∈ a?, p a := fun level => safe_optional (h level)

theorem checked_ballot : Checked fun _ : Ballot => True := by
  apply safe_record
  · exact ⟨checked_uint64.probe, checked_uint32.probe⟩
  · intro row
    apply (safe_field checked_uint64).bind
    intro counter _
    apply (safe_field checked_uint32).bind
    intro node _
    exact safe_close.bind fun _ _ => Safe.pure trivial

theorem checked_saveStatus : Checked fun _ : SaveStatus => True := by
  intro level
  apply (safe_case _).bind
  rintro ⟨i, isValued⟩ _
  dsimp only
  split
  · exact safe_bare trivial
  · exact safe_malformed

theorem checked_participants :
    Checked fun p : Participants => ∀ r ∈ p.rangeSet, r.SingleTable := by
  intro level
  apply (safe_case _).bind
  rintro ⟨i, isValued⟩ _
  dsimp only
  split
  · have hkeys := checked_sortedList checked_routingKey level
    exact safe_valued (hkeys.mono fun _ _ => nofun).map
  · exact safe_valued (checked_sortedList checked_tokenRange level).map

theorem checked_partialDeps : Checked PartialDeps.Reliable := by
  apply safe_record
  · exact ⟨checked_participants.probe, checked_deps.probe⟩
  · intro row
    apply (safe_field checked_participants).bind
    intro covering hcovering
    apply (safe_field checked_deps).bind
    intro deps hdeps
    exact safe_close.bind fun _ _ =>
      Safe.pure (PartialDeps.reliable hdeps.1 hdeps.2 hcovering)

theorem checked_command : Checked Command.Reliable := by
  apply safe_record
  · exact ⟨checked_txnId.probe, checked_saveStatus.probe, (checked_option checked_txnId).probe,
      checked_ballot.probe, (checked_option checked_partialDeps).probe⟩
  · intro row
    apply (safe_field checked_txnId).bind
    intro txn _
    apply (safe_field checked_saveStatus).bind
    intro status _
    apply (safe_optionalField checked_txnId).bind
    intro executeAt _
    apply (safe_field checked_ballot).bind
    intro promised _
    apply (safe_optionalField checked_partialDeps).bind
    intro deps hdeps
    exact safe_close.bind fun _ _ => Safe.pure hdeps

theorem checked_commandUpdate : Checked CommandUpdate.Reliable := by
  apply safe_record
  · exact ⟨checked_txnId.probe, (checked_option checked_command).probe,
      (checked_option checked_command).probe⟩
  · intro row
    apply (safe_field checked_txnId).bind
    intro txn _
    apply (safe_optionalField checked_command).bind
    intro before hbefore
    apply (safe_optionalField checked_command).bind
    intro after hafter
    exact safe_close.bind fun _ _ => Safe.pure ⟨hbefore, hafter⟩

end Packed

/-- Bytes are a record of an update that can be relied on, or they are corrupt. -/
theorem CommandUpdate.reliable_or_corrupt (bytes : Bytes) :
    (∃ u : CommandUpdate, ofBytes bytes = .ok u ∧ u.Reliable) ∨
      ∃ defect, ofBytes bytes = .error (.failed (.corruption (.record defect))) := by
  have hsafe : Halt.Safe (Packed.ofBytes bytes) CommandUpdate.Reliable :=
    Packed.checked_commandUpdate 0 bytes
  rw [ofBytes]
  rcases hread : (Packed.ofBytes bytes : Except _ CommandUpdate) with (defect | _) | u
  · exact .inr ⟨defect, rfl⟩
  · rw [hread] at hsafe
    exact absurd hsafe id
  · exact .inl ⟨u, rfl, hsafe.of_ok hread⟩

end TxnDeps
