import TxnDeps.Graph.Builder
import TxnDeps.Proofs.Graph.WellFormed

namespace TxnDeps

open Std (TransOrd LawfulEqOrd)

variable {α : Type} [Ord α]

theorem Association.compare_eq_lt_iff {a b : Association α} :
    compare a b = .lt ↔
      compare a.key b.key = .lt ∨ compare a.key b.key = .eq ∧ compare a.txn b.txn = .lt :=
  Ordering.then_eq_lt

omit [Ord α] in
theorem Association.mem_flatMap {ι : Type} {key : ι → α} {txns : ι → List TxnId} {entries : List ι}
    {a : Association α} :
    (a ∈ entries.flatMap fun e => (txns e).map fun txn => ⟨key e, txn⟩) ↔
      ∃ e ∈ entries, key e = a.key ∧ a.txn ∈ txns e := by
  obtain ⟨k, txn⟩ := a
  simp only [List.mem_flatMap, List.mem_map, Association.mk.injEq]
  refine exists_congr fun e => and_congr_right fun _ => ⟨?_, ?_⟩
  · rintro ⟨_, hmem, hkey, rfl⟩
    exact ⟨hkey, hmem⟩
  · rintro ⟨hkey, hmem⟩
    exact ⟨txn, hmem, hkey, rfl⟩

theorem Association.ascending_flatMap [LawfulEqOrd α] {ι : Type} (key : ι → α)
    (txns : ι → List TxnId) {entries : List ι}
    (hkeys : entries.Pairwise fun e f => compare (key e) (key f) = .lt)
    (htxns : ∀ e ∈ entries, Ascending (txns e)) :
    Ascending (entries.flatMap fun e =>
      (txns e).map fun txn => (⟨key e, txn⟩ : Association α)) := by
  rw [Ascending, List.pairwise_flatMap]
  constructor
  · intro e he
    rw [List.pairwise_map]
    refine (htxns e he).imp fun hlt => compare_eq_lt_iff.2 (.inr ?_)
    exact ⟨LawfulEqOrd.compare_eq_iff_eq.2 rfl, hlt⟩
  · refine hkeys.imp fun {e f} hlt a ha b hb => ?_
    obtain ⟨_, _, rfl⟩ := List.mem_map.1 ha
    obtain ⟨_, _, rfl⟩ := List.mem_map.1 hb
    exact compare_eq_lt_iff.2 (.inl hlt)

variable [TransOrd α] [LawfulEqOrd α]

namespace GraphBuilder

variable {b : GraphBuilder α}

theorem mem_keys {key : α} : key ∈ b.keys ↔ ∃ txn, ⟨key, txn⟩ ∈ b := by
  rw [keys, SortedList.mem_ofList, List.mem_map]
  exact ⟨fun ⟨a, ha, hk⟩ => ⟨a.txn, hk ▸ ha⟩, fun ⟨txn, h⟩ => ⟨_, h, rfl⟩⟩

omit [TransOrd α] [LawfulEqOrd α] in
theorem mem_txnIds {txn : TxnId} : txn ∈ b.txnIds ↔ ∃ key, ⟨key, txn⟩ ∈ b := by
  rw [txnIds, SortedList.mem_ofList, List.mem_map]
  exact ⟨fun ⟨a, ha, ht⟩ => ⟨a.key, ht ▸ ha⟩, fun ⟨key, h⟩ => ⟨_, h, rfl⟩⟩

omit [TransOrd α] in
theorem mem_txnsOf {key : α} {txn : TxnId} : txn ∈ b.txnsOf key ↔ ⟨key, txn⟩ ∈ b := by
  simp only [txnsOf, List.mem_map, List.mem_filter, beq_iff_eq, LawfulEqOrd.compare_eq_iff_eq]
  constructor
  · rintro ⟨a, ⟨ha, rfl⟩, rfl⟩
    exact ha
  · intro h
    exact ⟨_, ⟨h, rfl⟩, rfl⟩

omit [TransOrd α] in
theorem ascending_txnsOf (key : α) : Ascending (b.txnsOf key) := by
  rw [txnsOf, Ascending, List.pairwise_map]
  refine (b.ascending.filter _).imp_of_mem fun {a c} ha hc hlt => ?_
  have hak : a.key = key := by simpa using (List.mem_filter.1 ha).2
  have hck : c.key = key := by simpa using (List.mem_filter.1 hc).2
  obtain h | h := Association.compare_eq_lt_iff.1 hlt
  · simp [hak, hck] at h
  · exact h.2

/-- Key by key, the transactions of each key are all that is recorded. -/
theorem flatMap_txnsOf (b : GraphBuilder α) :
    (b.keys.toList.flatMap fun key => (b.txnsOf key).map fun txn => ⟨key, txn⟩) = b.toList := by
  have horder := Association.ascending_flatMap id b.txnsOf b.keys.ascending fun key _ =>
    ascending_txnsOf key
  refine horder.eq_of_mem_iff b.ascending fun a => ?_
  simp only [List.mem_flatMap, List.mem_map, id]
  constructor
  · rintro ⟨key, _, txn, htxn, rfl⟩
    exact mem_txnsOf.1 htxn
  · intro ha
    exact ⟨a.key, mem_keys.2 ⟨a.txn, ha⟩, a.txn, mem_txnsOf.2 ha, rfl⟩

def indexOf (b : GraphBuilder α) (txn : TxnId) : UInt32 := UInt32.ofNat (b.txnIds.toList.idxOf txn)

def runs (b : GraphBuilder α) : List (List UInt32) :=
  b.keys.toList.map fun key => (b.txnsOf key).map b.indexOf

/-- The links of the graph can count its keys and associations. -/
def Fits (b : GraphBuilder α) : Prop := b.keys.size + b.size < 2 ^ 32

instance (b : GraphBuilder α) : Decidable b.Fits := Nat.decLt _ _

theorem length_runs (b : GraphBuilder α) : b.runs.length = b.keys.size := List.length_map _

theorem length_flatten_runs (b : GraphBuilder α) : b.runs.flatten.length = b.size := by
  have h := congrArg List.length b.flatMap_txnsOf
  rw [List.length_flatMap] at h
  rw [runs, List.length_flatten, List.map_map, SortedList.size, ← h]
  congr 1
  exact List.map_congr_left fun key _ => by simp

omit [TransOrd α] [LawfulEqOrd α] in
theorem size_txnIds_le (b : GraphBuilder α) : b.txnIds.size ≤ b.size := by
  have h : b.txnIds.toList ⊆ b.toList.map (·.txn) := fun txn htxn => mem_sortDistinct.1 htxn
  simpa [SortedList.size] using List.Nodup.length_le_of_subset b.txnIds.ascending.nodup h

theorem toNat_indexOf (h : b.Fits) {key : α} {txn : TxnId} (hmem : ⟨key, txn⟩ ∈ b) :
    (b.indexOf txn).toNat = b.txnIds.toList.idxOf txn ∧
      b.txnIds.toList.idxOf txn < b.txnIds.toList.length := by
  have hlt : b.txnIds.toList.idxOf txn < b.txnIds.toList.length :=
    List.idxOf_lt_length_of_mem (mem_txnIds.2 ⟨key, hmem⟩)
  have hle : b.txnIds.toList.length ≤ b.size := b.size_txnIds_le
  rw [Fits] at h
  exact ⟨UInt32.toNat_ofNat'.trans (Nat.mod_eq_of_lt (by omega)), hlt⟩

theorem hasRuns_build (h : b.Fits) : b.build.HasRuns b.runs := by
  refine ⟨b.length_runs, Links.holds_ofRuns ?_, ?_⟩
  · change b.runs.length + b.runs.flatten.length < _
    rw [length_runs, length_flatten_runs]
    exact h
  · intro run hrun i hi
    obtain ⟨key, _, rfl⟩ := List.mem_map.1 hrun
    obtain ⟨txn, htxn, rfl⟩ := List.mem_map.1 hi
    have hindex := toNat_indexOf h (mem_txnsOf.1 htxn)
    rw [hindex.1]
    exact hindex.2

theorem txnAt_indexOf (h : b.Fits) {key : α} {txn : TxnId} (hmem : ⟨key, txn⟩ ∈ b) :
    b.build.txnAt (b.indexOf txn) = txn := by
  have hindex := toNat_indexOf h hmem
  rw [Graph.txnAt, hindex.1]
  change b.txnIds.toList[b.txnIds.toList.idxOf txn]?.getD .none = txn
  rw [List.getElem?_eq_getElem hindex.2, Option.getD_some, List.getElem_idxOf]

theorem entries_build (h : b.Fits) :
    b.build.entries = b.keys.toList.map fun key => (key, b.txnsOf key) := by
  have htxns : b.runs.map (·.map b.build.txnAt) = b.keys.toList.map b.txnsOf := by
    rw [runs, List.map_map]
    apply List.map_congr_left
    intro key _
    change ((b.txnsOf key).map b.indexOf).map b.build.txnAt = b.txnsOf key
    rw [List.map_map]
    exact (List.map_congr_left fun txn htxn => txnAt_indexOf h (mem_txnsOf.1 htxn)).trans
      (List.map_id _)
  rw [(hasRuns_build h).entries_eq, htxns]
  exact List.map_prod_left_eq_zip.symm

theorem pairs_build (h : b.Fits) : b.build.pairs = b.toList := by
  rw [Graph.pairs, entries_build h, List.flatMap_map]
  exact b.flatMap_txnsOf

theorem wellFormed_build (h : b.Fits) : b.build.WellFormed := by
  refine ⟨b.txnIds.ascending, b.runs, hasRuns_build h, fun run hrun => ?_⟩
  rw [← Graph.ascending_map_txnAt_iff b.txnIds.ascending ((hasRuns_build h).indexes run hrun)]
  obtain ⟨key, _, rfl⟩ := List.mem_map.1 hrun
  rw [List.map_map]
  have hid : (b.txnsOf key).map (b.build.txnAt ∘ b.indexOf) = b.txnsOf key :=
    (List.map_congr_left fun txn htxn => txnAt_indexOf h (mem_txnsOf.1 htxn)).trans
      (List.map_id _)
  rw [hid]
  exact ascending_txnsOf key

end GraphBuilder

end TxnDeps
