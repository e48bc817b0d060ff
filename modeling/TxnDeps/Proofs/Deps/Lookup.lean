import TxnDeps.Deps.Access
import TxnDeps.Proofs.Deps.Slice
import TxnDeps.Proofs.Graph.Algebra

namespace TxnDeps

theorem Graph.WellFormed.fetchTxnsContaining_eq_ok {g : RangeDeps} (h : g.WellFormed)
    (k : RoutingKey) : g.fetchTxnsContaining k = .ok (g.txnsContaining k) := by
  rw [RangeDeps.fetchTxnsContaining, h.fetchEntriesOf_eq_ok]
  rfl

namespace Deps

variable {d : Deps} {all : List Deps} {k : RoutingKey} {txn : TxnId}

theorem WellFormed.fetchTxnsFor_eq_ok (h : d.WellFormed) (k : RoutingKey) :
    d.fetchTxnsFor k = .ok (d.txnsFor k) := by
  rw [fetchTxnsFor, h.byKey.fetchTxnsOf_eq_ok, h.direct.fetchTxnsOf_eq_ok,
    h.byRange.fetchTxnsContaining_eq_ok]
  rfl

structure Finds (d : Deps) (k : RoutingKey) (property : TxnId → Prop) : Prop where
  answer : d.fetchTxnsFor k = .ok (d.txnsFor k)
  ascending : Ascending (d.txnsFor k)
  mem_iff : ∀ txn, txn ∈ d.txnsFor k ↔ property txn

theorem WellFormed.finds (h : d.WellFormed) {property : TxnId → Prop}
    (hmem : ∀ txn, txn ∈ d.txnsFor k ↔ property txn) : d.Finds k property :=
  ⟨h.fetchTxnsFor_eq_ok k, d.ascending_txnsFor k, hmem⟩

structure Countable (d : Deps) : Prop where
  byKey : d.byKey.links.length < 2 ^ 32
  byRange : d.byRange.links.length < 2 ^ 32
  direct : d.direct.links.length < 2 ^ 32

theorem Countable.wellFormed_merge (h : (merge all).Countable) : (merge all).WellFormed where
  byKey := (Graph.canonical_merge h.byKey).wellFormed
  byRange := (Graph.canonical_merge h.byRange).wellFormed
  direct := (Graph.canonical_merge h.direct).wellFormed

theorem assembleMerge_eq_ok (h : ∀ d ∈ all, d.WellFormed) :
    assembleMerge all = .ok (merge all) := by
  have hkey : Graph.assembleMerge (all.map byKey) = .ok (.merge (all.map byKey)) :=
    Graph.assembleMerge_eq_ok (List.forall_mem_map.2 fun d hd => (h d hd).byKey)
  have hrange : Graph.assembleMerge (all.map byRange) = .ok (.merge (all.map byRange)) :=
    Graph.assembleMerge_eq_ok (List.forall_mem_map.2 fun d hd => (h d hd).byRange)
  have hdirect : Graph.assembleMerge (all.map direct) = .ok (.merge (all.map direct)) :=
    Graph.assembleMerge_eq_ok (List.forall_mem_map.2 fun d hd => (h d hd).direct)
  rw [assembleMerge, hkey, hrange, hdirect]
  rfl

theorem Countable.mem_txnsFor_merge (h : (merge all).Countable) :
    txn ∈ (merge all).txnsFor k ↔ ∃ d ∈ all, txn ∈ d.txnsFor k := by
  have hkey : ⟨k, txn⟩ ∈ (merge all).byKey.pairs ↔ ∃ d ∈ all, ⟨k, txn⟩ ∈ d.byKey.pairs :=
    Graph.mem_pairs_merge_map h.byKey
  have hdirect : ⟨k, txn⟩ ∈ (merge all).direct.pairs ↔ ∃ d ∈ all, ⟨k, txn⟩ ∈ d.direct.pairs :=
    Graph.mem_pairs_merge_map h.direct
  have hrange (r : TokenRange) :
      ⟨r, txn⟩ ∈ (merge all).byRange.pairs ↔ ∃ d ∈ all, ⟨r, txn⟩ ∈ d.byRange.pairs :=
    Graph.mem_pairs_merge_map h.byRange
  simp only [mem_txnsFor_iff, hkey, hdirect, hrange]
  constructor
  · rintro (⟨d, hd, hmem⟩ | ⟨d, hd, hmem⟩ | ⟨r, hr, d, hd, hmem⟩)
    · exact ⟨d, hd, .inl hmem⟩
    · exact ⟨d, hd, .inr (.inl hmem)⟩
    · exact ⟨d, hd, .inr (.inr ⟨r, hr, hmem⟩)⟩
  · rintro ⟨d, hd, hmem | hmem | ⟨r, hr, hmem⟩⟩
    · exact .inl ⟨d, hd, hmem⟩
    · exact .inr (.inl ⟨d, hd, hmem⟩)
    · exact .inr (.inr ⟨r, hr, d, hd, hmem⟩)

namespace WellFormed

theorem without (h : d.WellFormed) (remove : TxnId → Bool) : (d.without remove).WellFormed where
  byKey := (h.byKey.canonical_filterTxns (!remove ·)).wellFormed
  byRange := (h.byRange.canonical_filterTxns (!remove ·)).wellFormed
  direct := (h.direct.canonical_filterTxns (!remove ·)).wellFormed

theorem assembleWithout_eq_ok (h : d.WellFormed) (remove : TxnId → Bool) :
    d.assembleWithout remove = .ok (d.without remove) := by
  rw [assembleWithout, h.byKey.assembleTxns_eq_ok, h.byRange.assembleTxns_eq_ok,
    h.direct.assembleTxns_eq_ok]
  rfl

theorem mem_txnsFor_without (h : d.WellFormed) {remove : TxnId → Bool} :
    txn ∈ (d.without remove).txnsFor k ↔ txn ∈ d.txnsFor k ∧ (!remove txn) = true := by
  have hkey : ⟨k, txn⟩ ∈ (d.without remove).byKey.pairs ↔
      ⟨k, txn⟩ ∈ d.byKey.pairs ∧ (!remove txn) = true :=
    h.byKey.mem_pairs_filterTxns (!remove ·)
  have hdirect : ⟨k, txn⟩ ∈ (d.without remove).direct.pairs ↔
      ⟨k, txn⟩ ∈ d.direct.pairs ∧ (!remove txn) = true :=
    h.direct.mem_pairs_filterTxns (!remove ·)
  have hrange (r : TokenRange) : ⟨r, txn⟩ ∈ (d.without remove).byRange.pairs ↔
      ⟨r, txn⟩ ∈ d.byRange.pairs ∧ (!remove txn) = true :=
    h.byRange.mem_pairs_filterTxns (!remove ·)
  simp only [mem_txnsFor_iff, hkey, hdirect, hrange, or_and_right, ← and_assoc, exists_and_right]

theorem txnsFor_without (h : d.WellFormed) (remove : TxnId → Bool) (k : RoutingKey) :
    (d.without remove).txnsFor k = (d.txnsFor k).filter (!remove ·) := by
  apply (ascending_txnsFor _ k).eq_of_mem_iff ((d.ascending_txnsFor k).filter _)
  intro txn
  rw [h.mem_txnsFor_without, List.mem_filter]

end WellFormed

/-- Well-formed dependencies are put together, reduced and looked up without a trap. On a key the
look-up finds what one of the graphs associates with the key or with a range around it. Of
dependencies together it finds what it finds of one of them, and of dependencies without some
transactions what it finds of all but these. -/
theorem lookup_distributes (all : List Deps) (hall : ∀ d ∈ all, d.WellFormed)
    (hsize : (merge all).Countable) :
    (assembleMerge all = .ok (merge all) ∧
      ∀ k, (merge all).Finds k fun txn => ∃ d ∈ all, txn ∈ d.txnsFor k) ∧
    (∀ d : Deps, d.WellFormed → ∀ remove, d.assembleWithout remove = .ok (d.without remove) ∧
      ∀ k, (d.without remove).Finds k (fun txn => txn ∈ d.txnsFor k ∧ (!remove txn) = true) ∧
        (d.without remove).txnsFor k = (d.txnsFor k).filter (!remove ·)) ∧
    ∀ d : Deps, d.WellFormed → ∀ k, d.Finds k fun txn =>
      ⟨k, txn⟩ ∈ d.byKey.pairs ∨ ⟨k, txn⟩ ∈ d.direct.pairs ∨
        ∃ r : TokenRange, r.contains k = true ∧ ⟨r, txn⟩ ∈ d.byRange.pairs := by
  refine ⟨⟨assembleMerge_eq_ok hall, fun k => ?_⟩, fun d hd remove => ?_, fun d hd k => ?_⟩
  · exact hsize.wellFormed_merge.finds fun txn => hsize.mem_txnsFor_merge
  · refine ⟨hd.assembleWithout_eq_ok remove, fun k => ⟨?_, hd.txnsFor_without remove k⟩⟩
    exact (hd.without remove).finds fun txn => hd.mem_txnsFor_without
  · exact hd.finds fun txn => mem_txnsFor_iff

/-- A key on which each of the graphs tells of a conflict, of which one is dropped. -/
theorem lookup_distributes_sample :
    let key := RoutingKey.token (.ofNat 7)
    let other : Deps := ⟨.ofPairs [⟨key 5, ⟨1, 15, 0, 1⟩⟩], .empty, .empty⟩
    let all := [sampleDeps, other]
    (∀ d ∈ all, d.WellFormed) ∧ (merge all).Countable ∧
      (merge all).fetchTxnsFor (key 5) =
        .ok [⟨1, 15, 0, 1⟩, ⟨1, 20, 0, 1⟩, ⟨1, 30, 0, 1⟩, ⟨1, 40, 0, 1⟩] ∧
      (sampleDeps.without fun txn => txn == ⟨1, 30, 0, 1⟩).txnsFor (key 5) =
        [⟨1, 20, 0, 1⟩, ⟨1, 40, 0, 1⟩] := by
  intro key other all
  have hother : other.WellFormed := ⟨GraphBuilder.wellFormed_build (by decide), .empty, .empty⟩
  have hall : ∀ d ∈ all, d.WellFormed := by
    simp [all, hother, sampleDeps_wellFormed]
  have hsize : (merge all).Countable := ⟨by decide, by decide, by decide⟩
  obtain ⟨⟨-, hmerge⟩, hwithout, -⟩ := lookup_distributes all hall hsize
  obtain ⟨-, hsample⟩ := hwithout sampleDeps sampleDeps_wellFormed fun txn => txn == ⟨1, 30, 0, 1⟩
  refine ⟨hall, hsize, ?_, ?_⟩
  · rw [(hmerge (key 5)).answer]
    exact congrArg Except.ok (by decide)
  · rw [(hsample (key 5)).2]
    decide

end Deps

end TxnDeps
