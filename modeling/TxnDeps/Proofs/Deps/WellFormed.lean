import TxnDeps.Deps
import TxnDeps.Proofs.Graph.Tight

namespace TxnDeps

structure Deps.WellFormed (d : Deps) : Prop where
  byKey : d.byKey.WellFormed
  byRange : d.byRange.WellFormed
  direct : d.direct.WellFormed

namespace Deps

variable {d : Deps}

theorem mem_txnIds_iff {txn : TxnId} :
    txn ∈ d.txnIds ↔
      txn ∈ d.byKey.txnIds ∨ txn ∈ d.byRange.txnIds ∨ txn ∈ d.direct.txnIds := by
  simp only [txnIds, mem_sortDistinct, List.mem_append, or_assoc]

theorem WellFormed.contains_iff (h : d.WellFormed) {txn : TxnId} :
    d.contains txn = true ↔ txn ∈ d.txnIds := by
  simp only [contains, Bool.or_eq_true, mem_txnIds_iff, h.byKey.containsTxn_iff,
    h.byRange.containsTxn_iff, h.direct.containsTxn_iff, or_assoc]

end Deps

/-- A key, a range and a directly accessed key, with the conflicts on them. -/
def sampleDeps : Deps :=
  let key := RoutingKey.token (.ofNat 7)
  ⟨.ofPairs [⟨key 1, ⟨1, 10, 0, 1⟩⟩, ⟨key 5, ⟨1, 20, 0, 1⟩⟩],
    .ofPairs [⟨⟨key 0, key 9⟩, ⟨1, 30, 0, 1⟩⟩], .ofPairs [⟨key 5, ⟨1, 40, 0, 1⟩⟩]⟩

theorem sampleDeps_wellFormed : sampleDeps.WellFormed :=
  ⟨GraphBuilder.wellFormed_build (by decide), GraphBuilder.wellFormed_build (by decide),
    GraphBuilder.wellFormed_build (by decide)⟩

end TxnDeps
