import TxnDeps.Proofs.Graph.Restriction

namespace TxnDeps

open Std (TransOrd LawfulEqOrd)

variable {α : Type} [Ord α]

namespace Graph

def Names (g : Graph α) (txn : TxnId) : Prop := ∃ key, ⟨key, txn⟩ ∈ g.pairs

/-- Each transaction has a key, and each key a transaction. -/
structure Tight (g : Graph α) : Prop where
  txns : ∀ txn ∈ g.txnIds, g.Names txn
  keys : ∀ key ∈ g.keys, ∃ txn, ⟨key, txn⟩ ∈ g.pairs

theorem isEmpty_eq_true_iff {g : Graph α} : g.isEmpty = true ↔ ∀ key, key ∉ g.keys :=
  List.isEmpty_iff.trans List.eq_nil_iff_forall_not_mem

theorem not_names_of_isEmpty {g : Graph α} (h : g.isEmpty = true) (txn : TxnId) :
    ¬g.Names txn :=
  fun ⟨key, hmem⟩ => isEmpty_eq_true_iff.1 h key (key_mem_of_mem_pairs hmem)

theorem Tight.isEmpty_iff {g : Graph α} (h : g.Tight) :
    g.isEmpty = true ↔ ∀ txn, ¬g.Names txn := by
  refine ⟨not_names_of_isEmpty, fun hnone => isEmpty_eq_true_iff.2 fun key hkey => ?_⟩
  obtain ⟨txn, hmem⟩ := h.keys key hkey
  exact hnone txn ⟨key, hmem⟩

namespace WellFormed

theorem containsTxn_iff {g : Graph α} (h : g.WellFormed) {txn : TxnId} :
    g.containsTxn txn = true ↔ txn ∈ g.txnIds :=
  isSome_bisect?_iff h.txns

theorem mem_txnIds_of_names {g : Graph α} (h : g.WellFormed) {txn : TxnId} (hname : g.Names txn) :
    txn ∈ g.txnIds := by
  obtain ⟨runs, hruns, -⟩ := h.runs
  obtain ⟨key, hmem⟩ := hname
  obtain ⟨txns, hentry, htxn⟩ := mem_pairs_iff.1 hmem
  rw [hruns.entries_eq] at hentry
  obtain ⟨run, hrun, rfl⟩ := List.mem_map.1 (List.of_mem_zip hentry).2
  obtain ⟨i, hi, rfl⟩ := List.mem_map.1 htxn
  exact List.mem_of_getElem? (getElem?_eq_txnAt (hruns.indexes run hrun i hi))

end WellFormed

end Graph

variable [TransOrd α] [LawfulEqOrd α]

theorem GraphBuilder.tight_build {b : GraphBuilder α} (h : b.Fits) : b.build.Tight where
  txns txn htxn := by
    obtain ⟨key, hmem⟩ := mem_txnIds.1 htxn
    refine ⟨key, ?_⟩
    rw [pairs_build h]
    exact hmem
  keys key hkey := by
    obtain ⟨txn, hmem⟩ := mem_keys.1 hkey
    refine ⟨txn, ?_⟩
    rw [pairs_build h]
    exact hmem

namespace Graph

theorem WellFormed.exists_merge_empty {g : Graph α} (h : g.WellFormed) :
    ∃ b : GraphBuilder α, b.Fits ∧ merge [g, .empty] = b.build ∧ ∀ a, a ∈ b ↔ a ∈ g.pairs := by
  obtain ⟨runs, hruns, -⟩ := h.runs
  have hpairs : [g, Graph.empty].flatMap pairs = g.pairs := List.append_nil _
  refine ⟨.ofList g.pairs, hruns.fits fun _ ha => ha, ?_, fun _ => SortedList.mem_ofList⟩
  rw [merge, hpairs]
  rfl

theorem WellFormed.merge_empty {g : Graph α} (h : g.WellFormed) :
    (merge [g, .empty]).WellFormed ∧ (merge [g, .empty]).Tight := by
  obtain ⟨b, hfits, he, -⟩ := h.exists_merge_empty
  rw [he]
  exact ⟨GraphBuilder.wellFormed_build hfits, GraphBuilder.tight_build hfits⟩

theorem WellFormed.names_merge_empty_iff {g : Graph α} (h : g.WellFormed) {txn : TxnId} :
    (merge [g, .empty]).Names txn ↔ g.Names txn := by
  obtain ⟨b, hfits, he, hmem⟩ := h.exists_merge_empty
  rw [Names, Names, he, GraphBuilder.pairs_build hfits]
  exact exists_congr fun key => hmem ⟨key, txn⟩

end Graph

end TxnDeps
