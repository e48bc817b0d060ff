import TxnDeps.Proofs.Deps.WellFormed
import TxnDeps.Proofs.Graph.Views

namespace TxnDeps

open Std (TransOrd LawfulEqOrd OrientedCmp TransCmp ReflCmp)

structure Latest (txn : TxnId) (txns : List TxnId) : Prop where
  mem : txn ∈ txns
  isLE : ∀ s ∈ txns, (compare s txn).isLE

theorem Ascending.latest_iff {txns : List TxnId} (h : Ascending txns) {txn : TxnId} :
    Latest txn txns ↔ txns.getLast? = some txn := by
  obtain rfl | ⟨before, last, he⟩ := txns.eq_nil_or_concat
  · exact ⟨fun hlatest => absurd hlatest.mem List.not_mem_nil, nofun⟩
  rw [List.concat_eq_append] at he
  subst he
  have hlatest : Latest last (before ++ [last]) := by
    refine ⟨List.mem_append_right _ (List.mem_singleton_self last), fun s hs => ?_⟩
    obtain hs | hs := List.mem_append.1 hs
    · exact Ordering.isLE_of_eq_lt <|
        (List.pairwise_append.1 h).2.2 s hs last (List.mem_singleton_self last)
    · rw [List.mem_singleton.1 hs]
      exact ReflCmp.isLE_rfl
  rw [List.getLast?_concat, Option.some_inj]
  constructor
  · intro hother
    exact (LawfulEqOrd.eq_of_compare <|
      OrientedCmp.isLE_antisymm (hlatest.isLE txn hother.mem) (hother.isLE last hlatest.mem)).symm
  · rintro rfl
    exact hlatest

theorem latest_flatten {lists : List (List TxnId)} (h : ∀ txns ∈ lists, Ascending txns)
    {txn : TxnId} (hlatest : Latest txn (lists.filterMap List.getLast?)) :
    Latest txn lists.flatten := by
  obtain ⟨txns, htxns, hlast⟩ := List.mem_filterMap.1 hlatest.mem
  refine ⟨List.mem_flatten.2 ⟨txns, htxns, List.mem_of_getLast? hlast⟩, fun s hs => ?_⟩
  obtain ⟨others, hothers, hs⟩ := List.mem_flatten.1 hs
  have hother := List.getLast?_eq_some_getLast (List.ne_nil_of_mem hs)
  exact TransCmp.isLE_trans (((h others hothers).latest_iff.2 hother).isLE s hs)
    (hlatest.isLE _ (List.mem_filterMap.2 ⟨others, hothers, hother⟩))

namespace Deps

theorem isLE_later (s t : TxnId) :
    (compare s (later s t)).isLE ∧ (compare t (later s t)).isLE := by
  rw [later]
  split
  · next hlt => exact ⟨Ordering.isLE_of_eq_lt hlt, ReflCmp.isLE_rfl⟩
  · next hge => exact ⟨ReflCmp.isLE_rfl, Decidable.not_not.1 (mt OrientedCmp.lt_of_not_isLE hge)⟩

theorem latest_foldl_later (t : TxnId) (ts : List TxnId) :
    Latest (ts.foldl later t) (t :: ts) := by
  induction ts generalizing t with
  | nil =>
    refine ⟨List.mem_singleton_self t, fun s hs => ?_⟩
    rw [List.mem_singleton.1 hs]
    exact ReflCmp.isLE_rfl
  | cons s ts ih =>
    obtain ⟨hmem, hle⟩ := ih (later t s)
    obtain ⟨hmore, hrest⟩ := List.forall_mem_cons.1 hle
    obtain ⟨ht, hs⟩ := isLE_later t s
    refine ⟨?_, List.forall_mem_cons.2 ⟨?_, List.forall_mem_cons.2 ⟨?_, hrest⟩⟩⟩
    · obtain he | hmem := List.mem_cons.1 hmem
      · rw [List.foldl_cons, he, later]
        split <;> simp
      · exact List.mem_cons_of_mem t (List.mem_cons_of_mem s hmem)
    · exact TransCmp.isLE_trans ht hmore
    · exact TransCmp.isLE_trans hs hmore

variable {d : Deps}

theorem ascending_txnIds (d : Deps) : Ascending d.txnIds := ascending_sortDistinct _

theorem WellFormed.maxTxn?_eq_getLast? (h : d.WellFormed) : d.maxTxn? = d.txnIds.getLast? := by
  let lists := [d.byKey.txnIds, d.byRange.txnIds, d.direct.txnIds]
  have hlists : ∀ txns ∈ lists, Ascending txns := by
    simp [lists, h.byKey.txns, h.byRange.txns, h.direct.txns]
  have hmem : ∀ txn, txn ∈ d.txnIds ↔ txn ∈ lists.flatten := by
    simp [lists, mem_txnIds_iff]
  rw [maxTxn?]
  split
  · next hnone =>
    have hempty : ∀ txns ∈ lists, txns = [] := by
      intro txns htxns
      exact List.getLast?_eq_none_iff.1 (List.filterMap_eq_nil_iff.1 hnone txns htxns)
    have hnil : d.txnIds = [] := by
      rw [List.eq_nil_iff_forall_not_mem]
      intro txn htxn
      obtain ⟨txns, htxns, hin⟩ := List.mem_flatten.1 ((hmem txn).1 htxn)
      rw [hempty txns htxns] at hin
      exact List.not_mem_nil hin
    rw [hnil, List.getLast?_nil]
  · next t ts hsome =>
    have hlatest : Latest (ts.foldl later t) lists.flatten :=
      latest_flatten hlists (hsome ▸ latest_foldl_later t ts)
    symm
    rw [← d.ascending_txnIds.latest_iff]
    exact ⟨(hmem _).2 hlatest.mem, fun s hs => hlatest.isLE s ((hmem s).1 hs)⟩

/-- The views of a graph with no more transactions than an index can tell apart are views of the
same associations. Dependencies contain the transactions that their graphs list, which they list in
order, the latest of them last. -/
theorem views_agree {α : Type} [Ord α] [TransOrd α] [LawfulEqOrd α] (g : Graph α)
    (hg : g.WellFormed) (hsize : g.txnIds.length ≤ 2 ^ 32) :
    g.Coherent ∧ ∀ d : Deps, d.WellFormed →
      (∀ txn, d.contains txn = true ↔ txn ∈ d.txnIds) ∧ Ascending d.txnIds ∧
        d.maxTxn? = d.txnIds.getLast? :=
  ⟨hg.coherent hsize, fun d hd =>
    ⟨fun _ => hd.contains_iff, d.ascending_txnIds, hd.maxTxn?_eq_getLast?⟩⟩

/-- A graph in which one key has no transaction, and one transaction no key. -/
theorem views_agree_idle :
    let key := RoutingKey.token (.ofNat 7)
    let txn (clock : UInt64) : TxnId := ⟨1, clock, 0, 1⟩
    let g : KeyDeps :=
      ⟨.ofList [key 1, key 3, key 5], [txn 10, txn 20, txn 30], [5, 5, 6, 0, 2, 0]⟩
    g.WellFormed ∧ g.txnIds.length ≤ 2 ^ 32 ∧
      g.fetchByTxn = .ok [(txn 10, [key 1, key 5]), (txn 20, []), (txn 30, [key 1])] ∧
      g.fetchKeysOf (txn 10) = .ok [key 1, key 5] ∧ g.pairs.length = 3 ∧
      sampleDeps.txnIds.getLast? = some (txn 40) := by
  intro key txn g
  have hg : g.WellFormed := (Graph.ofOrderedParts_eq_ok_iff.1 rfl).1
  have hsize : g.txnIds.length ≤ 2 ^ 32 := by decide
  obtain ⟨hviews, hdeps⟩ := views_agree g hg hsize
  refine ⟨hg, hsize, ?_, ?_, ?_, ?_⟩
  · rw [hviews.accessible.byTxn]
    exact congrArg Except.ok (by decide)
  · rw [hviews.accessible.keysOf]
    exact congrArg Except.ok (by decide)
  · rw [hviews.length_pairs]
    rfl
  · rw [← (hdeps sampleDeps sampleDeps_wellFormed).2.2]
    decide

end Deps

end TxnDeps
