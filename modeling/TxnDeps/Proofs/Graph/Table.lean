import Mathlib.Data.List.Nodup
import TxnDeps.Graph.Table
import TxnDeps.Proofs.Graph.Canonical

namespace TxnDeps

open Std (TransOrd LawfulEqOrd)

variable {α : Type} [Ord α] {t : GraphTable α} {a : Association α}

namespace GraphTable

theorem eq_of_mem_rows [TransOrd α] [LawfulEqOrd α] {row row' : α × SortedList TxnId}
    (h : row ∈ t.rows) (h' : row' ∈ t.rows) (hkey : row.1 = row'.1) : row = row' :=
  List.inj_on_of_nodup_map t.ascending.nodup h h' hkey

variable [LawfulEqOrd α]

theorem ascending_pairs (t : GraphTable α) : Ascending t.pairs :=
  Association.ascending_flatMap (fun row : α × SortedList TxnId => row.1) (fun row => row.2.toList)
    (List.pairwise_map.1 t.ascending) fun row _ => row.2.ascending

/-- The set of associations that the rows stand for. -/
def recorded (t : GraphTable α) : GraphBuilder α := ⟨t.pairs, t.ascending_pairs⟩

theorem mem_recorded : a ∈ t.recorded ↔ ∃ row ∈ t.rows, row.1 = a.key ∧ a.txn ∈ row.2 :=
  Association.mem_flatMap

variable [TransOrd α]

/-- The keys that are counted are those with an association, since no row is empty. -/
theorem keys_recorded (t : GraphTable α) : t.recorded.keys = t.keys := by
  apply SortedList.ext_mem
  intro key
  have hkeys : key ∈ t.keys ↔ ∃ row ∈ t.rows, row.1 = key := List.mem_map
  simp only [GraphBuilder.mem_keys, mem_recorded, hkeys]
  constructor
  · rintro ⟨_, row, hrow, hkey, -⟩
    exact ⟨row, hrow, hkey⟩
  · rintro ⟨row, hrow, hkey⟩
    obtain ⟨txn, hmem⟩ := List.exists_mem_of_ne_nil _ (t.filled row hrow)
    exact ⟨txn, row, hrow, hkey, hmem⟩

theorem keyCount_eq (t : GraphTable α) : t.keyCount = t.recorded.keys.size := by
  rw [keys_recorded]
  exact (List.length_map _).symm

omit [TransOrd α] [LawfulEqOrd α] in
theorem txnIds_recorded [LawfulEqOrd α] (t : GraphTable α) : t.recorded.txnIds = t.txnIds := by
  apply SortedList.ofList_eq_of_mem_iff
  intro txn
  simp [recorded, pairs, List.map_flatMap]

theorem txnsOf_recorded {row : α × SortedList TxnId} (h : row ∈ t.rows) :
    t.recorded.txnsOf row.1 = row.2.toList := by
  apply (GraphBuilder.ascending_txnsOf row.1).eq_of_mem_iff row.2.ascending
  intro txn
  rw [GraphBuilder.mem_txnsOf, mem_recorded]
  constructor
  · rintro ⟨row', hrow', hkey, hmem⟩
    rwa [eq_of_mem_rows hrow' h hkey] at hmem
  · intro hmem
    exact ⟨row, h, rfl, hmem⟩

theorem runs_recorded (t : GraphTable α) :
    t.recorded.runs = t.rows.map fun row => row.2.toList.map t.recorded.indexOf := by
  have hkeys : t.recorded.keys.toList = t.rows.map Prod.fst := by
    rw [keys_recorded]
    rfl
  rw [GraphBuilder.runs, hkeys, List.map_map]
  exact List.map_congr_left fun row hrow =>
    congrArg (List.map t.recorded.indexOf) (txnsOf_recorded hrow)

omit [TransOrd α] in
theorem mem_upsertRow {key : α} {txns : List TxnId} {rows : List (α × SortedList TxnId)} :
    (∃ row ∈ upsertRow key txns rows, row.1 = a.key ∧ a.txn ∈ row.2) ↔
      (key = a.key ∧ a.txn ∈ txns) ∨ ∃ row ∈ rows, row.1 = a.key ∧ a.txn ∈ row.2 := by
  have hnew : a.txn ∈ SortedList.empty.insertAll txns ↔ a.txn ∈ txns :=
    SortedList.mem_insertAll.trans (or_iff_left List.not_mem_nil)
  -- The walk stops in front of the first row with a greater key, which no later row can share.
  induction rows with
  | nil => simp [upsertRow, hnew]
  | cons row rows ih =>
    rw [upsertRow]
    cases hkey : compare key row.1 with
    | lt => simp only [List.exists_mem_cons_iff, hnew]
    | eq =>
      simp only [List.exists_mem_cons_iff, SortedList.mem_insertAll,
        ← LawfulEqOrd.eq_of_compare hkey, and_or_left, or_assoc]
    | gt =>
      simp only [List.exists_mem_cons_iff, ih]
      exact or_left_comm

theorem mem_recorded_record {key : α} {txns : List TxnId} (h : txns ≠ []) :
    a ∈ (t.record key txns h).recorded ↔ (key = a.key ∧ a.txn ∈ txns) ∨ a ∈ t.recorded := by
  rw [mem_recorded, mem_recorded]
  exact mem_upsertRow

theorem mem_recorded_add {key : α} {txn : TxnId} :
    a ∈ (t.add key txn).recorded ↔ a = ⟨key, txn⟩ ∨ a ∈ t.recorded := by
  obtain ⟨k, x⟩ := a
  rw [add, mem_recorded_record, List.mem_singleton, Association.mk.injEq, eq_comm (a := key)]

theorem mem_recorded_addAll {key : α} {txns : List TxnId} :
    a ∈ (t.addAll key txns).recorded ↔ (key = a.key ∧ a.txn ∈ txns) ∨ a ∈ t.recorded := by
  rw [addAll]
  split
  · next h => simp [h]
  · exact mem_recorded_record _

theorem recorded_ofPairs (pairs : List (Association α)) :
    (ofPairs pairs).recorded = .ofList pairs := by
  have hfold : ∀ t : GraphTable α, ∀ a,
      a ∈ (pairs.foldl (fun t a => t.add a.key a.txn) t).recorded ↔ a ∈ pairs ∨ a ∈ t.recorded := by
    induction pairs with
    | nil => simp
    | cons p pairs ih =>
      intro t a
      rw [List.foldl_cons, ih, mem_recorded_add, List.mem_cons, or_left_comm, or_assoc]
  refine SortedList.ext_mem fun a => ?_
  rw [ofPairs, hfold, SortedList.mem_ofList]
  exact or_iff_left List.not_mem_nil

theorem recorded_ofEntries (entries : List (α × List TxnId)) :
    (ofEntries entries).recorded =
      .ofList (entries.flatMap fun (key, txns) => txns.map fun txn => ⟨key, txn⟩) := by
  have hfold : ∀ t : GraphTable α, ∀ a,
      a ∈ (entries.foldl (fun t entry => t.addAll entry.1 entry.2) t).recorded ↔
        (∃ entry ∈ entries, entry.1 = a.key ∧ a.txn ∈ entry.2) ∨ a ∈ t.recorded := by
    induction entries with
    | nil => simp
    | cons entry entries ih =>
      intro t a
      rw [List.foldl_cons, ih, mem_recorded_addAll, List.exists_mem_cons_iff, or_left_comm,
        or_assoc]
  refine SortedList.ext_mem fun a => ?_
  rw [ofEntries, hfold, SortedList.mem_ofList]
  exact (or_iff_left List.not_mem_nil).trans Association.mem_flatMap.symm

end GraphTable

end TxnDeps
