import TxnDeps.Graph.Assembly
import TxnDeps.Proofs.Graph.Access
import TxnDeps.Proofs.Graph.Table

namespace TxnDeps

open Std (TransOrd LawfulEqOrd)

namespace Links

/-- The links once some of the runs are laid: their ends, blank places for the other ends, and the
runs. -/
def partly (count : Nat) (laid : List (List UInt32)) : List UInt32 :=
  runEnds count laid ++ List.replicate (count - laid.length) 0 ++ laid.flatten

theorem runEnds_concat (start : Nat) (runs : List (List UInt32)) (run : List UInt32) :
    runEnds start (runs ++ [run]) =
      runEnds start runs ++ [UInt32.ofNat (start + runs.flatten.length + run.length)] := by
  induction runs generalizing start with
  | nil => simp [runEnds]
  | cons first runs ih =>
    simp only [List.cons_append, runEnds, ih, List.flatten_cons, List.length_append]
    rw [Nat.add_assoc start]

theorem partly_nil (count : Nat) : partly count [] = List.replicate count 0 := by
  simp [partly, runEnds]

theorem partly_length (runs : List (List UInt32)) : partly runs.length runs = ofRuns runs := by
  simp [partly, ofRuns]

theorem length_partly {count : Nat} {laid : List (List UInt32)} (h : laid.length ≤ count) :
    (partly count laid).length = count + laid.flatten.length := by
  simp only [partly, List.length_append, length_runEnds, List.length_replicate]
  omega

theorem layRun_partly {count : Nat} {laid : List (List UInt32)} (h : laid.length < count)
    (run : List UInt32) :
    layRun (partly count laid) laid.length run = .ok (partly count (laid ++ [run])) := by
  have hlen : (partly count laid ++ run).length = count + laid.flatten.length + run.length := by
    rw [List.length_append, length_partly (Nat.le_of_lt h)]
  have hplace : laid.length < (partly count laid ++ run).length := by omega
  obtain ⟨blank, hblank⟩ : ∃ blank, count - laid.length = blank + 1 :=
    ⟨count - laid.length - 1, by omega⟩
  have hnext : count - (laid ++ [run]).length = blank := by
    rw [List.length_append, List.length_singleton]
    omega
  have hset : (partly count laid ++ run).set laid.length
      (UInt32.ofNat (count + laid.flatten.length + run.length)) =
        partly count (laid ++ [run]) := by
    rw [partly, partly, runEnds_concat, hblank, hnext, List.replicate_succ]
    simp
  rw [layRun, List.getElem?_eq_getElem hplace, hlen]
  exact congrArg Except.ok hset

end Links

variable {α : Type} [Ord α]

namespace GraphTable

variable [LawfulEqOrd α] {t : GraphTable α}

theorem fetchIndex_eq_ok {row : α × SortedList TxnId} (h : row ∈ t.rows) {txn : TxnId}
    (htxn : txn ∈ row.2.toList) : t.fetchIndex txn = .ok (t.recorded.indexOf txn) := by
  have hmem : txn ∈ t.txnIds.toList :=
    SortedList.mem_ofList.2 (List.mem_flatMap.2 ⟨row, h, htxn⟩)
  have hlt := List.idxOf_lt_length_of_mem hmem
  have hindex : t.txnIds.toList.idxOf? txn = some (t.txnIds.toList.idxOf txn) := by
    refine List.idxOf?_eq_some_iff.2 ⟨hlt, List.getElem_idxOf hlt, fun j hj he => ?_⟩
    have hfirst := t.txnIds.ascending.nodup.idxOf_getElem j (Nat.lt_trans hj hlt)
    rw [he] at hfirst
    omega
  rw [fetchIndex, hindex, GraphBuilder.indexOf, txnIds_recorded]
  rfl

theorem layRow_partly {count : Nat} {laid : List (List UInt32)} (h : laid.length < count)
    {row : α × SortedList TxnId} (hrow : row ∈ t.rows) :
    t.layRow (Links.partly count laid) (row, laid.length) =
      .ok (Links.partly count (laid ++ [row.2.toList.map t.recorded.indexOf])) := by
  have hrun : row.2.toList.mapM t.fetchIndex = .ok (row.2.toList.map t.recorded.indexOf) :=
    Halt.mapM_eq_ok fun txn htxn => fetchIndex_eq_ok hrow htxn
  rw [layRow, hrun]
  exact Links.layRun_partly h _

/-- The rows that are left take the places behind those whose runs are laid. -/
theorem foldlM_layRow {count : Nat} {rows : List (α × SortedList TxnId)}
    (hrows : ∀ row ∈ rows, row ∈ t.rows) (laid : List (List UInt32))
    (h : laid.length + rows.length ≤ count) :
    (rows.zipIdx laid.length).foldlM t.layRow (Links.partly count laid) =
      .ok (Links.partly count (laid ++ rows.map fun row =>
        row.2.toList.map t.recorded.indexOf)) := by
  -- As many runs are laid as rows were passed, so that the count of the one places the next.
  induction rows generalizing laid with
  | nil => simp [pure, Except.pure]
  | cons row rows ih =>
    obtain ⟨hrow, hrest⟩ := List.forall_mem_cons.1 hrows
    rw [List.length_cons] at h
    have hlast := ih hrest (laid ++ [row.2.toList.map t.recorded.indexOf]) (by simp; omega)
    rw [List.length_append, List.length_singleton, List.append_assoc, List.singleton_append]
      at hlast
    rw [List.zipIdx_cons, List.foldlM_cons, layRow_partly (by omega) hrow]
    exact hlast

/-- The arrays are filled without a trap, and make the graph of what is recorded. -/
theorem assemble_eq_ok [TransOrd α] (t : GraphTable α) : t.assemble = .ok t.recorded.build := by
  have hlinks : t.rows.zipIdx.foldlM t.layRow (List.replicate t.keyCount 0) =
      .ok (Links.ofRuns t.recorded.runs) := by
    have hlen : t.keyCount = t.recorded.runs.length := by
      rw [GraphBuilder.length_runs, keyCount_eq]
    rw [← Links.partly_nil, ← Links.partly_length, ← hlen, runs_recorded]
    exact foldlM_layRow (fun _ hrow => hrow) [] (Nat.le_of_eq (Nat.zero_add _))
  rw [assemble, hlinks, ← keys_recorded, ← txnIds_recorded]
  rfl

end GraphTable

namespace Graph

theorem WellFormed.fetchEntryOf_eq_ok {g : Graph α} (h : g.WellFormed) (keep : α → Bool) {key : α}
    {i : Nat} (hkey : (key, i) ∈ g.keys.toList.zipIdx) :
    g.fetchEntryOf keep (key, i) =
      .ok (if keep key then some (key, (g.txnsAt? i).getD []) else none) := by
  obtain ⟨run, hfetch, hrun, hindexes⟩ := h.exists_fetchRun (lt_size_of_mem_zipIdx hkey)
  have htxns : run.mapM g.fetchTxn = .ok (run.map g.txnAt) :=
    Halt.mapM_eq_ok fun index hindex => fetchTxn_eq_ok (hindexes index hindex)
  have hat : g.txnsAt? i = some (run.map g.txnAt) := by
    rw [txnsAt?, hrun]
    exact txnsOf?_eq_some hindexes
  rw [fetchEntryOf, hfetch, hat]
  cases hkeep : keep key with
  | true => simp [bind, Except.bind, pure, Except.pure, htxns]
  | false => rfl

theorem WellFormed.fetchEntriesOf_eq_ok {g : Graph α} (h : g.WellFormed) (keep : α → Bool) :
    g.fetchEntriesOf keep = .ok (g.entries.filter fun entry => keep entry.1) := by
  have hfound : g.keys.toList.zipIdx.mapM (g.fetchEntryOf keep) =
      .ok (g.keys.toList.zipIdx.map fun place =>
        if keep place.1 then some (place.1, (g.txnsAt? place.2).getD []) else none) :=
    Halt.mapM_eq_ok fun _ hkey => h.fetchEntryOf_eq_ok keep hkey
  rw [fetchEntriesOf, hfound, entries, ← List.filterMap_eq_filter, List.filterMap_map]
  change Except.ok _ = _
  rw [List.filterMap_map]
  rfl

variable [TransOrd α] [LawfulEqOrd α]

theorem assembleMerge_eq_ok {graphs : List (Graph α)} (h : ∀ g ∈ graphs, g.WellFormed) :
    assembleMerge graphs = .ok (merge graphs) := by
  have hpairs : graphs.mapM fetchPairs = .ok (graphs.map pairs) :=
    Halt.mapM_eq_ok fun g hg => (h g hg).fetchPairs_eq_ok
  rw [assembleMerge, hpairs, merge, List.flatMap_def, ofPairs, ← GraphTable.recorded_ofPairs]
  exact GraphTable.assemble_eq_ok _

theorem WellFormed.assembleKeys_eq_ok {g : Graph α} (h : g.WellFormed) (keep : α → Bool) :
    g.assembleKeys keep = .ok (g.filterKeys keep) := by
  let entries := g.entries.filter fun entry => keep entry.1
  have hpairs : (GraphTable.ofEntries entries).recorded =
      .ofList (g.pairs.filter fun a => keep a.key) := by
    rw [GraphTable.recorded_ofEntries]
    apply SortedList.ofList_eq_of_mem_iff
    intro a
    rw [Association.mem_flatMap, List.mem_filter, pairs, Association.mem_flatMap]
    constructor
    · rintro ⟨entry, hentry, hkey, hmem⟩
      obtain ⟨hentry, hkeep⟩ := List.mem_filter.1 hentry
      exact ⟨⟨entry, hentry, hkey, hmem⟩, hkey ▸ hkeep⟩
    · rintro ⟨⟨entry, hentry, hkey, hmem⟩, hkeep⟩
      exact ⟨entry, List.mem_filter.2 ⟨hentry, hkey.symm ▸ hkeep⟩, hkey, hmem⟩
  rw [assembleKeys, h.fetchEntriesOf_eq_ok, filterKeys, ofPairs, ← hpairs]
  exact GraphTable.assemble_eq_ok _

theorem WellFormed.assembleTxns_eq_ok {g : Graph α} (h : g.WellFormed) (keep : TxnId → Bool) :
    g.assembleTxns keep = .ok (g.filterTxns keep) := by
  rw [assembleTxns, h.fetchPairs_eq_ok, filterTxns, ofPairs, ← GraphTable.recorded_ofPairs]
  exact GraphTable.assemble_eq_ok _

end Graph

end TxnDeps
