import Mathlib.Algebra.GroupWithZero.Nat
import TxnDeps.Proofs.Graph.Access
import TxnDeps.Proofs.Graph.Unique

namespace TxnDeps

open Std (TransOrd LawfulEqOrd)

variable {α : Type} [Ord α]

namespace Graph

variable {g : Graph α} {runs : List (List UInt32)}

theorem HasRuns.runs_eq (h : g.HasRuns runs) : g.runs = g.keys.toList.zip runs := by
  have hlen : g.keys.toList.length = runs.length := h.length.symm
  apply List.ext_getElem
  · simp [Graph.runs, hlen]
  · intro i hi hi'
    have hrun : i < runs.length := by simpa [Graph.runs, hlen] using hi
    simp [Graph.runs, h.run?_eq_some hrun]

theorem HasRuns.map_fst_runs (h : g.HasRuns runs) : g.runs.map (·.1) = g.keys.toList := by
  rw [h.runs_eq]
  exact List.map_fst_zip (Nat.le_of_eq h.length.symm)

theorem HasRuns.mem_pairs_iff_exists_index (h : g.HasRuns runs) {key : α} {txn : TxnId} :
    ⟨key, txn⟩ ∈ g.pairs ↔ ∃ run, (key, run) ∈ g.runs ∧ ∃ i ∈ run, g.txnAt i = txn := by
  have hentries : g.entries = g.runs.map fun entry => (entry.1, entry.2.map g.txnAt) := by
    rw [h.entries_eq, h.runs_eq, List.zip_map_right]
    rfl
  rw [mem_pairs_iff, hentries]
  constructor
  · rintro ⟨txns, hentry, htxn⟩
    obtain ⟨⟨_, run⟩, hrun, he⟩ := List.mem_map.1 hentry
    cases he
    exact ⟨run, hrun, List.mem_map.1 htxn⟩
  · rintro ⟨run, hrun, hindex⟩
    exact ⟨_, List.mem_map_of_mem hrun, List.mem_map.2 hindex⟩

/-- The transaction at a place has the keys whose runs have the place. -/
theorem HasRuns.mem_pairs_iff_exists_place (h : g.HasRuns runs) (htxns : Ascending g.txnIds)
    {key : α} {txn : TxnId} {place : Nat} (hplace : g.txnIds[place]? = some txn) :
    ⟨key, txn⟩ ∈ g.pairs ↔ ∃ run, (key, run) ∈ g.runs ∧ ∃ i ∈ run, i.toNat = place := by
  have hat : ∀ {run}, (key, run) ∈ g.runs → ∀ i ∈ run, (g.txnAt i = txn ↔ i.toNat = place) := by
    intro run hrun i hi
    rw [h.runs_eq] at hrun
    have hget := getElem?_eq_txnAt (h.indexes run (List.of_mem_zip hrun).2 i hi)
    constructor
    · rintro rfl
      exact (List.getElem?_inj (List.getElem?_eq_some_iff.1 hget).1 htxns.nodup).1
        (hget.trans hplace.symm)
    · rintro rfl
      exact Option.some.inj (hget.symm.trans hplace)
  rw [h.mem_pairs_iff_exists_index]
  exact exists_congr fun run => and_congr_right fun hrun => exists_congr fun i =>
    and_congr_right fun hi => hat hrun i hi

omit [Ord α] in
theorem mem_keysNaming_iff {place : Nat} {runs : List (α × List UInt32)} {key : α} :
    key ∈ keysNaming place runs ↔ ∃ run, (key, run) ∈ runs ∧ ∃ i ∈ run, i.toNat = place := by
  rw [keysNaming, List.mem_flatMap]
  constructor
  · rintro ⟨⟨_, run⟩, hrun, hkey⟩
    obtain ⟨i, hi, rfl⟩ := List.mem_map.1 hkey
    obtain ⟨himem, hplace⟩ := List.mem_filter.1 hi
    exact ⟨run, hrun, i, himem, beq_iff_eq.1 hplace⟩
  · rintro ⟨run, hrun, i, hi, hplace⟩
    refine ⟨(key, run), hrun, List.mem_map.2 ⟨i, ?_, rfl⟩⟩
    exact List.mem_filter.2 ⟨hi, beq_iff_eq.2 hplace⟩

omit [Ord α] in
/-- A run that is in order names a place once or not at all, and a search of the run tells which. -/
theorem map_filter_place {run : List UInt32} (hrun : Ascending run) {place : Nat}
    (hplace : place < 2 ^ 32) (key : α) :
    (run.filter (·.toNat == place)).map (fun _ => key) =
      if (bisect? run (UInt32.ofNat place)).isSome then [key] else [] := by
  have htoNat : (UInt32.ofNat place).toNat = place := UInt32.toNat_ofNat_of_lt' hplace
  have hsame : (fun i : UInt32 => i.toNat == place) = (· == UInt32.ofNat place) := by
    funext i
    rw [Bool.eq_iff_iff, beq_iff_eq, beq_iff_eq, ← UInt32.toNat_inj, htoNat]
  rw [hsame, List.filter_beq, List.map_replicate, hrun.nodup.count]
  simp only [isSome_bisect?_iff hrun]
  split <;> rfl

omit [Ord α] in
theorem keysNaming_eq_filter {runs : List (α × List UInt32)}
    (hruns : ∀ entry ∈ runs, Ascending entry.2) {place : Nat} (hplace : place < 2 ^ 32) :
    keysNaming place runs =
      (runs.filter fun (_, run) => (bisect? run (UInt32.ofNat place)).isSome).map (·.1) := by
  induction runs with
  | nil => rfl
  | cons entry runs ih =>
    obtain ⟨hrun, hrest⟩ := List.forall_mem_cons.1 hruns
    rw [keysNaming, List.flatMap_cons, ← keysNaming, ih hrest, List.filter_cons]
    dsimp only
    rw [map_filter_place hrun hplace]
    split <;> rfl

namespace WellFormed

theorem ascending_of_mem_runs (h : g.WellFormed) {entry : α × List UInt32}
    (hentry : entry ∈ g.runs) : Ascending entry.2 := by
  obtain ⟨runs, hruns, horder⟩ := h.runs
  rw [hruns.runs_eq] at hentry
  exact horder _ (List.of_mem_zip hentry).2

theorem keysOf_eq_keysNaming (h : g.WellFormed) (hsize : g.txnIds.length ≤ 2 ^ 32) {txn : TxnId}
    {place : Nat} (hplace : g.txnIds[place]? = some txn) :
    g.keysOf txn = keysNaming place g.runs := by
  have hlt : place < g.txnIds.length := (List.getElem?_eq_some_iff.1 hplace).1
  rw [keysOf, (bisect?_eq_some_iff h.txns).2 hplace,
    keysNaming_eq_filter (fun _ => h.ascending_of_mem_runs) (by omega)]

theorem byTxn_eq_map_keysOf (h : g.WellFormed) (hsize : g.txnIds.length ≤ 2 ^ 32) :
    g.byTxn = g.txnIds.map fun txn => (txn, g.keysOf txn) := by
  apply List.ext_getElem
  · simp [byTxn]
  · intro place hplace hplace'
    rw [List.length_map] at hplace'
    have hget := List.getElem?_eq_getElem hplace'
    rw [List.getElem_map, h.keysOf_eq_keysNaming hsize hget]
    simp [byTxn, keysNaming]

theorem mem_keysOf_iff (h : g.WellFormed) (hsize : g.txnIds.length ≤ 2 ^ 32) {key : α}
    {txn : TxnId} : key ∈ g.keysOf txn ↔ ⟨key, txn⟩ ∈ g.pairs := by
  obtain ⟨runs, hruns, -⟩ := h.runs
  by_cases htxn : txn ∈ g.txnIds
  · obtain ⟨place, hplace⟩ := List.mem_iff_getElem?.1 htxn
    rw [h.keysOf_eq_keysNaming hsize hplace, mem_keysNaming_iff,
      hruns.mem_pairs_iff_exists_place h.txns hplace]
  · have hnone : bisect? g.txnIds txn = none := by
      rw [← Option.not_isSome_iff_eq_none, isSome_bisect?_iff h.txns]
      exact htxn
    rw [keysOf, hnone]
    exact iff_of_false List.not_mem_nil fun hmem => htxn (h.mem_txnIds_of_names ⟨key, hmem⟩)

theorem ascending_keysOf (h : g.WellFormed) (txn : TxnId) : Ascending (g.keysOf txn) := by
  obtain ⟨runs, hruns, -⟩ := h.runs
  rw [keysOf]
  split
  · exact List.Pairwise.nil
  · refine List.Pairwise.sublist ?_ g.keys.ascending
    rw [← hruns.map_fst_runs]
    exact List.filter_sublist.map _

theorem mem_byTxn_iff (h : g.WellFormed) (hsize : g.txnIds.length ≤ 2 ^ 32) {key : α}
    {txn : TxnId} :
    (∃ keys, (txn, keys) ∈ g.byTxn ∧ key ∈ keys) ↔ ⟨key, txn⟩ ∈ g.pairs := by
  rw [h.byTxn_eq_map_keysOf hsize]
  constructor
  · rintro ⟨keys, hentry, hkey⟩
    obtain ⟨_, -, he⟩ := List.mem_map.1 hentry
    cases he
    exact (h.mem_keysOf_iff hsize).1 hkey
  · intro hmem
    have htxn : txn ∈ g.txnIds := h.mem_txnIds_of_names ⟨key, hmem⟩
    exact ⟨_, List.mem_map_of_mem htxn, (h.mem_keysOf_iff hsize).2 hmem⟩

theorem ascending_pairs (h : g.WellFormed) [LawfulEqOrd α] : Ascending g.pairs := by
  obtain ⟨runs, hruns, horder⟩ := h.runs
  have hkeys : (g.entries.map (·.1)).Pairwise (compare · · = .lt) := by
    rw [hruns.entries_eq, List.map_fst_zip]
    · exact g.keys.ascending
    · rw [List.length_map]
      exact Nat.le_of_eq hruns.length.symm
  have htxns : ∀ entry ∈ g.entries, Ascending entry.2 := by
    rintro ⟨key, txns⟩ hentry
    rw [hruns.entries_eq] at hentry
    obtain ⟨run, hrun, rfl⟩ := List.mem_map.1 (List.of_mem_zip hentry).2
    exact (ascending_map_txnAt_iff h.txns (hruns.indexes run hrun)).2 (horder run hrun)
  exact Association.ascending_flatMap Prod.fst Prod.snd (List.pairwise_map.1 hkeys) htxns

/-- The runs are found at the places of the keys, and their lengths are what the links have left
for them. -/
theorem exists_runs (h : g.WellFormed) :
    ∃ runs, (List.range g.keys.size).mapM g.fetchRun = .ok runs ∧
      (runs.map List.length).sum = g.size ∧ g.keys.size + g.size = g.links.length := by
  obtain ⟨runs, hruns, -⟩ := h.runs
  have hfetch : (List.range g.keys.size).mapM g.fetchRun =
      .ok ((List.range g.keys.size).map fun i => (g.run? i).getD []) := by
    apply Halt.mapM_eq_ok
    intro i hi
    obtain ⟨run, hrun, he, -⟩ := h.exists_fetchRun (List.mem_range.1 hi)
    rw [hrun, he, Option.getD_some]
  have hall : ((List.range g.keys.size).map fun i => (g.run? i).getD []) = runs := by
    apply List.ext_getElem
    · simp [hruns.length]
    · intro i hi hi'
      simp [hruns.run?_eq_some hi']
  have hlen := hruns.holds.length
  have hkeys := hruns.length
  refine ⟨runs, hall ▸ hfetch, ?_, ?_⟩
  · rw [← List.length_flatten, size]
    omega
  · rw [size]
    omega

theorem length_pairs (h : g.WellFormed) : g.pairs.length = g.size := by
  obtain ⟨runs, hruns, -⟩ := h.runs
  have hlen := hruns.holds.length
  have hkeys := hruns.length
  rw [hruns.length_pairs, size]
  omega

end WellFormed

/-- Every walk over the arrays answers, and what they answer are views of the same associations: by
key, as a list of all, by transaction, and for one transaction. -/
structure Coherent [TransOrd α] [LawfulEqOrd α] (g : Graph α) : Prop where
  fetchTxnsOf : ∀ key, g.fetchTxnsOf key = .ok (g.txnsOf key)
  accessible : g.Accessible
  mem_txnsOf : ∀ key txn, txn ∈ g.txnsOf key ↔ ⟨key, txn⟩ ∈ g.pairs
  mem_keysOf : ∀ key txn, key ∈ g.keysOf txn ↔ ⟨key, txn⟩ ∈ g.pairs
  mem_byTxn : ∀ key txn, (∃ keys, (txn, keys) ∈ g.byTxn ∧ key ∈ keys) ↔ ⟨key, txn⟩ ∈ g.pairs
  byTxn_eq : g.byTxn = g.txnIds.map fun txn => (txn, g.keysOf txn)
  ascending_pairs : Ascending g.pairs
  ascending_txnsOf : ∀ key, Ascending (g.txnsOf key)
  ascending_keysOf : ∀ txn, Ascending (g.keysOf txn)
  ascending_byTxn : ∀ entry ∈ g.byTxn, Ascending entry.2
  exists_runs : ∃ runs, (List.range g.keys.size).mapM g.fetchRun = .ok runs ∧
    (runs.map List.length).sum = g.size ∧ g.keys.size + g.size = g.links.length
  length_pairs : g.pairs.length = g.size

theorem WellFormed.coherent [TransOrd α] [LawfulEqOrd α] (h : g.WellFormed)
    (hsize : g.txnIds.length ≤ 2 ^ 32) : g.Coherent where
  fetchTxnsOf := h.fetchTxnsOf_eq_ok
  accessible := h.accessible
  mem_txnsOf _ _ := mem_txnsOf_iff
  mem_keysOf _ _ := h.mem_keysOf_iff hsize
  mem_byTxn _ _ := h.mem_byTxn_iff hsize
  byTxn_eq := h.byTxn_eq_map_keysOf hsize
  ascending_pairs := h.ascending_pairs
  ascending_txnsOf := h.ascending_txnsOf
  ascending_keysOf := h.ascending_keysOf
  ascending_byTxn entry hentry := by
    rw [h.byTxn_eq_map_keysOf hsize] at hentry
    obtain ⟨txn, -, rfl⟩ := List.mem_map.1 hentry
    exact h.ascending_keysOf txn
  exists_runs := h.exists_runs
  length_pairs := h.length_pairs

end Graph

end TxnDeps
