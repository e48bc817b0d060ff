import TxnDeps.Graph.Access
import TxnDeps.Proofs.Graph.WellFormed

namespace TxnDeps

namespace Graph

variable {α : Type} [Ord α] {g : Graph α}

theorem fetchStart_eq_ok_iff {i start : Nat} :
    g.raw.fetchStart i = .ok start ↔
      (if i = 0 then some g.keys.size else g.links[i - 1]?.map (·.toNat)) = some start := by
  rw [RawGraph.fetchStart]
  split
  · simp [pure, Except.pure, SortedList.size]
  · change Except.map _ _ = _ ↔ _
    simp only [RawGraph.fetchLink, Halt.map_eq_ok_iff, Halt.expect_eq_ok_iff,
      Option.map_eq_some_iff, links_raw]

theorem fetchRun_eq_ok_iff {i : Nat} {run : List UInt32} :
    g.fetchRun i = .ok run ↔ g.run? i = some run := by
  simp only [fetchRun, RawGraph.fetchRun, RawGraph.fetchLink, run?, Links.run?,
    Halt.bind_eq_ok_iff, fetchStart_eq_ok_iff, Halt.expect_eq_ok_iff, links_raw]
  constructor
  · rintro ⟨start, hs, stop, hstop, hrun⟩
    simp only [hs, hstop, hrun]
  · intro hrun
    split at hrun
    · next start stop hs hstop => exact ⟨start, hs, stop, hstop, hrun⟩
    · cases hrun

theorem HasRuns.fetchRun_eq_ok {runs : List (List UInt32)} (h : g.HasRuns runs) {i : Nat}
    (hi : i < runs.length) : g.fetchRun i = .ok runs[i] :=
  fetchRun_eq_ok_iff.2 (h.run?_eq_some hi)

theorem fetchTxn_eq_ok {index : UInt32} (h : index.toNat < g.txnIds.length) :
    g.fetchTxn index = .ok (g.txnAt index) :=
  Halt.expect_eq_ok_iff.2 (getElem?_eq_txnAt h)

theorem WellFormed.exists_fetchRun (h : g.WellFormed) {i : Nat} (hi : i < g.keys.size) :
    ∃ run, g.fetchRun i = .ok run ∧ g.run? i = some run ∧
      ∀ index ∈ run, index.toNat < g.txnIds.length := by
  obtain ⟨runs, hruns, -⟩ := h.runs
  have hi' : i < runs.length := hruns.length.symm ▸ hi
  exact ⟨runs[i], hruns.fetchRun_eq_ok hi', hruns.run?_eq_some hi',
    hruns.indexes _ (List.getElem_mem hi')⟩

theorem WellFormed.fetchTxnsAt_eq_ok (h : g.WellFormed) {i : Nat} (hi : i < g.keys.size) :
    g.fetchTxnsAt i = .ok ((g.txnsAt? i).getD []) := by
  obtain ⟨run, hfetch, hrun, hindexes⟩ := h.exists_fetchRun hi
  have htxns : g.txnsAt? i = some (run.map g.txnAt) := by
    rw [txnsAt?, hrun]
    exact txnsOf?_eq_some hindexes
  change (g.fetchRun i >>= fun run => run.mapM g.fetchTxn) = _
  rw [hfetch, htxns]
  exact Halt.mapM_eq_ok fun index hindex => fetchTxn_eq_ok (hindexes index hindex)

open Std (TransOrd LawfulEqOrd) in
theorem WellFormed.fetchTxnsOf_eq_ok [TransOrd α] [LawfulEqOrd α] (h : g.WellFormed) (key : α) :
    g.fetchTxnsOf key = .ok (g.txnsOf key) := by
  rw [fetchTxnsOf, RawGraph.fetchTxnsOf, txnsOf, SortedList.indexOf?, keys_raw]
  cases hi : bisect? g.keys.toList key with
  | none => rfl
  | some i =>
    have hkey := SortedList.indexOf?_eq_some_iff.1 hi
    exact h.fetchTxnsAt_eq_ok (List.getElem?_eq_some_iff.1 hkey).1

theorem lt_size_of_mem_zipIdx {key : α} {i : Nat} (h : (key, i) ∈ g.keys.toList.zipIdx) :
    i < g.keys.size := by
  simpa [SortedList.size] using (List.mem_zipIdx h).2.1

theorem WellFormed.fetchEntries_eq_ok (h : g.WellFormed) : g.fetchEntries = .ok g.entries := by
  apply Halt.mapM_eq_ok
  rintro ⟨key, i⟩ hkey
  change (key, ·) <$> g.fetchTxnsAt i = _
  rw [h.fetchTxnsAt_eq_ok (lt_size_of_mem_zipIdx hkey)]
  rfl

theorem WellFormed.fetchPairs_eq_ok (h : g.WellFormed) : g.fetchPairs = .ok g.pairs := by
  change (g.fetchEntries >>= fun entries => pure (entries.flatMap _)) = _
  rw [h.fetchEntries_eq_ok]
  rfl

theorem WellFormed.fetchKeysOf_eq_ok (h : g.WellFormed) (txn : TxnId) :
    g.fetchKeysOf txn = .ok (g.keysOf txn) := by
  rw [fetchKeysOf, RawGraph.fetchKeysOf, keysOf, txnIds_raw]
  cases bisect? g.txnIds txn with
  | none => rfl
  | some index =>
    let names (run : List UInt32) : Bool := (bisect? run (UInt32.ofNat index)).isSome
    have hnamed : (g.keys.toList.zipIdx.filterM fun entry => do
        let run ← g.fetchRun entry.2
        pure (names run) : Access (List (α × Nat))) =
        .ok (g.keys.toList.zipIdx.filter fun entry => names ((g.run? entry.2).getD [])) := by
      apply Halt.filterM_eq_ok
      rintro ⟨key, i⟩ hkey
      obtain ⟨run, hfetch, hrun, -⟩ := h.exists_fetchRun (lt_size_of_mem_zipIdx hkey)
      simp only [hfetch, hrun]
      rfl
    dsimp only
    change ((g.keys.toList.zipIdx.filterM fun entry => do
      let run ← g.fetchRun entry.2
      pure (names run)) >>= fun named => pure (named.map (·.1))) = _
    rw [hnamed, Graph.runs, List.filter_map, List.map_map]
    rfl

/-- The keys whose runs name the transaction at the place, as often as they do. -/
def keysNaming (index : Nat) (runs : List (α × List UInt32)) : List α :=
  runs.flatMap fun (key, run) => (run.filter (·.toNat == index)).map fun _ => key

omit [Ord α] in
theorem fileUnder_eq_ok {key : α} {found : List (List α)} {index : UInt32}
    (h : index.toNat < found.length) :
    RawGraph.fileUnder key found index =
      .ok (found.mapIdx fun k keys => keys ++ keysNaming k [(key, [index])]) := by
  rw [RawGraph.fileUnder, List.getElem?_eq_getElem h]
  change Except.ok (found.set index.toNat (found[index.toNat] ++ [key])) = _
  congr 1
  apply List.ext_getElem (by simp)
  intro k hk hk'
  rw [List.getElem_set, List.getElem_mapIdx]
  split
  · next he =>
    subst he
    simp [keysNaming]
  · next hne => simp [keysNaming, hne]

omit [Ord α] in
theorem keysNaming_append (index : Nat) (runs runs' : List (α × List UInt32)) :
    keysNaming index (runs ++ runs') = keysNaming index runs ++ keysNaming index runs' := by
  rw [keysNaming, List.flatMap_append]
  rfl

omit [Ord α] in
theorem foldlM_fileUnder (key : α) {found : List (List α)} {run : List UInt32}
    (h : ∀ index ∈ run, index.toNat < found.length) :
    run.foldlM (RawGraph.fileUnder key) found =
      .ok (found.mapIdx fun k keys => keys ++ keysNaming k [(key, run)]) := by
  induction run generalizing found with
  | nil => exact congrArg Except.ok (List.ext_getElem (by simp) (by simp [keysNaming]))
  | cons index run ih =>
    rw [List.foldlM_cons, fileUnder_eq_ok (h index List.mem_cons_self)]
    change run.foldlM (RawGraph.fileUnder key) _ = _
    rw [ih (by simpa using fun j hj => h j (List.mem_cons_of_mem index hj)), List.mapIdx_mapIdx]
    congr 2
    funext k keys
    simp only [Function.comp_apply, keysNaming, List.flatMap_singleton, List.append_assoc]
    rw [← List.map_append, ← List.filter_append, List.singleton_append]

theorem foldlM_runs (h : g.WellFormed) {places : List (α × Nat)}
    (hplaces : ∀ p ∈ places, p.2 < g.keys.size) {found : List (List α)}
    (hfound : found.length = g.txnIds.length) :
    (places.foldlM (fun found (key, i) => do
      let run ← g.fetchRun i
      run.foldlM (RawGraph.fileUnder key) found) found : Access (List (List α))) =
    .ok (found.mapIdx fun k keys =>
      keys ++ keysNaming k (places.map fun (key, i) => (key, (g.run? i).getD []))) := by
  induction places generalizing found with
  | nil => exact congrArg Except.ok (List.ext_getElem (by simp) (by simp [keysNaming]))
  | cons place places ih =>
    obtain ⟨key, i⟩ := place
    obtain ⟨hi, hrest⟩ := List.forall_mem_cons.1 hplaces
    obtain ⟨run, hfetch, hrun, hindexes⟩ := h.exists_fetchRun hi
    have hone := foldlM_fileUnder key (hfound ▸ hindexes)
    rw [List.foldlM_cons]
    simp only [hfetch]
    change (run.foldlM (RawGraph.fileUnder key) found >>= _) = _
    rw [hone]
    change List.foldlM _ _ places = _
    rw [ih hrest (by rw [List.length_mapIdx, hfound]), List.mapIdx_mapIdx]
    congr 2
    funext k keys
    rw [Function.comp_apply, List.append_assoc, ← keysNaming_append, List.map_cons, hrun]
    rfl

theorem WellFormed.fetchByTxn_eq_ok (h : g.WellFormed) : g.fetchByTxn = .ok g.byTxn := by
  have hplaces : ∀ p ∈ g.keys.toList.zipIdx, p.2 < g.keys.size := fun _ hp =>
    lt_size_of_mem_zipIdx hp
  have hunnamed : (g.txnIds.map fun _ => ([] : List α)).length = g.txnIds.length :=
    List.length_map _
  refine (congrArg (· >>= fun found => pure (g.txnIds.zip found))
    (foldlM_runs h hplaces hunnamed)).trans ?_
  change Except.ok _ = _
  congr 1
  apply List.ext_getElem (by simp [byTxn])
  intro k hk hk'
  simp [byTxn, keysNaming, Graph.runs]

/-- Every walk over the arrays of the graph answers, and answers the view it is for. -/
structure Accessible (g : Graph α) : Prop where
  txnsAt : ∀ i < g.keys.size, g.fetchTxnsAt i = .ok ((g.txnsAt? i).getD [])
  entries : g.fetchEntries = .ok g.entries
  pairs : g.fetchPairs = .ok g.pairs
  byTxn : g.fetchByTxn = .ok g.byTxn
  keysOf : ∀ txn, g.fetchKeysOf txn = .ok (g.keysOf txn)

theorem WellFormed.accessible (h : g.WellFormed) : g.Accessible where
  txnsAt _ hi := h.fetchTxnsAt_eq_ok hi
  entries := h.fetchEntries_eq_ok
  pairs := h.fetchPairs_eq_ok
  byTxn := h.fetchByTxn_eq_ok
  keysOf := h.fetchKeysOf_eq_ok

end Graph

end TxnDeps
