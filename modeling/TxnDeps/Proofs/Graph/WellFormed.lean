import TxnDeps.Graph.Basic
import TxnDeps.Proofs.Graph.Links
import TxnDeps.Proofs.Sorted.Bisect

namespace TxnDeps

open Std (TransOrd LawfulEqOrd)

variable {α : Type} [Ord α]

namespace Graph

/-- The links hold one run for each key, and each index is the place of a transaction. -/
structure HasRuns (g : Graph α) (runs : List (List UInt32)) : Prop where
  length : runs.length = g.keys.size
  holds : Links.Holds g.links runs
  indexes : ∀ run ∈ runs, ∀ i ∈ run, i.toNat < g.txnIds.length

/-- Transactions and runs are in order and the links have their shape. The keys are in order by
their type. -/
structure WellFormed (g : Graph α) : Prop where
  txns : Ascending g.txnIds
  runs : ∃ runs, g.HasRuns runs ∧ ∀ run ∈ runs, Ascending run

theorem WellFormed.empty : (Graph.empty : Graph α).WellFormed :=
  ⟨List.Pairwise.nil, [], ⟨rfl, ⟨rfl, rfl⟩, nofun⟩, nofun⟩

def txnAt (g : Graph α) (i : UInt32) : TxnId := g.txnIds[i.toNat]?.getD .none

theorem getElem?_eq_txnAt {g : Graph α} {i : UInt32} (h : i.toNat < g.txnIds.length) :
    g.txnIds[i.toNat]? = some (g.txnAt i) := by
  rw [txnAt, List.getElem?_eq_getElem h, Option.getD_some]

theorem txnsOf?_eq_some {g : Graph α} {run : List UInt32}
    (h : ∀ i ∈ run, i.toNat < g.txnIds.length) : g.txnsOf? run = some (run.map g.txnAt) := by
  induction run with
  | nil => rfl
  | cons i run ih =>
    have htail := ih fun j hj => h j (List.mem_cons_of_mem i hj)
    rw [txnsOf?] at htail ⊢
    rw [List.mapM_cons, getElem?_eq_txnAt (h i List.mem_cons_self), htail]
    rfl

theorem ascending_map_txnAt_iff {g : Graph α} (hg : Ascending g.txnIds) {run : List UInt32}
    (h : ∀ i ∈ run, i.toNat < g.txnIds.length) :
    Ascending (run.map g.txnAt) ↔ Ascending run := by
  rw [Ascending, Ascending, List.pairwise_map]
  refine List.Pairwise.iff_of_mem fun {i j} hi hj => ?_
  rw [hg.compare_lt_iff (getElem?_eq_txnAt (h i hi)) (getElem?_eq_txnAt (h j hj)),
    Std.compare_eq_lt, UInt32.lt_iff_toNat_lt]

namespace HasRuns

variable {g : Graph α} {runs : List (List UInt32)}

theorem run?_eq_some (h : g.HasRuns runs) {i : Nat} (hi : i < runs.length) :
    g.run? i = some runs[i] := by
  rw [run?, ← h.length]
  exact h.holds.run?_eq_some hi

theorem txnsAt?_eq_some (h : g.HasRuns runs) {i : Nat} (hi : i < runs.length) :
    g.txnsAt? i = some (runs[i].map g.txnAt) := by
  rw [txnsAt?, h.run?_eq_some hi]
  exact txnsOf?_eq_some (h.indexes _ (List.getElem_mem hi))

theorem unique {runs' : List (List UInt32)} (h : g.HasRuns runs) (h' : g.HasRuns runs') :
    runs = runs' := by
  apply List.ext_getElem (h.length.trans h'.length.symm)
  intro i hi hi'
  exact Option.some.inj ((h.run?_eq_some hi).symm.trans (h'.run?_eq_some hi'))

theorem wellFormed_iff (h : g.HasRuns runs) (htxns : Ascending g.txnIds) :
    g.WellFormed ↔ ∀ run ∈ runs, Ascending run := by
  constructor
  · rintro ⟨-, runs', hruns', horder⟩
    rw [h.unique hruns']
    exact horder
  · exact fun horder => ⟨htxns, runs, h, horder⟩

theorem entries_eq (h : g.HasRuns runs) :
    g.entries = g.keys.toList.zip (runs.map (·.map g.txnAt)) := by
  apply List.ext_getElem?
  intro i
  rw [entries, List.getElem?_map, List.getElem?_zipIdx]
  have hsize : g.keys.toList.length = runs.length := h.length.symm
  by_cases hi : i < runs.length
  · have hk : i < g.keys.toList.length := by omega
    have hz : i < (g.keys.toList.zip (runs.map (·.map g.txnAt))).length := by
      rw [List.length_zip, List.length_map]
      omega
    rw [List.getElem?_eq_getElem hk, List.getElem?_eq_getElem hz, List.getElem_zip,
      List.getElem_map]
    simp only [Option.map_some, Nat.zero_add, h.txnsAt?_eq_some hi, Option.getD_some]
  · rw [List.getElem?_eq_none (by omega), List.getElem?_eq_none (by simp; omega)]
    rfl

theorem checkShape_eq_ok (h : g.HasRuns runs) :
    Links.checkShape g.keys.size g.txnIds.length g.links = .ok () := by
  rw [← h.length]
  exact Links.checkShape_of_holds h.holds h.indexes

theorem size_keys_le (h : g.HasRuns runs) : g.keys.size ≤ g.links.length := by
  rw [← h.length]
  exact h.holds.length_runs_le

end HasRuns

theorem WellFormed.size_keys_le {g : Graph α} (h : g.WellFormed) :
    g.keys.size ≤ g.links.length := by
  obtain ⟨runs, hruns, -⟩ := h.runs
  exact hruns.size_keys_le

theorem ofParts_eq_ok {g : Graph α} {runs : List (List UInt32)} (h : g.HasRuns runs) :
    ofParts g.keys g.txnIds g.links = .ok g := by
  rw [ofParts, h.checkShape_eq_ok]

theorem safe_ofParts (keys : SortedList α) (txnIds : List TxnId) (links : List UInt32) :
    Halt.Safe (ofParts keys txnIds links) fun g =>
      g = ⟨keys, txnIds, links⟩ ∧ ∃ runs, g.HasRuns runs := by
  have hsafe := Links.safe_checkShape keys.size txnIds.length links
  rw [ofParts]
  cases hshape : Links.checkShape keys.size txnIds.length links with
  | error halt =>
    rw [hshape] at hsafe
    cases halt <;> exact hsafe
  | ok _ =>
    obtain ⟨runs, hlen, hholds, hindexes⟩ := hsafe.of_ok hshape
    exact ⟨rfl, runs, hlen, hholds, hindexes⟩

theorem HasRuns.checkRun_eq {g : Graph α} {runs : List (List UInt32)} (h : g.HasRuns runs) {i : Nat}
    (hi : i < runs.length) :
    (do
      let run ← Halt.expect .slice (Links.run? g.keys.size g.links i)
      if ascends run then pure () else Except.error (.failed (GraphDefect.runOrder i))) =
    if ascends runs[i] then Except.ok () else .error (.failed (.runOrder i)) := by
  have hrun : Links.run? g.keys.size g.links i = some runs[i] := h.run?_eq_some hi
  rw [hrun]
  rfl

theorem HasRuns.checkRuns_eq_ok_iff {g : Graph α} {runs : List (List UInt32)}
    (h : g.HasRuns runs) :
    Links.checkRuns g.keys.size g.links = .ok () ↔ ∀ run ∈ runs, Ascending run := by
  rw [Links.checkRuns, Halt.forM_eq_ok_iff]
  constructor
  · intro hok run hrun
    obtain ⟨i, hi, rfl⟩ := List.getElem_of_mem hrun
    have hcheck := hok i (List.mem_range.2 (h.length ▸ hi))
    rw [h.checkRun_eq hi] at hcheck
    split at hcheck
    · next hascends => exact ascends_eq_true_iff.1 hascends
    · cases hcheck
  · intro hruns i hi
    have hi' : i < runs.length := h.length.symm ▸ List.mem_range.1 hi
    rw [h.checkRun_eq hi', if_pos (ascends_eq_true_iff.2 (hruns _ (List.getElem_mem hi')))]

theorem HasRuns.safe_checkRuns {g : Graph α} {runs : List (List UInt32)} (h : g.HasRuns runs) :
    Halt.Safe (Links.checkRuns g.keys.size g.links) fun _ => ∀ run ∈ runs, Ascending run := by
  have hsafe : Halt.Safe (Links.checkRuns g.keys.size g.links) fun _ => True := by
    apply Halt.Safe.forM
    intro i hi
    rw [h.checkRun_eq (h.length.symm ▸ List.mem_range.1 hi)]
    split <;> exact trivial
  exact (hsafe.and_of_ok fun _ hok => h.checkRuns_eq_ok_iff.1 hok).mono fun _ hruns => hruns.2

theorem WellFormed.ofOrderedParts_eq_ok {g : Graph α} (h : g.WellFormed) :
    ofOrderedParts g.keys g.txnIds g.links = .ok g := by
  obtain ⟨runs, hg, hruns⟩ := h.runs
  have horder : Links.checkOrder g.keys.size g.txnIds g.links = .ok () := by
    rw [Links.checkOrder, hg.checkShape_eq_ok]
    change (if ascends g.txnIds = true then _ else _) = _
    rw [if_pos (ascends_eq_true_iff.2 h.txns), hg.checkRuns_eq_ok_iff.2 hruns]
  rw [ofOrderedParts, horder]

theorem safe_ofOrderedParts (keys : SortedList α) (txnIds : List TxnId) (links : List UInt32) :
    Halt.Safe (ofOrderedParts keys txnIds links) fun g =>
      g.WellFormed ∧ g = ⟨keys, txnIds, links⟩ := by
  have hsafe : Halt.Safe (Links.checkOrder keys.size txnIds links) fun _ =>
      (⟨keys, txnIds, links⟩ : Graph α).WellFormed := by
    apply (Links.safe_checkShape keys.size txnIds.length links).bind
    rintro _ ⟨runs, hlen, hholds, hindexes⟩
    have hruns : (⟨keys, txnIds, links⟩ : Graph α).HasRuns runs := ⟨hlen, hholds, hindexes⟩
    split
    · next htxns =>
      exact hruns.safe_checkRuns.mono fun _ hascending =>
        ⟨ascends_eq_true_iff.1 htxns, runs, hruns, hascending⟩
    · exact trivial
  rw [ofOrderedParts]
  cases horder : Links.checkOrder keys.size txnIds links with
  | error halt =>
    rw [horder] at hsafe
    cases halt <;> exact hsafe
  | ok _ => exact ⟨hsafe.of_ok horder, rfl⟩

/-- The check accepts the well-formed graphs and no others. -/
theorem ofOrderedParts_eq_ok_iff {keys : SortedList α} {txnIds : List TxnId} {links : List UInt32}
    {g : Graph α} :
    ofOrderedParts keys txnIds links = .ok g ↔
      (⟨keys, txnIds, links⟩ : Graph α).WellFormed ∧ g = ⟨keys, txnIds, links⟩ := by
  constructor
  · intro hok
    obtain ⟨hwell, rfl⟩ := (safe_ofOrderedParts keys txnIds links).of_ok hok
    exact ⟨hwell, rfl⟩
  · rintro ⟨hwell, rfl⟩
    exact hwell.ofOrderedParts_eq_ok

end Graph

end TxnDeps
