import TxnDeps.Graph.Access
import TxnDeps.Graph.Builder
import TxnDeps.Graph.Table

namespace TxnDeps

open Std (TransOrd LawfulEqOrd)

/-- Puts a run behind the links, and the place where they end then to the place `i` among them. -/
def Links.layRun (links : List UInt32) (i : Nat) (run : List UInt32) : Access (List UInt32) := do
  let longer := links ++ run
  let _ ← Halt.expect .index longer[i]?
  pure (longer.set i (UInt32.ofNat longer.length))

variable {α : Type} [Ord α]

namespace GraphTable

def fetchIndex (t : GraphTable α) (txn : TxnId) : Access UInt32 :=
  UInt32.ofNat <$> Halt.expect .index (t.txnIds.toList.idxOf? txn)

def layRow (t : GraphTable α) (links : List UInt32) :
    (α × SortedList TxnId) × Nat → Access (List UInt32)
  | ((_, txns), i) => do
    let run ← txns.toList.mapM t.fetchIndex
    Links.layRun links i run

/-- Fills the arrays of the graph of what is recorded. The links start with blank places for the
run ends, and the run of each key in turn goes behind them. -/
def assemble (t : GraphTable α) : Access (Graph α) := do
  let blank := List.replicate t.keyCount 0
  let links ← t.rows.zipIdx.foldlM t.layRow blank
  pure ⟨t.keys, t.txnIds.toList, links⟩

end GraphTable

namespace Graph

/-- The key at a place with its transactions, if `keep` picks it. Otherwise its run is found but not
read. -/
def fetchEntryOf (g : Graph α) (keep : α → Bool) : α × Nat → Access (Option (α × List TxnId))
  | (key, i) => do
    let run ← g.fetchRun i
    if keep key then
      let txns ← run.mapM g.fetchTxn
      pure (some (key, txns))
    else pure none

def fetchEntriesOf (g : Graph α) (keep : α → Bool) : Access (List (α × List TxnId)) := do
  let found ← g.keys.toList.zipIdx.mapM (g.fetchEntryOf keep)
  pure (found.filterMap id)

variable [TransOrd α] [LawfulEqOrd α]

def assembleMerge (graphs : List (Graph α)) : Access (Graph α) := do
  let pairs ← graphs.mapM fetchPairs
  (GraphTable.ofPairs pairs.flatten).assemble

def assembleKeys (g : Graph α) (keep : α → Bool) : Access (Graph α) := do
  let entries ← g.fetchEntriesOf keep
  (GraphTable.ofEntries entries).assemble

def assembleTxns (g : Graph α) (keep : TxnId → Bool) : Access (Graph α) := do
  let pairs ← g.fetchPairs
  (GraphTable.ofPairs (pairs.filter fun a => keep a.txn)).assemble

end Graph

end TxnDeps
