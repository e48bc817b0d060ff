import TxnDeps.Graph.Raw

namespace TxnDeps.Graph

variable {α : Type} [Ord α]

/-- The arrays of a graph. Its keys are in order by its type, and the walks do not look at the
order. -/
def raw (g : Graph α) : RawGraph α := ⟨g.keys.toList, g.txnIds, g.links⟩

@[simp]
theorem keys_raw (g : Graph α) : g.raw.keys = g.keys.toList := rfl

@[simp]
theorem txnIds_raw (g : Graph α) : g.raw.txnIds = g.txnIds := rfl

@[simp]
theorem links_raw (g : Graph α) : g.raw.links = g.links := rfl

def fetchRun (g : Graph α) (i : Nat) : Access (List UInt32) := g.raw.fetchRun i

def fetchTxn (g : Graph α) (index : UInt32) : Access TxnId := g.raw.fetchTxn index

def fetchTxnsAt (g : Graph α) (i : Nat) : Access (List TxnId) := g.raw.fetchTxnsAt i

def fetchTxnsOf (g : Graph α) (key : α) : Access (List TxnId) := g.raw.fetchTxnsOf key

def fetchEntries (g : Graph α) : Access (List (α × List TxnId)) := g.raw.fetchEntries

def fetchPairs (g : Graph α) : Access (List (Association α)) := g.raw.fetchPairs

def fetchByTxn (g : Graph α) : Access (List (TxnId × List α)) := g.raw.fetchByTxn

def fetchKeysOf (g : Graph α) (txn : TxnId) : Access (List α) := g.raw.fetchKeysOf txn

end TxnDeps.Graph
