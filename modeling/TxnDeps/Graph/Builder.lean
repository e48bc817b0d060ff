import TxnDeps.Graph.Basic

namespace TxnDeps

open Std (TransOrd LawfulEqOrd)

variable {α : Type} [Ord α] [TransOrd α] [LawfulEqOrd α]

/-- The associations recorded so far. -/
abbrev GraphBuilder (α : Type) [Ord α] := SortedList (Association α)

namespace GraphBuilder

def add (b : GraphBuilder α) (key : α) (txn : TxnId) : GraphBuilder α := b.insert ⟨key, txn⟩

/-- A key without transactions leaves no trace. -/
def addAll (b : GraphBuilder α) (key : α) (txns : List TxnId) : GraphBuilder α :=
  txns.foldl (fun b txn => b.add key txn) b

def keys (b : GraphBuilder α) : SortedList α := .ofList (b.toList.map (·.key))

def txnIds (b : GraphBuilder α) : SortedList TxnId := .ofList (b.toList.map (·.txn))

def txnsOf (b : GraphBuilder α) (key : α) : List TxnId :=
  (b.toList.filter (compare ·.key key == .eq)).map (·.txn)

def build (b : GraphBuilder α) : Graph α :=
  let keys := b.keys
  let txnIds := b.txnIds.toList
  let run (key : α) := (b.txnsOf key).map fun txn => UInt32.ofNat (txnIds.idxOf txn)
  ⟨keys, txnIds, Links.ofRuns (keys.toList.map run)⟩

end GraphBuilder

namespace Graph

def ofPairs (pairs : List (Association α)) : Graph α :=
  GraphBuilder.build (SortedList.ofList pairs)

def merge (graphs : List (Graph α)) : Graph α := ofPairs (graphs.flatMap pairs)

def filterKeys (g : Graph α) (keep : α → Bool) : Graph α :=
  ofPairs (g.pairs.filter fun a => keep a.key)

def filterTxns (g : Graph α) (keep : TxnId → Bool) : Graph α :=
  ofPairs (g.pairs.filter fun a => keep a.txn)

end Graph

end TxnDeps
