import TxnDeps.Graph.Basic
import TxnDeps.Halt

namespace TxnDeps

/-- A walk over arrays, which ends in its value or in a trap: a place that the arrays do not have is
not left out. -/
abbrev Access (α : Type) := Except (Halt Empty) α

/-- Arrays that are not known to be those of a graph, in whatever order and shape. -/
structure RawGraph (α : Type) where
  keys : List α
  txnIds : List TxnId
  links : List UInt32

namespace RawGraph

variable {α : Type}

def ofParts (keys : List α) (txnIds : List TxnId) (links : List UInt32) :
    Except (Halt GraphDefect) (RawGraph α) :=
  match Links.checkShape keys.length txnIds.length links with
  | .ok () => .ok ⟨keys, txnIds, links⟩
  | .error halt => .error halt

def fetchKey (raw : RawGraph α) (i : Nat) : Access α := Halt.expect .index raw.keys[i]?

def fetchTxnId (raw : RawGraph α) (i : Nat) : Access TxnId := Halt.expect .index raw.txnIds[i]?

def fetchLink (raw : RawGraph α) (i : Nat) : Access UInt32 := Halt.expect .index raw.links[i]?

def fetchSize (raw : RawGraph α) : Access Nat := Halt.minus raw.links.length raw.keys.length

def fetchStart (raw : RawGraph α) (i : Nat) : Access Nat :=
  if i = 0 then pure raw.keys.length else UInt32.toNat <$> raw.fetchLink (i - 1)

def fetchRun (raw : RawGraph α) (i : Nat) : Access (List UInt32) := do
  let start ← raw.fetchStart i
  let stop ← raw.fetchLink i
  Halt.expect .slice (Links.slice? raw.links start stop.toNat)

def fetchTxn (raw : RawGraph α) (index : UInt32) : Access TxnId := raw.fetchTxnId index.toNat

def fetchTxnsAt (raw : RawGraph α) (i : Nat) : Access (List TxnId) := do
  let run ← raw.fetchRun i
  run.mapM raw.fetchTxn

def fetchTxnsOf [Ord α] (raw : RawGraph α) (key : α) : Access (List TxnId) :=
  match bisect? raw.keys key with
  | some i => raw.fetchTxnsAt i
  | none => pure []

def fetchEntries (raw : RawGraph α) : Access (List (α × List TxnId)) :=
  raw.keys.zipIdx.mapM fun (key, i) => (key, ·) <$> raw.fetchTxnsAt i

def fetchPairs (raw : RawGraph α) : Access (List (Association α)) := do
  let entries ← raw.fetchEntries
  pure (entries.flatMap fun (key, txns) => txns.map fun txn => ⟨key, txn⟩)

/-- Puts the key behind those that were found for the transaction at the index. -/
def fileUnder (key : α) (found : List (List α)) (index : UInt32) : Access (List (List α)) := do
  let keys ← Halt.expect .index found[index.toNat]?
  pure (found.set index.toNat (keys ++ [key]))

def fetchByTxn (raw : RawGraph α) : Access (List (TxnId × List α)) := do
  let unnamed := raw.txnIds.map fun _ => []
  let found ← raw.keys.zipIdx.foldlM (fun found (key, i) => do
    let run ← raw.fetchRun i
    run.foldlM (fileUnder key) found) unnamed
  pure (raw.txnIds.zip found)

def fetchKeysOf (raw : RawGraph α) (txn : TxnId) : Access (List α) :=
  match bisect? raw.txnIds txn with
  | none => pure []
  | some index => do
    let named ← raw.keys.zipIdx.filterM fun (_, i) => do
      let run ← raw.fetchRun i
      pure (bisect? run (UInt32.ofNat index)).isSome
    pure (named.map (·.1))

end RawGraph

end TxnDeps
