import TxnDeps.Halt
import TxnDeps.Sorted
import TxnDeps.Txn

/-!
The array of links of a dependency graph. Its first entries are the places where the runs of the
keys end, counted from the start of the array; the runs follow, the first one right behind the
ends. A run lists indexes into the transactions of the graph.
-/

namespace TxnDeps

inductive GraphDefect where
  | tooShort (length keys : Nat)
  | runEnd (stop key previous length : Nat)
  | lastRun (stop length : Nat)
  | txnIndex (index txns : Nat)
  | txnOrder
  | runOrder (key : Nat)
  deriving DecidableEq

namespace GraphDefect

def detail : GraphDefect → String
  | tooShort length keys =>
    s!"keys_to_txn_ids has {length} entries, fewer than the {keys} keys it indexes"
  | runEnd stop key previous length =>
    s!"run offset {stop} for key {key} out of order or bounds " ++
      s!"(previous {previous}, length {length})"
  | lastRun stop length => s!"last run ends at {stop} but keys_to_txn_ids has {length} entries"
  | txnIndex index txns => s!"txn index {index} out of bounds for {txns} txn ids"
  | txnOrder => "txn ids are not strictly ascending"
  | runOrder key => s!"txn run of key {key} is not strictly ascending"

def message (d : GraphDefect) : String := "Data corruption: " ++ d.detail

end GraphDefect

namespace Links

/-- Walks the run ends, which may neither fall below the `previous` one nor pass the end of the
array, and answers the last of them. `key` counts the ends passed. -/
def lastEnd (length : Nat) : (key previous : Nat) → List UInt32 → Except (Halt GraphDefect) Nat
  | _, previous, [] => .ok previous
  | key, previous, stop :: rest =>
    if stop.toNat < previous ∨ length < stop.toNat then
      .error (.failed (.runEnd stop.toNat key previous length))
    else lastEnd length (key + 1) stop.toNat rest

def slice? (links : List UInt32) (start stop : Nat) : Option (List UInt32) :=
  if start ≤ stop ∧ stop ≤ links.length then some ((links.drop start).take (stop - start))
  else none

/-- Whether the runs lie end to end behind the run ends up to the end of the array, and hold
indexes below the number of transactions only. -/
def checkShape (keys txns : Nat) (links : List UInt32) : Except (Halt GraphDefect) Unit :=
  if links.length < keys then .error (.failed (.tooShort links.length keys))
  else do
    let ends ← Halt.expect .slice (slice? links 0 keys)
    let last ← lastEnd links.length 0 keys ends
    if last ≠ links.length then .error (.failed (.lastRun last links.length))
    else
      let indexes ← Halt.expect .slice (slice? links keys links.length)
      match indexes.find? (txns ≤ ·.toNat) with
      | some index => .error (.failed (.txnIndex index.toNat txns))
      | none => .ok ()

def run? (keys : Nat) (links : List UInt32) (i : Nat) : Option (List UInt32) :=
  let start := if i = 0 then some keys else links[i - 1]?.map (·.toNat)
  match start, links[i]? with
  | some start, some stop => slice? links start stop.toNat
  | _, _ => none

def checkRuns (keys : Nat) (links : List UInt32) : Except (Halt GraphDefect) Unit :=
  (List.range keys).forM fun i => do
    let run ← Halt.expect .slice (run? keys links i)
    if ascends run then pure () else .error (.failed (.runOrder i))

def checkOrder (keys : Nat) (txnIds : List TxnId) (links : List UInt32) :
    Except (Halt GraphDefect) Unit := do
  checkShape keys txnIds.length links
  if ascends txnIds then checkRuns keys links else .error (.failed .txnOrder)

def runEnds : (start : Nat) → List (List UInt32) → List UInt32
  | _, [] => []
  | start, run :: rest =>
    UInt32.ofNat (start + run.length) :: runEnds (start + run.length) rest

def ofRuns (runs : List (List UInt32)) : List UInt32 := runEnds runs.length runs ++ runs.flatten

end Links

end TxnDeps
