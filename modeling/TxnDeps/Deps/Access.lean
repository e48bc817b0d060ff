import TxnDeps.Deps
import TxnDeps.Graph.Assembly

namespace TxnDeps

/-- The transactions of all ranges that contain the key. The runs of the other ranges are found as
well, but not read. -/
def RangeDeps.fetchTxnsContaining (g : RangeDeps) (k : RoutingKey) : Access (List TxnId) := do
  let entries ← g.fetchEntriesOf (·.contains k)
  pure (sortDistinct (entries.flatMap (·.2)))

namespace Deps

def fetchTxnsFor (d : Deps) (k : RoutingKey) : Access (List TxnId) := do
  let onKey ← d.byKey.fetchTxnsOf k
  let direct ← d.direct.fetchTxnsOf k
  let onRange ← d.byRange.fetchTxnsContaining k
  pure (sortDistinct (onKey ++ direct ++ onRange))

def assembleMerge (all : List Deps) : Access Deps := do
  let onKey ← Graph.assembleMerge (all.map byKey)
  let onRange ← Graph.assembleMerge (all.map byRange)
  let direct ← Graph.assembleMerge (all.map direct)
  pure ⟨onKey, onRange, direct⟩

def assembleWithout (d : Deps) (remove : TxnId → Bool) : Access Deps := do
  let onKey ← d.byKey.assembleTxns (!remove ·)
  let onRange ← d.byRange.assembleTxns (!remove ·)
  let direct ← d.direct.assembleTxns (!remove ·)
  pure ⟨onKey, onRange, direct⟩

end Deps

end TxnDeps
