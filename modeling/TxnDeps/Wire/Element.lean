import TxnDeps.Wire.Uvarint

namespace TxnDeps

namespace TxnId

def encode (t : TxnId) : Bytes :=
  Uvarint.encode t.epoch.toNat ++ Uvarint.encode t.clock.toNat ++ Uvarint.encode t.flags.toNat ++
    Uvarint.encode t.node.toNat

def encodedSize (t : TxnId) : Nat :=
  Uvarint.size t.epoch.toNat + Uvarint.size t.clock.toNat + Uvarint.size t.flags.toNat +
    Uvarint.size t.node.toNat

end TxnId

namespace RoutingKey

def encode (k : RoutingKey) : Bytes :=
  k.table.bytes ++
    match k.kind with
    | .min => [0]
    | .token v => 1 :: Bytes.ofInt64 v
    | .max => [2]

def encodedSize (k : RoutingKey) : Nat :=
  match k.kind with
  | .token _ => 16 + 1 + 8
  | _ => 16 + 1

end RoutingKey

namespace RoutingKeys

def encode (ks : RoutingKeys) : Bytes :=
  Uvarint.encode ks.size ++ ks.toList.flatMap (·.encode)

def encodedSize (ks : RoutingKeys) : Nat :=
  Uvarint.size ks.size + Bytes.totalSize (·.encodedSize) ks.toList

end RoutingKeys

namespace Reader

variable {σ : Type} [ByteSource σ]

def txnId : Step σ (Halt Fault) TxnId := do
  let epoch ← uvarint
  let clock ← uvarint
  let start ← position
  let flags ← uvarint
  if flags < Bytes.capacity 2 then
    let node ← uvarint32
    pure ⟨UInt64.ofNat epoch, UInt64.ofNat clock, UInt16.ofNat flags, node⟩
  else failAt start .txnFlags

def routingKey : Step σ (Halt Fault) RoutingKey := do
  let table ← bytes 16
  let tag ← byte
  if tag = 0 then pure (.min (.ofBytes table))
  else if tag = 1 then
    let v ← int64
    pure (.token (.ofBytes table) v)
  else if tag = 2 then pure (.max (.ofBytes table))
  else failBefore (.keyKind tag)

/-- At most `limit` keys, in ascending order. Room is made for no more of them than there are bytes,
and so it is asked what is left. -/
def routingKeys (limit : Nat) : Step σ (Halt Fault) RoutingKeys := do
  let start ← position
  let count ← count limit
  let _room ← remaining
  let keys ← routingKey.times count
  match SortedList.ofAscending? keys with
  | some keys => pure keys
  | none => failAt start .keyOrder

end Reader

end TxnDeps
