import TxnDeps.Deps
import TxnDeps.MessagePack.Reader

namespace TxnDeps

open MessagePack

class Packed (α : Type) where
  pack : α → Bytes
  /-- Reads a value that stands inside `level` arrays and maps. -/
  unpack : (level : Nat) → Unpacker α

export Packed (pack unpack)

namespace Packed

variable {α : Type}

def probe (α : Type) [Packed α] (level : Nat) : Unpacker Unit :=
  (fun _ => ()) <$> unpack (α := α) level

instance : Packed UInt16 where
  pack n := natural n.toNat
  unpack _ := UInt16.ofNat <$> below (Bytes.capacity 2)

instance : Packed UInt32 where
  pack n := natural n.toNat
  unpack _ := UInt32.ofNat <$> below (Bytes.capacity 4)

instance : Packed UInt64 where
  pack n := natural n.toNat
  unpack _ := UInt64.ofNat <$> below (Bytes.capacity 8)

instance : Packed Int64 where
  pack v := integer v.toInt
  unpack _ := int64

instance [Packed α] : Packed (Option α) where
  pack
    | none => nil
    | some a => pack a
  unpack level := optional (unpack level)

instance [Packed α] : Packed (List α) where
  pack xs := array (xs.map pack)
  unpack := list unpack

instance : Packed TxnId where
  pack t := array [pack t.epoch, pack t.clock, pack t.flags, pack t.node]
  unpack := record [("epoch", probe UInt64), ("hlc", probe UInt64), ("flags", probe UInt16),
      ("node", probe UInt32)] fun row => do
    let epoch ← row.field 0 unpack
    let clock ← row.field 1 unpack
    let flags ← row.field 2 unpack
    let node ← row.field 3 unpack
    row.close 4
    pure ⟨epoch, clock, flags, node⟩

instance : Packed Ballot where
  pack b := array [pack b.counter, pack b.node]
  unpack := record [("counter", probe UInt64), ("node", probe UInt32)] fun row => do
    let counter ← row.field 0 unpack
    let node ← row.field 1 unpack
    row.close 2
    pure ⟨counter, node⟩

instance : Packed TableId where
  pack t := binary t.bytes
  unpack _ := do
    let taken ← blob
    if taken.length = 16 then pure (.ofBytes taken) else malformed

instance : Packed KeyKind where
  pack
    | .min => text "MinSentinel"
    | .token v => tagged "Token" (pack v)
    | .max => text "MaxSentinel"
  unpack level := do
    let (i, isValued) ← case ["MinSentinel", "Token", "MaxSentinel"]
    if i = 0 then bare isValued .min
    else if i = 1 then valued isValued (.token <$> unpack level)
    else bare isValued .max

instance : Packed RoutingKey where
  pack k := array [pack k.table, pack k.kind]
  unpack := record [("table", probe TableId), ("kind", probe KeyKind)] fun row => do
    let table ← row.field 0 unpack
    let kind ← row.field 1 unpack
    row.close 2
    pure ⟨table, kind⟩

instance : Packed TokenRange where
  pack r := array [pack r.start, pack r.stop]
  unpack level := do
    let ends := record [("start", probe RoutingKey), ("end", probe RoutingKey)] fun row => do
      let start ← row.field 0 unpack
      let stop ← row.field 1 unpack
      row.close 2
      pure (start, stop)
    let (start, stop) ← ends level
    match TokenRange.create start stop with
    | .ok range => pure range
    | .error cause => Step.fail (.failed (.argument cause))

instance [Ord α] [Std.TransOrd α] [Packed α] : Packed (SortedList α) where
  pack s := pack s.toList
  unpack level := do
    let xs ← unpack level
    match SortedList.ofAscending? xs with
    | some s => pure s
    | none => Step.fail (.failed .listOrder)

instance [Ord α] [Std.TransOrd α] [Packed α] : Packed (Graph α) where
  pack g := array [pack g.keys, pack g.txnIds, pack g.links]
  unpack level := do
    let parts := record [("keys", probe (SortedList α)), ("txn_ids", probe (List TxnId)),
        ("keys_to_txn_ids", probe (List UInt32))] fun row => do
      let keys ← row.field 0 (unpack (α := SortedList α))
      let txnIds ← row.field 1 unpack
      let links ← row.field 2 unpack
      row.close 3
      pure (keys, txnIds, links)
    let (keys, txnIds, links) ← parts level
    match Graph.ofOrderedParts keys txnIds links with
    | .ok g => pure g
    | .error halt => Step.fail (halt.map .graph)

instance : Packed Deps where
  pack d := array [pack d.byKey, pack d.byRange, pack d.direct]
  unpack := record [("key_deps", probe KeyDeps), ("range_deps", probe RangeDeps),
      ("direct_key_deps", probe KeyDeps)] fun row => do
    let byKey ← row.field 0 unpack
    let byRange ← row.field 1 unpack
    let direct ← row.field 2 unpack
    row.close 3
    pure ⟨byKey, byRange, direct⟩

instance : Packed Participants where
  pack
    | .keys keys => tagged "Keys" (pack keys)
    | .ranges ranges => tagged "Ranges" (pack ranges)
  unpack level := do
    let (i, isValued) ← case ["Keys", "Ranges"]
    if i = 0 then valued isValued (.keys <$> unpack level)
    else valued isValued (.ranges <$> unpack level)

instance : Packed PartialDeps where
  pack p := array [pack p.covering, pack p.deps]
  unpack := record [("covering", probe Participants), ("deps", probe Deps)] fun row => do
    let covering ← row.field 0 unpack
    let deps ← row.field 1 unpack
    row.close 2
    pure ⟨covering, deps⟩

/-- The value at the start of the bytes. What follows it is not looked at. -/
def ofBytes [Packed α] (bytes : Bytes) : Except (Halt RecordDefect) α :=
  ((unpack (α := α) 0).run bytes).1

end Packed

end TxnDeps
