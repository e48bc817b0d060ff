import TxnDeps.Wire.DepsCodec.Basic

namespace TxnDeps

def Graph.bodySize {α : Type} [Ord α] (g : Graph α) : Nat :=
  Uvarint.size g.txnIds.length + Bytes.totalSize (·.encodedSize) g.txnIds +
    Uvarint.size g.links.length + Bytes.totalSize (fun link => Uvarint.size link.toNat) g.links

namespace DepsCodec

def rangesSize (c : DepsCodec) (ranges : Ranges) : Nat :=
  Uvarint.size ranges.size + Bytes.totalSize c.ranges.encodedSize ranges.toList

def participantsSize (c : DepsCodec) : Participants → Nat
  | .keys keys => 1 + keys.encodedSize
  | .ranges ranges => 1 + c.rangesSize ranges

def keySetSize (keys : RoutingKeys) : KeySetMode → Nat
  | .full => keys.encodedSize
  | .relative superset flagged => (if flagged then 1 else 0) + keys.encodedSizeIn superset
  | .flaggedFull => 1 + keys.encodedSize

def directKeysSize (direct keys : RoutingKeys) : Nat :=
  1 + if direct.isSubsetOf keys then direct.encodedSizeIn keys else direct.encodedSize

def size (c : DepsCodec) (d : Deps) (superset? : Option RoutingKeys) (v : WireVersion) :
    Except Refusal Nat :=
  match c.keySetMode d.byKey.keys superset? v with
  | .error refusal => .error refusal
  | .ok mode =>
    .ok (keySetSize d.byKey.keys mode + d.byKey.bodySize + c.rangesSize d.byRange.keys +
      d.byRange.bodySize + directKeysSize d.direct.keys d.byKey.keys + d.direct.bodySize)

def sizePartial (c : DepsCodec) (p : PartialDeps) (superset? : Option RoutingKeys)
    (v : WireVersion) : Except Refusal Nat :=
  match c.size p.deps superset? v with
  | .error refusal => .error refusal
  | .ok size => .ok (size + c.participantsSize p.covering)

def sizeNullable {α : Type} (c : DepsCodec) (size : α → Except Refusal Nat) (v : WireVersion) :
    Option α → Except Refusal Nat
  | none => (c.config.check v).map fun _ => 1
  | some a =>
    match c.config.check v with
    | .error refusal => .error refusal
    | .ok () => (size a).map (1 + ·)

end DepsCodec

end TxnDeps
