import TxnDeps.Wire.DepsCodec.Basic

namespace TxnDeps

abbrev Writer := Step Bytes Refusal Unit

namespace Writer

def put (bytes : Bytes) : Writer := Step.modify (· ++ bytes)

/-- Takes back what it wrote if it fails. -/
def orNothing (write : Writer) : Writer := fun buffer =>
  match write buffer with
  | (.ok (), written) => (.ok (), written)
  | (.error refusal, written) => (.error refusal, written.take buffer.length)

def subset (keys superset : RoutingKeys) : Writer :=
  match keys.encodeIn superset with
  | .ok bytes => put bytes
  | .error violation => Step.fail (.subset violation)

end Writer

def Graph.encodeBody {α : Type} [Ord α] (g : Graph α) : Bytes :=
  Uvarint.encode g.txnIds.length ++ g.txnIds.flatMap (·.encode) ++
    Uvarint.encode g.links.length ++ g.links.flatMap fun link => Uvarint.encode link.toNat

namespace DepsCodec

def encodeRanges (c : DepsCodec) (ranges : Ranges) : Bytes :=
  Uvarint.encode ranges.size ++ ranges.toList.flatMap c.ranges.encode

def encodeParticipants (c : DepsCodec) : Participants → Bytes
  | .keys keys => 0 :: keys.encode
  | .ranges ranges => 1 :: c.encodeRanges ranges

def writeKeySet (keys : RoutingKeys) : KeySetMode → Writer
  | .full => Writer.put keys.encode
  | .relative superset flagged => do
    if flagged then Writer.put (Bytes.ofBool true)
    Writer.subset keys superset
  | .flaggedFull => Writer.put (Bytes.ofBool false ++ keys.encode)

/-- The keys accessed directly, relative to the keys of the key graph where they are among them. -/
def writeDirectKeys (direct keys : RoutingKeys) : Writer := do
  let relative := direct.isSubsetOf keys
  Writer.put (Bytes.ofBool relative)
  if relative then Writer.subset direct keys else Writer.put direct.encode

def write (c : DepsCodec) (d : Deps) (superset? : Option RoutingKeys) (v : WireVersion) :
    Writer := do
  let mode ← Step.ofExcept (c.keySetMode d.byKey.keys superset? v)
  writeKeySet d.byKey.keys mode
  Writer.put d.byKey.encodeBody
  Writer.put (c.encodeRanges d.byRange.keys)
  Writer.put d.byRange.encodeBody
  writeDirectKeys d.direct.keys d.byKey.keys
  Writer.put d.direct.encodeBody

def writePartial (c : DepsCodec) (p : PartialDeps) (superset? : Option RoutingKeys)
    (v : WireVersion) : Writer := do
  c.write p.deps superset? v
  Writer.put (c.encodeParticipants p.covering)

def writeNullable {α : Type} (c : DepsCodec) (write : α → Writer) (v : WireVersion) :
    Option α → Writer
  | none => do
    Step.ofExcept (c.config.check v)
    Writer.put [0]
  | some a => Writer.orNothing do
    Writer.put [1]
    write a

end DepsCodec

end TxnDeps
