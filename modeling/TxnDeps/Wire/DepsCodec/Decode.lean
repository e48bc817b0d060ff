import TxnDeps.Wire.DepsCodec.Basic

namespace TxnDeps

namespace Reader

def txnIds (limit : Nat) : Reader (List TxnId) := do
  let start ← position
  let count ← count limit
  let txns ← txnId.times count
  if ascends txns then pure txns else failAt start .txnOrder

def checkEntries {α : Type} [Ord α] (start : Nat) (g : Graph α) : Except (Halt Fault) Unit :=
  (List.range g.keys.size).forM fun i => do
    let txns ← Halt.expect .index (g.txnsAt? i)
    if ascends txns then pure () else .error (.failed ⟨start, .runOrder i⟩)

def body {α : Type} [Ord α] (limit : Nat) (keys : SortedList α) : Reader (Graph α) := do
  let txns ← txnIds limit
  let start ← position
  let count ← count limit
  let links ← uvarint32.times count
  match Graph.ofParts keys txns links with
  | .error halt => Step.fail (halt.map fun defect => ⟨start, .graph defect⟩)
  | .ok g => do
    Step.ofExcept (checkEntries start g)
    pure g

end Reader

namespace DepsCodec

open Reader (failAt position)

def readRanges (c : DepsCodec) (start : Nat) (disorder : Defect) : Reader Ranges := do
  let count ← Reader.count c.config.limit
  let ranges ← c.ranges.read.times count
  match SortedList.ofAscending? ranges with
  | some ranges => pure ranges
  | none => failAt start disorder

/-- Keys relative to the given ones, or one by one. -/
def readKeys (c : DepsCodec) (relative : Bool) (superset : RoutingKeys) : Reader RoutingKeys :=
  if relative then superset.readIn else Reader.routingKeys c.config.limit

def readKeySet (c : DepsCodec) (v : WireVersion) : Option RoutingKeys → Reader RoutingKeys
  | none => Reader.routingKeys c.config.limit
  | some superset =>
    if v.flagsKeySet then do
      let relative ← Reader.bool
      c.readKeys relative superset
    else superset.readIn

def readDeps (c : DepsCodec) (superset? : Option RoutingKeys) (v : WireVersion) :
    Reader Deps := do
  let limit := c.config.limit
  let keys ← c.readKeySet v superset?
  let byKey ← Reader.body limit keys
  let start ← position
  let ranges ← c.readRanges start .rangeOrder
  let byRange ← Reader.body limit ranges
  let relative ← Reader.bool
  let directKeys ← c.readKeys relative byKey.keys
  let direct ← Reader.body limit directKeys
  pure ⟨byKey, byRange, direct⟩

def readParticipants (c : DepsCodec) : Reader Participants := do
  let start ← position
  let tag ← Reader.byte
  if tag = 0 then
    let keys ← Reader.routingKeys c.config.limit
    pure (.keys keys)
  else if tag = 1 then
    let ranges ← c.readRanges start .coveringOrder
    pure (.ranges ranges)
  else failAt start (.participantsDomain tag)

def readPartial (c : DepsCodec) (superset? : Option RoutingKeys) (v : WireVersion) :
    Reader PartialDeps := do
  let deps ← c.readDeps superset? v
  let covering ← c.readParticipants
  pure ⟨covering, deps⟩

def readMarker : Reader Bool := do
  let start ← position
  let tag ← Reader.byte
  if tag = 0 then pure false
  else if tag = 1 then pure true
  else failAt start (.nullableMarker tag)

def readNullable {α : Type} (read : Reader α) : Reader (Option α) := do
  let present ← readMarker
  if present then
    let a ← read
    pure (some a)
  else pure none

/-- A read that fails before its first byte if the version is not accepted. -/
def checked {α : Type} (c : DepsCodec) (v : WireVersion) (read : Reader α) :
    Step Cursor (Halt Error) α := fun cursor =>
  match c.config.check v with
  | .error refusal => (.error (.failed (.ofRefusal refusal)), cursor)
  | .ok () => read.mapError (Halt.map Error.ofFault) cursor

theorem run_checked {α : Type} {c : DepsCodec} {v : WireVersion} (h : c.config.check v = .ok ())
    (read : Reader α) (cursor : Cursor) :
    (c.checked v read).run cursor = (read.mapError (Halt.map Error.ofFault)).run cursor := by
  change c.checked v read cursor = _
  rw [checked, h]
  rfl

end DepsCodec

end TxnDeps
