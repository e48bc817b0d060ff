import TxnDeps.Wire.Element
import TxnDeps.Wire.SubsetWalk

namespace TxnDeps

/-- A whole buffer, and the place of the byte that is read next. What is left is told by the length,
and bytes are taken by their places. An access outside the buffer is a trap. -/
structure Buffer where
  bytes : Bytes
  position : Nat
  deriving DecidableEq

namespace Buffer

def start (bytes : Bytes) : Buffer := ⟨bytes, 0⟩

def remaining (b : Buffer) : Except (Halt Fault) Nat := Halt.minus b.bytes.length b.position

def slice (b : Buffer) (first stop : Nat) : Except (Halt Fault) Bytes :=
  if first ≤ stop ∧ stop ≤ b.bytes.length then .ok ((b.bytes.drop first).take (stop - first))
  else .error (.trapped .slice)

def take (n : Nat) : Step Buffer (Halt Fault) Bytes := do
  let b ← Step.get
  let left ← Step.ofExcept b.remaining
  if left < n then Step.fail (.failed ⟨b.position, .endOfBuffer n left⟩)
  else
    let taken ← Step.ofExcept (b.slice b.position (b.position + n))
    Step.set { b with position := b.position + n }
    pure taken

instance : ByteSource Buffer where
  position b := (.ok b.position, b)
  remaining b := (b.remaining, b)
  bytes := take

end Buffer

abbrev InPlace (α : Type) := Step Buffer (Halt Fault) α

/-- What may be asked of a buffer, with the type of the answer. -/
inductive Reading : Type → Type 1 where
  | byte : Reading UInt8
  | bool : Reading Bool
  | int64 : Reading Int64
  | bytes (n : Nat) : Reading Bytes
  | uvarint : Reading Nat
  | uvarint32 : Reading UInt32
  | count (limit : Nat) : Reading Nat
  | txnId : Reading TxnId
  | routingKey : Reading RoutingKey
  | routingKeys (limit : Nat) : Reading RoutingKeys
  | subset {α : Type} (superset : List α) : Reading (List α)

namespace Reading

variable {σ α : Type} [ByteSource σ]

def read {α : Type} : Reading α → Step σ (Halt Fault) α
  | byte => Reader.byte
  | bool => Reader.bool
  | int64 => Reader.int64
  | bytes n => Reader.bytes n
  | uvarint => Reader.uvarint
  | uvarint32 => Reader.uvarint32
  | count limit => Reader.count limit
  | txnId => Reader.txnId
  | routingKey => Reader.routingKey
  | routingKeys limit => Reader.routingKeys limit
  | subset superset => Walk.readSubset superset

def inPlace (reading : Reading α) : InPlace α := reading.read

def reader (reading : Reading α) : Reader α := reading.read

end Reading

def Buffer.after (b : Buffer) (readings : List ((α : Type) × Reading α)) : Buffer :=
  readings.foldl (fun b reading => (reading.2.inPlace.run b).2) b

end TxnDeps
