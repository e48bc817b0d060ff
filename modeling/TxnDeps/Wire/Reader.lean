import TxnDeps.Step
import TxnDeps.Wire.Defect

namespace TxnDeps

structure Cursor where
  rest : Bytes
  position : Nat
  deriving DecidableEq

def Cursor.start (bytes : Bytes) : Cursor := ⟨bytes, 0⟩

def Cursor.remaining (c : Cursor) : Nat := c.rest.length

def Cursor.take (n : Nat) : Step Cursor (Halt Fault) Bytes := fun c =>
  match Bytes.split? n c.rest with
  | some (taken, rest) => (.ok taken, ⟨rest, c.position + n⟩)
  | none => (.error (.failed ⟨c.position, .endOfBuffer n c.remaining⟩), c)

/-- A state from which bytes are read one after the other. -/
class ByteSource (σ : Type) where
  position : Step σ (Halt Fault) Nat
  remaining : Step σ (Halt Fault) Nat
  bytes (n : Nat) : Step σ (Halt Fault) Bytes

@[default_instance]
instance : ByteSource Cursor where
  position c := (.ok c.position, c)
  remaining c := (.ok c.remaining, c)
  bytes := Cursor.take

abbrev Reader (α : Type) := Step Cursor (Halt Fault) α

namespace Reader

variable {σ α : Type} [ByteSource σ]

def position : Step σ (Halt Fault) Nat := ByteSource.position

def remaining : Step σ (Halt Fault) Nat := ByteSource.remaining

def bytes (n : Nat) : Step σ (Halt Fault) Bytes := ByteSource.bytes n

def failAt (offset : Nat) (defect : Defect) : Step σ (Halt Fault) α :=
  Step.fail (.failed ⟨offset, defect⟩)

/-- Fails at the byte that was read last. -/
def failBefore (defect : Defect) : Step σ (Halt Fault) α := do
  let here ← position
  let last ← Step.ofExcept (Halt.minus here 1)
  failAt last defect

def byte : Step σ (Halt Fault) UInt8 := do
  let taken ← bytes 1
  Step.ofExcept (Halt.expect .index taken[0]?)

def bool : Step σ (Halt Fault) Bool := do
  let b ← byte
  if b = 0 then pure false
  else if b = 1 then pure true
  else failBefore (.boolean b)

def int64 : Step σ (Halt Fault) Int64 := do
  let taken ← bytes 8
  pure (UInt64.ofNat (Bytes.ofBigEndian taken)).toInt64

def finish : Reader Unit := fun c =>
  if c.rest.isEmpty then (.ok (), c) else (.error (.failed ⟨c.position, .trailing c.remaining⟩), c)

end Reader

namespace Bytes

def ofBool (b : Bool) : Bytes := if b then [1] else [0]

def ofInt64 (v : Int64) : Bytes := bigEndian 8 v.toUInt64.toNat

end Bytes

end TxnDeps
