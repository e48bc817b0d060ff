import TxnDeps.Wire.Reader

namespace TxnDeps

namespace Uvarint

def encode (n : Nat) : Bytes :=
  if n < 128 then [UInt8.ofNat n] else UInt8.ofNat (n % 128 + 128) :: encode (n / 128)
termination_by n

def size (n : Nat) : Nat := (n.log2 + 7) / 7

end Uvarint

namespace Reader

variable {σ : Type} [ByteSource σ]

/-- Reads the last `groups` of the ten groups that a 64-bit number may have. The next group stands
`shift` bits up, and `value` holds the bits of the groups before it. -/
def uvarintFrom (start : Nat) : (groups shift value : Nat) → Step σ (Halt Fault) Nat
  | 0, _, _ => failAt start .varintLength
  | groups + 1, shift, value => do
    let b ← byte
    if groups = 0 ∧ 1 < b then failAt start .varintOverflow
    else
      let bits ← Step.ofExcept (Halt.shiftLeft (b.toNat % 128) shift)
      if b < 128 then pure (value ||| bits)
      else uvarintFrom start groups (shift + 7) (value ||| bits)

def uvarint : Step σ (Halt Fault) Nat := do
  let start ← position
  uvarintFrom start 10 0 0

def uvarint32 : Step σ (Halt Fault) UInt32 := do
  let start ← position
  let value ← uvarint
  if value < Bytes.capacity 4 then pure (UInt32.ofNat value) else failAt start (.varint32 value)

def count (limit : Nat) : Step σ (Halt Fault) Nat := do
  let start ← position
  let count ← uvarint
  if limit < count then failAt start (.tooMany count limit) else pure count

end Reader

/-- Takes 0, -1, 1, -2, 2 and so on to 0, 1, 2, 3, 4 and so on. -/
def zigzag (v : Int64) : UInt64 := ((v <<< 1) ^^^ (v >>> 63)).toUInt64

def unzigzag (n : UInt64) : Int64 := (n >>> 1).toInt64 ^^^ -(n &&& 1).toInt64

end TxnDeps
