import TxnDeps.Wire.Uvarint

namespace TxnDeps.Walk

theorem toNat_shiftRight_seven (value : UInt64) : (value >>> 7).toNat = value.toNat / 128 := by
  rw [UInt64.toNat_shiftRight, Nat.shiftRight_eq_div_pow]
  rfl

/-- Puts the groups of the number behind `out`. A group is marked if bits are left above it. -/
def putUvarint (value : UInt64) (out : Bytes) : Bytes :=
  let group := (value &&& 0x7F).toUInt8
  if value >>> 7 = 0 then out ++ [group]
  else putUvarint (value >>> 7) (out ++ [group ||| 0x80])
termination_by value.toNat
decreasing_by
  have hmore : (value >>> 7).toNat ≠ 0 := fun h => ‹¬value >>> 7 = 0› (UInt64.toNat_inj.1 h)
  rw [toNat_shiftRight_seven] at hmore ⊢
  omega

def uvarintSize {ε : Type} (value : UInt64) : Except (Halt ε) Nat := do
  let bits ← Halt.minus 64 value.toBitVec.clz.toNat
  pure ((max bits 1 + 6) / 7)

/-- Reads from the group on that stands `shift` bits up. The groups before it are in `value`. -/
def readUvarintFrom (start shift : Nat) (value : UInt64) : Reader UInt64 := do
  let b ← Reader.byte
  if shift = 63 ∧ 1 < b then Reader.failAt start .varintOverflow
  else
    let bits ← Step.ofExcept (Halt.shiftLeft (b &&& 0x7F).toNat shift)
    if b &&& 0x80 = 0 then pure (value ||| UInt64.ofNat bits)
    else if 63 < shift + 7 then Reader.failAt start .varintLength
    else readUvarintFrom start (shift + 7) (value ||| UInt64.ofNat bits)
termination_by 63 - shift

def readUvarint : Reader UInt64 := do
  let start ← Reader.position
  readUvarintFrom start 0 0

end TxnDeps.Walk
