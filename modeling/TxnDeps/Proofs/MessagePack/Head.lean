import Mathlib.Algebra.Group.Int.Defs
import TxnDeps.MessagePack.Writer
import TxnDeps.Proofs.Reading

namespace TxnDeps.MessagePack

open Bytes (bigEndian capacity)
open Step (Reads)

variable {α : Type}

theorem reads_take (taken : Bytes) : Reads (take taken.length) taken taken := by
  intro rest left hrest
  have hbytes : rest = taken ++ left := hrest
  change take taken.length rest = (.ok taken, rest.drop taken.length)
  rw [take, hbytes, Bytes.split?_append, List.drop_left]

theorem reads_number {width n : Nat} (h : n < capacity width) :
    Reads (number width) (bigEndian width n) n := by
  have htake := reads_take (bigEndian width n)
  rw [Bytes.length_bigEndian] at htake
  have hmap := htake.map Bytes.ofBigEndian
  rw [Bytes.ofBigEndian_bigEndian, Nat.mod_eq_of_lt h] at hmap
  exact hmap

theorem reads_tag (tag : UInt8) : Reads (number 1) [tag] tag.toNat := by
  have h : Reads (number 1) (bigEndian 1 tag.toNat) tag.toNat := reads_number tag.toNat_lt
  rw [bigEndian, bigEndian, UInt8.ofNat_toNat] at h
  exact h

theorem reads_signedNumber {width : Nat} {v : Int} (hlow : -(capacity width : Int) ≤ 2 * v)
    (hneg : v < 0) :
    Reads (signedNumber width) (bigEndian width (v + capacity width).toNat) v := by
  have hlt : (v + capacity width).toNat < capacity width := by omega
  apply (reads_number hlt).last
  change Reads (pure (if 2 * (v + capacity width).toNat < capacity width
    then ((v + capacity width).toNat : Int) else (v + capacity width).toNat - capacity width)) [] v
  rw [if_neg (by omega)]
  have hv : ((v + capacity width).toNat : Int) - capacity width = v := by omega
  rw [hv]
  exact Reads.pure v

/-- The head that is decided by its first byte, which stands for itself. -/
def shortHead (tag : Nat) : Unpacker Head :=
  if tag < 0x80 then pure (.natural tag)
  else if tag < 0x90 then pure (.map (tag - 0x80))
  else if tag < 0xa0 then pure (.array (tag - 0x90))
  else if tag < 0xc0 then pure (.text (tag - 0xa0))
  else if tag < 0xe0 then wideHead tag
  else pure (.signed ((tag : Int) - 256))

theorem head_eq : head = number 1 >>= shortHead := rfl

theorem reads_head_of_short {tag : UInt8} {h : Head} (hshort : shortHead tag.toNat = pure h) :
    Reads head [tag] h := by
  rw [head_eq]
  apply (reads_tag tag).last
  rw [hshort]
  exact Reads.pure h

theorem reads_head_of_wide {tag : UInt8} {bytes : Bytes} {h : Head} (hlow : 0xc0 ≤ tag.toNat)
    (hhigh : tag.toNat < 0xe0) (hwide : Reads (wideHead tag.toNat) bytes h) :
    Reads head (tag :: bytes) h := by
  have hshort : shortHead tag.toNat = wideHead tag.toNat := by
    rw [shortHead, if_neg (by omega), if_neg (by omega), if_neg (by omega), if_neg (by omega),
      if_pos hhigh]
  rw [head_eq]
  apply (reads_tag tag).bind
  rw [hshort]
  exact hwide

theorem reads_head_of_number {tag : UInt8} {width n : Nat} {h : Nat → Head}
    (hlow : 0xc0 ≤ tag.toNat) (hhigh : tag.toNat < 0xe0)
    (hwide : wideHead tag.toNat = h <$> number width) (hn : n < capacity width) :
    Reads head (tag :: bigEndian width n) (h n) :=
  reads_head_of_wide hlow hhigh (hwide ▸ (reads_number hn).map h)

theorem reads_natural {n : Nat} (h : n < capacity 8) : Reads head (natural n) (.natural n) := by
  rw [natural]
  split
  · next hsmall =>
    have htag : (UInt8.ofNat n).toNat = n := Nat.mod_eq_of_lt (by omega)
    apply reads_head_of_short
    rw [htag, shortHead, if_pos hsmall]
  · split
    · next h1 =>
      exact reads_head_of_number (by decide) (by decide) rfl h1
    · split
      · next h2 =>
        exact reads_head_of_number (by decide) (by decide) rfl h2
      · split
        · next h4 =>
          exact reads_head_of_number (by decide) (by decide) rfl h4
        · exact reads_head_of_number (by decide) (by decide) rfl h

theorem reads_head_of_signed {tag : UInt8} {width : Nat} {v : Int} (hlow : 0xc0 ≤ tag.toNat)
    (hhigh : tag.toNat < 0xe0) (hwide : wideHead tag.toNat = Head.signed <$> signedNumber width)
    (hv : -(capacity width : Int) ≤ 2 * v) (hneg : v < 0) :
    Reads head (tag :: bigEndian width (v + capacity width).toNat) (.signed v) :=
  reads_head_of_wide hlow hhigh (hwide ▸ (reads_signedNumber hv hneg).map Head.signed)

theorem reads_head_of_small_signed {v : Int} (hsmall : -32 ≤ v) (hneg : v < 0) :
    Reads head (bigEndian 1 (v + capacity 1).toNat) (.signed v) := by
  obtain ⟨n, hn⟩ : ∃ n : Nat, v + 256 = n := ⟨(v + 256).toNat, by omega⟩
  have hbyte : (v + capacity 1).toNat = n := by
    change (v + 256).toNat = n
    omega
  have htag : (UInt8.ofNat n).toNat = n := Nat.mod_eq_of_lt (by omega)
  have hv : (n : Int) - 256 = v := by omega
  rw [hbyte]
  apply reads_head_of_short
  rw [htag, shortHead, if_neg (by omega), if_neg (by omega), if_neg (by omega),
    if_neg (by omega), if_neg (by omega), hv]

theorem reads_integer_neg {v : Int} (hlow : -(2 ^ 63 : Int) ≤ v) (hneg : v < 0) :
    Reads head (integer v) (.signed v) := by
  rw [integer, if_neg (by omega)]
  split
  · next hsmall => exact reads_head_of_small_signed hsmall hneg
  · split
    · next h1 =>
      refine reads_head_of_signed (by decide) (by decide) rfl ?_ hneg
      change -(256 : Int) ≤ 2 * v
      omega
    · split
      · next h2 =>
        refine reads_head_of_signed (by decide) (by decide) rfl ?_ hneg
        change -(65536 : Int) ≤ 2 * v
        omega
      · split
        · next h4 =>
          refine reads_head_of_signed (by decide) (by decide) rfl ?_ hneg
          change -(4294967296 : Int) ≤ 2 * v
          omega
        · refine reads_head_of_signed (by decide) (by decide) rfl ?_ hneg
          change -(18446744073709551616 : Int) ≤ 2 * v
          omega

theorem reads_textHead {n : Nat} (h : n < capacity 4) : Reads head (textHead n) (.text n) := by
  rw [textHead]
  split
  · next hsmall =>
    have htag : (UInt8.ofNat (0xa0 + n)).toNat = 0xa0 + n := Nat.mod_eq_of_lt (by omega)
    apply reads_head_of_short
    rw [htag, shortHead, if_neg (by omega), if_neg (by omega), if_neg (by omega),
      if_pos (by omega), Nat.add_sub_cancel_left]
  · split
    · next h1 =>
      exact reads_head_of_number (by decide) (by decide) rfl h1
    · split
      · next h2 =>
        exact reads_head_of_number (by decide) (by decide) rfl h2
      · exact reads_head_of_number (by decide) (by decide) rfl h

theorem reads_binaryHead {n : Nat} (h : n < capacity 4) :
    Reads head (binaryHead n) (.binary n) := by
  rw [binaryHead]
  split
  · next h1 =>
    exact reads_head_of_number (by decide) (by decide) rfl h1
  · split
    · next h2 =>
      exact reads_head_of_number (by decide) (by decide) rfl h2
    · exact reads_head_of_number (by decide) (by decide) rfl h

theorem reads_arrayHead {n : Nat} (h : n < capacity 4) : Reads head (arrayHead n) (.array n) := by
  rw [arrayHead]
  split
  · next hsmall =>
    have htag : (UInt8.ofNat (0x90 + n)).toNat = 0x90 + n := Nat.mod_eq_of_lt (by omega)
    apply reads_head_of_short
    rw [htag, shortHead, if_neg (by omega), if_neg (by omega), if_pos (by omega),
      Nat.add_sub_cancel_left]
  · split
    · next h2 =>
      exact reads_head_of_number (by decide) (by decide) rfl h2
    · exact reads_head_of_number (by decide) (by decide) rfl h

theorem reads_below {n bound : Nat} (h : n < bound) (hbound : bound ≤ capacity 8) :
    Reads (below bound) (natural n) n := by
  apply (reads_natural (Nat.lt_of_lt_of_le h hbound)).last
  change Reads (if n < bound then pure n else malformed) [] n
  rw [if_pos h]
  exact Reads.pure n

theorem reads_int64 (v : Int64) : Reads int64 (integer v.toInt) v := by
  have hlow : -(2 ^ 63 : Int) ≤ v.toInt := v.le_toInt
  have hhigh : v.toInt < 2 ^ 63 := v.toInt_lt
  by_cases hv : 0 ≤ v.toInt
  · have hcap : 2 * v.toInt.toNat < capacity 8 := by
      change 2 * v.toInt.toNat < 18446744073709551616
      omega
    rw [integer, if_pos hv]
    apply (reads_natural (by omega)).last
    change Reads (if 2 * v.toInt.toNat < capacity 8 then pure (Int64.ofNat v.toInt.toNat)
      else malformed) [] v
    have hback : Int64.ofNat v.toInt.toNat = v := by
      rw [← Int64.ofInt_eq_ofNat, Int.toNat_of_nonneg hv, Int64.ofInt_toInt]
    rw [if_pos hcap, hback]
    exact Reads.pure v
  · apply (reads_integer_neg hlow (by omega)).last
    change Reads (pure (Int64.ofInt v.toInt)) [] v
    rw [Int64.ofInt_toInt]
    exact Reads.pure v

theorem reads_blob {taken : Bytes} (h : taken.length < capacity 4) :
    Reads blob (binary taken) taken :=
  (reads_binaryHead h).bind (reads_take taken)

/-- Whatever stands for a value that is there starts with another byte than the one for none. -/
theorem reads_optional_some {value : Unpacker α} {tag : UInt8} {bytes : Bytes} {a : α}
    (htag : tag ≠ 0xc0) (h : Reads value (tag :: bytes) a) :
    Reads (optional value) (tag :: bytes) (some a) := by
  intro rest left hrest
  have hbytes : rest = tag :: (bytes ++ left) := hrest
  have hrun : optional value rest = (some <$> value) rest := by
    rw [hbytes, optional]
    exact fun _ he => htag (List.cons.inj he).1
  exact hrun.trans (h.map some rest left hrest)

theorem reads_optional_none {value : Unpacker α} : Reads (optional value) nil none := by
  intro rest left hrest
  have hbytes : rest = 0xc0 :: left := hrest
  change optional value rest = (.ok none, rest.drop 1)
  rw [hbytes]
  rfl

end TxnDeps.MessagePack
