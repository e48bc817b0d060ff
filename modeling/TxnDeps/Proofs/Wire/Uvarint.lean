import TxnDeps.Proofs.Reading
import TxnDeps.Wire.Uvarint

namespace TxnDeps

open Step (Reads ReadsIf Safe)

namespace Uvarint

theorem encode_of_lt {n : Nat} (h : n < 128) : encode n = [UInt8.ofNat n] := by
  rw [encode, if_pos h]

theorem encode_of_le {n : Nat} (h : 128 ≤ n) :
    encode n = UInt8.ofNat (n % 128 + 128) :: encode (n / 128) := by
  rw [encode, if_neg (Nat.not_lt.2 h)]

theorem or_eq_add {value shift m : Nat} (h : value < 2 ^ shift) :
    value ||| m * 2 ^ shift = value + m * 2 ^ shift := by
  rw [Nat.or_comm, Nat.mul_comm, ← Nat.two_pow_add_eq_or_of_lt h, Nat.add_comm]

theorem toNat_more (n : Nat) : (UInt8.ofNat (n % 128 + 128)).toNat = n % 128 + 128 :=
  Nat.mod_eq_of_lt (by omega)

theorem eq_add_groups (n shift : Nat) :
    n * 2 ^ shift = n % 128 * 2 ^ shift + n / 128 * 2 ^ (shift + 7) := by
  rw [Nat.pow_add, Nat.mul_comm (2 ^ shift), ← Nat.mul_assoc, ← Nat.add_mul]
  congr 1
  omega

theorem lowest_group_le (n shift : Nat) : n % 128 * 2 ^ shift ≤ 127 * 2 ^ shift :=
  Nat.mul_le_mul_right _ (by omega)

theorem add_lowest_group_lt {value shift : Nat} (n : Nat) (h : value < 2 ^ shift) :
    value + n % 128 * 2 ^ shift < 2 ^ (shift + 7) := by
  have hgroup := lowest_group_le n shift
  rw [Nat.pow_add]
  omega

theorem groups_lt_iff {n shift : Nat} (h : shift + 7 ≤ 64) :
    n / 128 * 2 ^ (shift + 7) < 2 ^ 64 ↔ n * 2 ^ shift < 2 ^ 64 := by
  have hlow := add_lowest_group_lt n (Nat.two_pow_pos shift)
  rw [Nat.zero_add] at hlow
  have hunits : (2 : Nat) ^ 64 = 2 ^ (64 - (shift + 7)) * 2 ^ (shift + 7) := by
    rw [← Nat.pow_add]
    congr 1
    omega
  rw [eq_add_groups n shift, hunits, Nat.mul_lt_mul_right (Nat.two_pow_pos _)]
  constructor
  · intro hlt
    have hle := Nat.mul_le_mul_right (2 ^ (shift + 7)) (Nat.succ_le_of_lt hlt)
    rw [Nat.succ_mul] at hle
    omega
  · intro hlt
    exact Nat.lt_of_mul_lt_mul_right (a := 2 ^ (shift + 7)) (by omega)

theorem size_of_lt {n : Nat} (h : n < 128) : size n = 1 := by
  have hlog : n.log2 ≤ 6 := by
    obtain rfl | hpos := Nat.eq_zero_or_pos n
    · decide
    · exact Nat.le_of_lt_succ ((Nat.log2_lt (Nat.ne_of_gt hpos)).2 h)
  rw [size]
  omega

theorem one_le_size (n : Nat) : 1 ≤ size n := by
  rw [size]
  omega

theorem size_le_of_lt {n groups : Nat} (hgroups : 0 < groups) (h : n < 2 ^ (7 * groups)) :
    size n ≤ groups := by
  have hlog : n.log2 < 7 * groups := by
    obtain rfl | hpos := Nat.eq_zero_or_pos n
    · rw [Nat.log2_zero]
      omega
    · exact (Nat.log2_lt (Nat.ne_of_gt hpos)).2 h
  rw [size]
  omega

theorem log2_of_le {n : Nat} (h : 128 ≤ n) : n.log2 = (n / 128).log2 + 7 := by
  have hgroups : n / 128 ≠ 0 := by omega
  obtain ⟨hlow, hhigh⟩ := (Nat.log2_eq_iff hgroups).1 rfl
  have hmore : ∀ k, 2 ^ (k + 7) = 128 * 2 ^ k := fun k => Nat.pow_add' 2 k 7
  rw [Nat.log2_eq_iff (by omega), Nat.add_right_comm, hmore, hmore]
  omega

theorem size_of_le {n : Nat} (h : 128 ≤ n) : size n = size (n / 128) + 1 := by
  rw [size, size, log2_of_le h]
  omega

@[simp]
theorem length_encode (n : Nat) : (encode n).length = size n := by
  induction n using encode.induct with
  | case1 n hlt => rw [encode_of_lt hlt, size_of_lt hlt, List.length_singleton]
  | case2 n hge ih =>
    have hle : 128 ≤ n := Nat.not_lt.1 hge
    rw [encode_of_le hle, size_of_le hle, List.length_cons, ih]

end Uvarint

namespace Reader

/-- A group of a number of 64 bits is moved up without loss if the tenth group is one bit. -/
theorem shiftLeft_group {groups shift : Nat} {b : UInt8} (hshift : 7 * groups + shift = 63)
    (hlast : ¬(groups = 0 ∧ 1 < b)) :
    (Halt.shiftLeft (b.toNat % 128) shift : Except (Halt Fault) Nat) =
      .ok (b.toNat % 128 * 2 ^ shift) := by
  rw [UInt8.lt_iff_toNat_lt] at hlast
  change ¬(groups = 0 ∧ 1 < b.toNat) at hlast
  refine Halt.shiftLeft_eq_ok (by omega) ?_
  obtain rfl | hpos := Nat.eq_zero_or_pos groups
  · have hs : shift = 63 := by omega
    subst hs
    omega
  · have hpow : 2 ^ shift ≤ 2 ^ 56 := Nat.pow_le_pow_right Nat.two_pos (by omega)
    have hgroup := Uvarint.lowest_group_le b.toNat shift
    omega

theorem readsIf_last_group (start groups shift value n : Nat) (hshift : 7 * groups + shift = 63)
    (hvalue : value < 2 ^ shift) (hn : n < 128) :
    ReadsIf (n * 2 ^ shift < 2 ^ 64) (uvarintFrom start (groups + 1) shift value)
      (Uvarint.encode n) (value + n * 2 ^ shift) := by
  have hbyte : (UInt8.ofNat n).toNat = n := Nat.mod_eq_of_lt (by omega)
  have hlt : UInt8.ofNat n < 128 := UInt8.lt_iff_toNat_lt.2 (by rw [hbyte]; exact hn)
  rw [Uvarint.encode_of_lt hn, uvarintFrom]
  apply (reads_byte (UInt8.ofNat n)).check
  have hfits : ¬(groups = 0 ∧ 1 < UInt8.ofNat n) ↔ n * 2 ^ shift < 2 ^ 64 := by
    rw [UInt8.lt_iff_toNat_lt, hbyte]
    change ¬(groups = 0 ∧ 1 < n) ↔ _
    obtain rfl | hpos := Nat.eq_zero_or_pos groups
    · have hs : shift = 63 := by omega
      subst hs
      omega
    · have hpow : 2 ^ shift ≤ 2 ^ 56 := Nat.pow_le_pow_right Nat.two_pos (by omega)
      have hmul : n * 2 ^ shift ≤ 127 * 2 ^ 56 := Nat.mul_le_mul (by omega) hpow
      omega
  refine ⟨fun h => ?_, fun h => ?_⟩
  · have hbits : (Halt.shiftLeft ((UInt8.ofNat n).toNat % 128) shift : Except (Halt Fault) Nat) =
        .ok (n * 2 ^ shift) := by
      rw [hbyte, Nat.mod_eq_of_lt hn]
      exact Halt.shiftLeft_eq_ok (by omega) h
    rw [if_neg (hfits.2 h)]
    apply (Reads.ofExcept hbits).last
    rw [if_pos hlt, Uvarint.or_eq_add hvalue]
    exact Reads.pure _
  · rw [if_pos (Decidable.not_not.1 (mt hfits.1 h))]
    exact refuses_failAt start .varintOverflow

/-- The groups that are left stand above the `value` that is there, and together they are as many
as a 64-bit number may have. -/
theorem readsIf_uvarintFrom (start groups shift value n : Nat) (hshift : 7 * groups + shift = 63)
    (hvalue : value < 2 ^ shift) :
    ReadsIf (n * 2 ^ shift < 2 ^ 64) (uvarintFrom start (groups + 1) shift value)
      (Uvarint.encode n) (value + n * 2 ^ shift) := by
  -- A group fewer is left with every seven bits of shift, so that the last one stands at bit 63.
  induction groups generalizing shift value n with
  | zero =>
    by_cases hn : n < 128
    · exact readsIf_last_group start 0 shift value n hshift hvalue hn
    · have hs : shift = 63 := by omega
      subst hs
      have hlarge : 1 < UInt8.ofNat (n % 128 + 128) := by
        rw [UInt8.lt_iff_toNat_lt, Uvarint.toNat_more]
        change 1 < _
        omega
      rw [Uvarint.encode_of_le (by omega), uvarintFrom]
      apply (reads_byte (UInt8.ofNat (n % 128 + 128))).bindIf
      rw [if_pos ⟨rfl, hlarge⟩]
      constructor
      · intro h
        omega
      · intro _
        exact refuses_failAt start .varintOverflow
  | succ groups ih =>
    by_cases hn : n < 128
    · exact readsIf_last_group start (groups + 1) shift value n hshift hvalue hn
    · have hgroup : (UInt8.ofNat (n % 128 + 128)).toNat % 128 = n % 128 := by
        rw [Uvarint.toNat_more]
        omega
      have hmore : ¬UInt8.ofNat (n % 128 + 128) < 128 := by
        rw [UInt8.lt_iff_toNat_lt, Uvarint.toNat_more]
        change ¬_ < 128
        omega
      have hlow := Uvarint.lowest_group_le n shift
      have hpow : 2 ^ shift ≤ 2 ^ 56 := Nat.pow_le_pow_right Nat.two_pos (by omega)
      have hbits : (Halt.shiftLeft (n % 128) shift : Except (Halt Fault) Nat) =
          .ok (n % 128 * 2 ^ shift) := Halt.shiftLeft_eq_ok (by omega) (by omega)
      have hrest := ih (shift + 7) (value + n % 128 * 2 ^ shift) (n / 128) (by omega)
        (Uvarint.add_lowest_group_lt n hvalue)
      rw [Nat.add_assoc, ← Uvarint.eq_add_groups] at hrest
      rw [Uvarint.encode_of_le (by omega), uvarintFrom]
      apply (reads_byte (UInt8.ofNat (n % 128 + 128))).bindIf
      rw [if_neg (fun h => Nat.succ_ne_zero groups h.1), hgroup]
      apply (Reads.ofExcept hbits).bindIf
      rw [if_neg hmore, Uvarint.or_eq_add hvalue]
      exact hrest.of_iff (Uvarint.groups_lt_iff (by omega))

theorem readsIf_uvarint (n : Nat) : ReadsIf (n < 2 ^ 64) uvarint (Uvarint.encode n) n := by
  apply readsIf_position
  intro start
  have h := readsIf_uvarintFrom start 9 0 0 n rfl Nat.one_pos
  simpa using h

theorem reads_uvarint {n : Nat} (h : n < 2 ^ 64) : Reads uvarint (Uvarint.encode n) n :=
  (readsIf_uvarint n).reads h

theorem reads_uvarint32 (n : UInt32) : Reads uvarint32 (Uvarint.encode n.toNat) n := by
  have hn : n.toNat < Bytes.capacity 4 := n.toNat_lt
  refine reads_position fun start => (reads_uvarint (Nat.lt_trans hn (by decide))).last ?_
  rw [if_pos hn, UInt32.ofNat_toNat]
  exact Reads.pure n

theorem readsIf_count {limit : Nat} (hlimit : limit < 2 ^ 64) (n : Nat) :
    ReadsIf (n ≤ limit) (count limit) (Uvarint.encode n) n := by
  apply readsIf_position
  intro start
  refine ((readsIf_uvarint n).check fun _ => ?_).of_iff ⟨And.right, fun h => ⟨by omega, h⟩⟩
  by_cases h : limit < n
  · rw [if_pos h]
    exact ⟨fun hle => absurd h (Nat.not_lt.2 hle), fun _ => refuses_failAt start _⟩
  · rw [if_neg h]
    exact ⟨fun _ => Reads.pure n, fun hno => absurd (Nat.not_lt.1 h) hno⟩

/-- The shift stays below the width of the number as long as there are groups left. -/
theorem safe_uvarintFrom (start groups shift value : Nat) (hshift : 7 * groups + shift = 70)
    (hvalue : value < 2 ^ 64) :
    Safe (uvarintFrom start groups shift value) fun n => n < 2 ^ 64 := by
  induction groups generalizing shift value with
  | zero => exact safe_failAt _ _
  | succ groups ih =>
    apply safe_byte.bind
    intro b _
    split
    · exact safe_failAt _ _
    · apply (Safe.ofExcept (Halt.safe_shiftLeft _ (by omega))).bind
      intro bits hlt
      have hor : value ||| bits < 2 ^ 64 := Nat.or_lt_two_pow hvalue hlt
      split
      · exact Safe.pure hor
      · exact ih (shift + 7) _ (by omega) hor

theorem safe_uvarint : Safe uvarint fun n => n < 2 ^ 64 :=
  safe_position.bind fun start _ => safe_uvarintFrom start 10 0 0 rfl (Nat.two_pow_pos 64)

theorem safe_uvarint32 : Safe uvarint32 fun _ => True := by
  apply safe_position.bind
  intro start _
  apply safe_uvarint.bind
  intro n _
  split
  · exact Safe.pure trivial
  · exact safe_failAt _ _

theorem safe_count (limit : Nat) : Safe (count limit) fun n => n ≤ limit := by
  apply safe_position.bind
  intro start _
  apply safe_uvarint.bind
  intro n _
  split
  · exact safe_failAt _ _
  · next h => exact Safe.pure (Nat.not_lt.1 h)

end Reader

theorem sshiftRight_63 (x : BitVec 64) :
    x.sshiftRight 63 = if x.msb then BitVec.allOnes 64 else 0#64 := by
  ext i hi
  have hsign : (x.sshiftRight 63)[i] = x.msb := by
    rw [BitVec.getElem_sshiftRight]
    by_cases hi0 : i = 0
    · subst hi0
      exact (BitVec.msb_eq_getLsbD_last x).symm
    · exact dif_neg (by omega)
  rw [hsign]
  cases h : x.msb
  · simp
  · simp [-BitVec.reduceAllOnes]

theorem toBitVec_zigzag (v : Int64) :
    (zigzag v).toBitVec = (v.toBitVec <<< 1) ^^^ v.toBitVec.sshiftRight 63 := by
  simp [zigzag]

theorem toBitVec_unzigzag (n : UInt64) :
    (unzigzag n).toBitVec = (n.toBitVec >>> 1) ^^^ -(n.toBitVec &&& 1#64) := by
  simp [unzigzag]

theorem toNat_zigzag (v : Int64) :
    ((zigzag v).toNat : Int) = if 0 ≤ v.toInt then 2 * v.toInt else -2 * v.toInt - 1 := by
  change ((zigzag v).toBitVec.toNat : Int) =
    if 0 ≤ v.toBitVec.toInt then 2 * v.toBitVec.toInt else -2 * v.toBitVec.toInt - 1
  rw [toBitVec_zigzag, sshiftRight_63]
  have hlt := v.toBitVec.isLt
  have hint := BitVec.toInt_eq_msb_cond v.toBitVec
  cases hsign : v.toBitVec.msb with
  | false =>
    have hhalf := BitVec.toNat_lt_of_msb_false hsign
    rw [if_neg (by simp [hsign])] at hint
    rw [if_neg Bool.false_ne_true, BitVec.xor_zero, BitVec.toNat_shiftLeft, Nat.shiftLeft_eq]
    omega
  | true =>
    have hhalf := BitVec.le_toNat_of_msb_true hsign
    rw [if_pos hsign] at hint
    rw [if_pos rfl, BitVec.xor_allOnes, BitVec.toNat_not, BitVec.toNat_shiftLeft, Nat.shiftLeft_eq]
    omega

theorem toInt_unzigzag (n : UInt64) :
    (unzigzag n).toInt =
      if n.toNat % 2 = 0 then (n.toNat / 2 : Int) else -(n.toNat / 2 : Int) - 1 := by
  change (unzigzag n).toBitVec.toInt = if n.toBitVec.toNat % 2 = 0 then
    (n.toBitVec.toNat / 2 : Int) else -(n.toBitVec.toNat / 2 : Int) - 1
  have hlt := n.toBitVec.isLt
  have hhalf : (n.toBitVec >>> 1).toNat = n.toBitVec.toNat / 2 := by
    rw [BitVec.toNat_ushiftRight, Nat.shiftRight_eq_div_pow]
  have hlow : n.toBitVec &&& 1#64 = BitVec.ofNat 64 (n.toBitVec.toNat % 2) := by
    apply BitVec.eq_of_toNat_eq
    change n.toBitVec.toNat &&& 1 = n.toBitVec.toNat % 2 % 2 ^ 64
    rw [Nat.and_one_is_mod, Nat.mod_eq_of_lt (by omega : n.toBitVec.toNat % 2 < 2 ^ 64)]
  rw [toBitVec_unzigzag, hlow]
  obtain heven | hodd := Nat.mod_two_eq_zero_or_one n.toBitVec.toNat
  · rw [if_pos heven, heven, BitVec.neg_zero, BitVec.xor_zero, BitVec.toInt_eq_toNat_cond, hhalf]
    omega
  · have hone : -1#64 = BitVec.allOnes 64 := by decide
    rw [if_neg (by omega), hodd, hone, BitVec.xor_allOnes, BitVec.toInt_eq_toNat_cond,
      BitVec.toNat_not, hhalf]
    omega

theorem unzigzag_zigzag (v : Int64) : unzigzag (zigzag v) = v := by
  apply Int64.toInt_inj.1
  have hcode := toNat_zigzag v
  have hvalue := toInt_unzigzag (zigzag v)
  omega

theorem zigzag_unzigzag (n : UInt64) : zigzag (unzigzag n) = n := by
  apply UInt64.toNat_inj.1
  have hvalue := toInt_unzigzag n
  have hcode := toNat_zigzag (unzigzag n)
  omega

end TxnDeps
