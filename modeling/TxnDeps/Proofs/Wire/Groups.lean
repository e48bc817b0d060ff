import Mathlib.Algebra.BigOperators.Ring.List
import Mathlib.Algebra.Ring.Nat
import Mathlib.Data.Nat.Bitwise
import TxnDeps.Proofs.Wire.Spelling
import TxnDeps.Wire.Groups

namespace TxnDeps

namespace Uvarint

def total (bytes : Bytes) : Nat := (bytes.mapIdx fun i b => b.toNat % 128 * 128 ^ i).sum

@[simp]
theorem total_cons (b : UInt8) (bytes : Bytes) :
    total (b :: bytes) = b.toNat % 128 + 128 * total bytes := by
  have hlater : (bytes.mapIdx fun i b => b.toNat % 128 * 128 ^ (i + 1)) =
      (bytes.mapIdx fun i b => b.toNat % 128 * 128 ^ i).map (128 * ·) := by
    refine List.ext_getElem? fun i => ?_
    rw [List.getElem?_map, List.getElem?_mapIdx, List.getElem?_mapIdx, Option.map_map]
    refine congrArg (bytes[i]?.map ·) (funext fun b => ?_)
    rw [Function.comp_apply, Nat.pow_succ', Nat.mul_left_comm]
  rw [total, List.mapIdx_cons, List.sum_cons, Nat.pow_zero, Nat.mul_one, hlater,
    List.sum_map_mul_left, List.map_id']
  rfl

/-- A number of at most `groups` groups, the last of which has one bit at most, ends at place
`i`. -/
structure EndsAt (groups : Nat) (bytes : Bytes) (i : Nat) : Prop where
  short : i < groups
  marked : ∀ j < i, ∀ b, bytes[j]? = some b → 128 ≤ b
  clear : ∃ b, bytes[i]? = some b ∧ b < 128 ∧ (i + 1 = groups → b ≤ 1)

namespace EndsAt

variable {groups i : Nat} {b : UInt8} {bytes : Bytes}

theorem zero_iff : EndsAt (groups + 1) (b :: bytes) 0 ↔ b < 128 ∧ (groups = 0 → b ≤ 1) := by
  constructor
  · rintro ⟨-, -, b', hb', hclear, hlast⟩
    cases hb'
    exact ⟨hclear, fun h => hlast (by omega)⟩
  · rintro ⟨hclear, hlast⟩
    exact ⟨Nat.succ_pos _, nofun, b, rfl, hclear, fun h => hlast (by omega)⟩

theorem succ_iff :
    EndsAt (groups + 1) (b :: bytes) (i + 1) ↔ 128 ≤ b ∧ EndsAt groups bytes i := by
  constructor
  · rintro ⟨hshort, hmarked, b', hb', hclear, hlast⟩
    refine ⟨hmarked 0 (Nat.succ_pos i) b rfl, Nat.lt_of_succ_lt_succ hshort, ?_, b', hb', hclear,
      fun h => hlast (by omega)⟩
    exact fun j hj => hmarked (j + 1) (Nat.succ_lt_succ hj)
  · rintro ⟨hb, hshort, hmarked, b', hb', hclear, hlast⟩
    refine ⟨Nat.succ_lt_succ hshort, ?_, b', hb', hclear, fun h => hlast (by omega)⟩
    rintro (_ | j) hj b₁ hb₁
    · cases hb₁
      exact hb
    · exact hmarked j (Nat.lt_of_succ_lt_succ hj) b₁ hb₁

theorem not_nil : ¬EndsAt groups [] i := by
  rintro ⟨-, -, _, hb, -⟩
  cases hb

end EndsAt

end Uvarint

namespace Reader

open Uvarint (EndsAt total)

theorem run_uvarintFrom_group {groups shift value : Nat} {b : UInt8} (start : Nat) (rest : Bytes)
    (position : Nat) (hshift : 7 * groups + shift = 63) (hvalue : value < 2 ^ shift)
    (hlast : ¬(groups = 0 ∧ 1 < b)) :
    (uvarintFrom start (groups + 1) shift value).run ⟨b :: rest, position⟩ =
      if b < 128 then (.ok (value + b.toNat % 128 * 2 ^ shift), ⟨rest, position + 1⟩)
      else (uvarintFrom start groups (shift + 7) (value + b.toNat % 128 * 2 ^ shift)).run
        ⟨rest, position + 1⟩ := by
  have hbyte : byte.run ⟨b :: rest, position⟩ = (.ok b, ⟨rest, position + 1⟩) := rfl
  rw [uvarintFrom, Step.run_bind_of_ok hbyte, if_neg hlast, shiftLeft_group hshift hlast]
  change (if b < 128 then pure (value ||| b.toNat % 128 * 2 ^ shift)
    else uvarintFrom start groups (shift + 7) (value ||| b.toNat % 128 * 2 ^ shift)).run _ = _
  rw [Uvarint.or_eq_add hvalue, apply_ite Step.run, ite_apply, Step.run_pure]

theorem run_uvarintFrom_overflow {b : UInt8} (start shift value : Nat) (rest : Bytes)
    (position : Nat) (h : 1 < b) :
    (uvarintFrom start 1 shift value).run ⟨b :: rest, position⟩ =
      (.error (.failed ⟨start, .varintOverflow⟩), ⟨rest, position + 1⟩) := by
  have hbyte : byte.run ⟨b :: rest, position⟩ = (.ok b, ⟨rest, position + 1⟩) := rfl
  rw [uvarintFrom, Step.run_bind_of_ok hbyte, if_pos ⟨rfl, h⟩]
  rfl

theorem run_uvarintFrom_of_endsAt {groups shift value i : Nat} {rest : Bytes}
    (start position : Nat) (hshift : 7 * groups + shift = 70) (hvalue : value < 2 ^ shift)
    (h : EndsAt groups rest i) :
    (uvarintFrom start groups shift value).run ⟨rest, position⟩ =
      (.ok (value + total (rest.take (i + 1)) * 2 ^ shift),
        ⟨rest.drop (i + 1), position + (i + 1)⟩) := by
  induction i generalizing groups shift value rest position with
  | zero =>
    obtain _ | ⟨b, rest⟩ := rest
    · exact absurd h EndsAt.not_nil
    obtain _ | groups := groups
    · exact absurd h.short (Nat.not_lt_zero 0)
    obtain ⟨hclear, hfit⟩ := EndsAt.zero_iff.1 h
    have hlast : ¬(groups = 0 ∧ 1 < b) := fun hno => absurd (hfit hno.1) (UInt8.not_le.2 hno.2)
    have htotal : total [b] = b.toNat % 128 := by simp [total]
    rw [run_uvarintFrom_group start rest position (by omega) hvalue hlast, if_pos hclear,
      List.take_succ_cons, List.take_zero, htotal]
    rfl
  | succ i ih =>
    obtain _ | ⟨b, rest⟩ := rest
    · exact absurd h EndsAt.not_nil
    obtain _ | groups := groups
    · exact absurd h.short (Nat.not_lt_zero _)
    obtain ⟨hmarked, hrest⟩ := EndsAt.succ_iff.1 h
    have hlast : ¬(groups = 0 ∧ 1 < b) := fun hno => absurd hrest.short (by omega)
    have hmore := ih (position + 1) (by omega)
      (Uvarint.add_lowest_group_lt b.toNat hvalue) hrest
    rw [run_uvarintFrom_group start rest position (by omega) hvalue hlast,
      if_neg (UInt8.not_lt.2 hmarked), hmore, List.take_succ_cons, Uvarint.total_cons,
      List.drop_succ_cons]
    have hgroups : (b.toNat % 128 + 128 * total (rest.take (i + 1))) * 2 ^ shift =
        b.toNat % 128 * 2 ^ shift + total (rest.take (i + 1)) * 2 ^ (shift + 7) := by
      rw [Nat.pow_add, Nat.add_mul, Nat.mul_assoc, Nat.mul_comm 128, Nat.mul_assoc]
    rw [hgroups, Nat.add_assoc value, Nat.add_right_comm position 1 (i + 1), Nat.add_assoc position]

/-- The reader looks at all the bytes that are there, or at one too large for its place. -/
theorem run_uvarintFrom_of_not_endsAt {groups shift value : Nat} {rest : Bytes}
    (start position : Nat) (hshift : 7 * (groups + 1) + shift = 70) (hvalue : value < 2 ^ shift)
    (h : ¬∃ i, EndsAt (groups + 1) rest i) :
    ∃ fault c, (uvarintFrom start (groups + 1) shift value).run ⟨rest, position⟩ =
        (.error (.failed fault), c) ∧
      (fault = ⟨start, .varintOverflow⟩ ∨ fault = ⟨position + rest.length, .endOfBuffer 1 0⟩) := by
  induction rest generalizing groups shift value position with
  | nil => exact ⟨_, _, rfl, .inr rfl⟩
  | cons b rest ih =>
    by_cases hlast : groups = 0 ∧ 1 < b
    · obtain ⟨rfl, hb⟩ := hlast
      exact ⟨_, _, run_uvarintFrom_overflow start shift value rest position hb, .inl rfl⟩
    · have hmarked : ¬b < 128 := fun hclear =>
        h ⟨0, EndsAt.zero_iff.2 ⟨hclear, fun hg => UInt8.not_lt.1 fun hb => hlast ⟨hg, hb⟩⟩⟩
      obtain _ | groups := groups
      · exact absurd (UInt8.not_lt.1 fun hb => hlast ⟨rfl, hb⟩)
          fun hb => hmarked (UInt8.lt_of_le_of_lt hb (by decide))
      obtain ⟨fault, c, hrun, hfault⟩ := ih (position + 1) (by omega)
        (Uvarint.add_lowest_group_lt b.toNat hvalue)
        fun ⟨i, hi⟩ => h ⟨i + 1, EndsAt.succ_iff.2 ⟨UInt8.not_lt.1 hmarked, hi⟩⟩
      rw [run_uvarintFrom_group start rest position (by omega) hvalue hlast, if_neg hmarked]
      refine ⟨fault, c, hrun, ?_⟩
      rwa [List.length_cons, ← Nat.add_assoc, Nat.add_right_comm]

end Reader

namespace Walk

open Uvarint (EndsAt total)

theorem toNat_lowest_group (value : UInt64) :
    (value &&& 0x7F).toUInt8 = UInt8.ofNat (value.toNat % 128) := by
  have hlow : (value &&& 0x7F).toNat = value.toNat % 128 := by
    rw [UInt64.toNat_and]
    exact Nat.and_two_pow_sub_one_eq_mod value.toNat 7
  rw [← UInt8.toNat_inj, UInt64.toNat_toUInt8, hlow]
  rfl

theorem mark_group {n : Nat} (h : n < 128) : UInt8.ofNat n ||| 0x80 = UInt8.ofNat (n + 128) := by
  have hor : n ||| 1 * 2 ^ 7 = n + 1 * 2 ^ 7 := Uvarint.or_eq_add h
  rw [← UInt8.toNat_inj, UInt8.toNat_or, UInt8.toNat_ofNat', UInt8.toNat_ofNat',
    Nat.mod_eq_of_lt (by omega : n < 2 ^ 8), Nat.mod_eq_of_lt (by omega : n + 128 < 2 ^ 8)]
  exact hor

theorem toNat_and_group (b : UInt8) : (b &&& 0x7F).toNat = b.toNat % 128 := by
  rw [UInt8.toNat_and]
  exact Nat.and_two_pow_sub_one_eq_mod b.toNat 7

theorem unmarked_iff (b : UInt8) : b &&& 0x80 = 0 ↔ b < 128 := by
  have hbyte := b.toNat_lt
  have hmark : b.toNat &&& 128 = b.toNat / 128 * 128 := by
    have hbit : (b.toNat.testBit 7).toNat = b.toNat / 128 := by
      rw [Nat.toNat_testBit]
      omega
    rw [← hbit]
    exact Nat.and_two_pow b.toNat 7
  rw [← UInt8.toNat_inj, UInt8.toNat_and, UInt8.lt_iff_toNat_lt]
  change b.toNat &&& 128 = 0 ↔ b.toNat < 128
  omega

theorem putUvarint_eq (value : UInt64) (out : Bytes) :
    putUvarint value out = out ++ Uvarint.encode value.toNat := by
  induction value, out using putUvarint.induct with
  | case1 value out hdone =>
    have hlt : value.toNat < 128 := by
      rw [← UInt64.toNat_inj, toNat_shiftRight_seven] at hdone
      exact Nat.lt_of_div_eq_zero (by decide) hdone
    rw [putUvarint, if_pos hdone, toNat_lowest_group, Nat.mod_eq_of_lt hlt,
      Uvarint.encode_of_lt hlt]
  | case2 value out group hmore ih =>
    have hle : 128 ≤ value.toNat := by
      rw [← UInt64.toNat_inj, toNat_shiftRight_seven] at hmore
      exact Nat.not_lt.1 fun hlt => hmore (Nat.div_eq_of_lt hlt)
    rw [putUvarint, if_neg hmore, ih, toNat_shiftRight_seven, Uvarint.encode_of_le hle]
    change out ++ [(value &&& 0x7F).toUInt8 ||| 0x80] ++ _ = _
    rw [toNat_lowest_group, mark_group (Nat.mod_lt _ (by decide)), List.append_assoc]
    rfl

theorem uvarintSize_eq {ε : Type} (value : UInt64) :
    (uvarintSize value : Except (Halt ε) Nat) = .ok (Uvarint.size value.toNat) := by
  have hle : value.toBitVec.clz.toNat ≤ 64 := BitVec.clz_le
  rw [uvarintSize, Halt.minus_eq_ok hle]
  refine congrArg Except.ok ?_
  by_cases hzero : value = 0
  · subst hzero
    decide
  · have hbits : value.toBitVec ≠ 0#64 := fun h => hzero (UInt64.toBitVec_inj.1 h)
    have hlt : value.toBitVec.clz.toNat < 64 := BitVec.clz_lt_iff_ne_zero.2 hbits
    have hlow := BitVec.two_pow_sub_clz_le_toNat_of_ne_zero (by decide) hbits
    have hhigh := value.toBitVec.toNat_lt_two_pow_sub_clz
    have hlog : value.toNat.log2 = 63 - value.toBitVec.clz.toNat := by
      rw [Nat.log2_eq_iff fun h => hzero (UInt64.toNat_inj.1 h)]
      refine ⟨hlow, ?_⟩
      rwa [← Nat.sub_add_comm (by omega)]
    rw [Uvarint.size, hlog]
    omega

theorem readUvarintFrom_eq {groups shift : Nat} (start : Nat) (value : UInt64)
    (hshift : 7 * groups + shift = 70) :
    (if 63 < shift then Reader.failAt start .varintLength else readUvarintFrom start shift value) =
      UInt64.ofNat <$> Reader.uvarintFrom start groups shift value.toNat := by
  induction groups generalizing shift value with
  | zero =>
    rw [if_pos (by omega)]
    rfl
  | succ groups ih =>
    rw [if_neg (by omega), readUvarintFrom, Reader.uvarintFrom, Step.map_bind]
    refine congrArg (Reader.byte >>= ·) (funext fun b => ?_)
    have htenth : (shift = 63 ∧ 1 < b) ↔ (groups = 0 ∧ 1 < b) := and_congr_left' (by omega)
    by_cases hlast : groups = 0 ∧ 1 < b
    · rw [if_pos hlast, if_pos (htenth.2 hlast)]
      rfl
    · have hplace : 7 * groups + shift = 63 := by omega
      have hbits := Reader.shiftLeft_group hplace hlast
      have hlt := (Halt.safe_shiftLeft (b.toNat % 128) (by omega)).of_ok hbits
      -- How the bits of the group were moved up does not matter any more.
      generalize b.toNat % 128 * 2 ^ shift = bits at hbits hlt
      have hword : (value ||| UInt64.ofNat bits).toNat = value.toNat ||| bits := by
        rw [UInt64.toNat_or, UInt64.toNat_ofNat_of_lt' hlt]
      rw [if_neg hlast, if_neg (mt htenth.1 hlast), toNat_and_group, hbits]
      change (if b &&& 0x80 = 0 then pure (value ||| UInt64.ofNat bits)
        else if 63 < shift + 7 then Reader.failAt start .varintLength
          else readUvarintFrom start (shift + 7) (value ||| UInt64.ofNat bits)) =
        UInt64.ofNat <$> (if b < 128 then pure (value.toNat ||| bits)
          else Reader.uvarintFrom start groups (shift + 7) (value.toNat ||| bits))
      rw [ih _ (by omega), hword]
      by_cases hclear : b < 128
      · rw [if_pos hclear, if_pos ((unmarked_iff b).2 hclear), ← hword]
        change _ = pure (UInt64.ofNat _)
        rw [UInt64.ofNat_toNat]
      · rw [if_neg hclear, if_neg (mt (unmarked_iff b).1 hclear)]

theorem readUvarint_eq : readUvarint = UInt64.ofNat <$> Reader.uvarint := by
  have hloop : ∀ start,
      readUvarintFrom start 0 0 = UInt64.ofNat <$> Reader.uvarintFrom start 10 0 0 :=
    fun start => (if_neg (by decide)).symm.trans (readUvarintFrom_eq start 0 rfl)
  rw [readUvarint, Reader.uvarint, Step.map_bind]
  exact congrArg (Reader.position >>= ·) (funext hloop)

theorem run_readUvarint_encode (value : UInt64) (suffix : Bytes) (position : Nat) :
    readUvarint.run ⟨Uvarint.encode value.toNat ++ suffix, position⟩ =
      (.ok value, ⟨suffix, position + (Uvarint.encode value.toNat).length⟩) := by
  have hread := (Reader.reads_uvarint value.toNat_lt).run_cursor suffix position
  rw [readUvarint_eq, Step.run_map_of_ok hread, UInt64.ofNat_toNat]

/-- Of the bytes that are read as the number, those that are written of it are the fewest. -/
theorem eq_encode_or_lt_of_run_readUvarint {value : UInt64} {word suffix : Bytes}
    {position : Nat} (h : readUvarint.run ⟨word ++ suffix, position⟩ =
      (.ok value, ⟨suffix, position + word.length⟩)) :
    word = Uvarint.encode value.toNat ∨
      (Uvarint.encode value.toNat).length < word.length := by
  rw [readUvarint_eq] at h
  obtain ⟨n, c, hrun, hn⟩ := Step.exists_of_run_bind h
  cases hn
  have hlt := Reader.safe_uvarint ⟨word ++ suffix, position⟩
  rw [hrun] at hlt
  obtain ⟨word', hspells, hpasses⟩ := Reader.exists_spells_of_uvarint hrun
  have hword : word = word' := List.append_cancel_right hpasses.rest
  subst hword
  rw [UInt64.toNat_ofNat_of_lt' hlt]
  exact hspells.eq_encode_or_lt

theorem run_readUvarint_of_endsAt {bytes : Bytes} {i : Nat} (position : Nat)
    (h : EndsAt 10 bytes i) :
    total (bytes.take (i + 1)) < 2 ^ 64 ∧
      readUvarint.run ⟨bytes, position⟩ =
        (.ok (UInt64.ofNat (total (bytes.take (i + 1)))),
          ⟨bytes.drop (i + 1), position + (i + 1)⟩) := by
  have hrun : Reader.uvarint.run ⟨bytes, position⟩ =
      (.ok (total (bytes.take (i + 1))), ⟨bytes.drop (i + 1), position + (i + 1)⟩) := by
    rw [Reader.uvarint, Reader.run_position_bind,
      Reader.run_uvarintFrom_of_endsAt position position rfl Nat.one_pos h, Nat.pow_zero,
      Nat.mul_one, Nat.zero_add]
  have hlt := Reader.safe_uvarint ⟨bytes, position⟩
  rw [hrun] at hlt
  refine ⟨hlt, ?_⟩
  rw [readUvarint_eq, Step.run_map_of_ok hrun]

theorem run_readUvarint_of_not_endsAt {bytes : Bytes} (position : Nat)
    (h : ¬∃ i, EndsAt 10 bytes i) :
    ∃ fault c, readUvarint.run ⟨bytes, position⟩ = (.error (.failed fault), c) ∧
      (fault = ⟨position, .varintOverflow⟩ ∨
        fault = ⟨position + bytes.length, .endOfBuffer 1 0⟩) := by
  have hvalue : 0 < 2 ^ 0 := Nat.one_pos
  obtain ⟨fault, c, hloop, hfault⟩ :=
    Reader.run_uvarintFrom_of_not_endsAt position position rfl hvalue h
  have hrun : Reader.uvarint.run ⟨bytes, position⟩ = (.error (.failed fault), c) := by
    rw [Reader.uvarint, Reader.run_position_bind, hloop]
  refine ⟨fault, c, ?_, hfault⟩
  rw [readUvarint_eq, Step.run_map_of_error hrun]

/-- The words of 64 bits and their language. What is written of a word has the size that is told of
it, is read back wherever it stands, and is the shortest of all that are read as the word. Bytes are
read if a number ends in them, as the sum of its groups and no further than to its end, and in all
other cases they are a fault of the data, but never the fault of an eleventh group. -/
theorem uvarint_language :
    (∀ value : UInt64,
      (∀ out, putUvarint value out = out ++ Uvarint.encode value.toNat) ∧
      (uvarintSize value : Except (Halt Fault) Nat) =
        .ok (Uvarint.encode value.toNat).length ∧
      (∀ suffix position,
        readUvarint.run ⟨Uvarint.encode value.toNat ++ suffix, position⟩ =
          (.ok value, ⟨suffix, position + (Uvarint.encode value.toNat).length⟩)) ∧
      ∀ word suffix position,
        readUvarint.run ⟨word ++ suffix, position⟩ =
          (.ok value, ⟨suffix, position + word.length⟩) →
        word = Uvarint.encode value.toNat ∨
          (Uvarint.encode value.toNat).length < word.length) ∧
    readUvarint = UInt64.ofNat <$> Reader.uvarint ∧
    ∀ (bytes : Bytes) (position : Nat),
      (∀ i, EndsAt 10 bytes i →
        total (bytes.take (i + 1)) < 2 ^ 64 ∧
          readUvarint.run ⟨bytes, position⟩ =
            (.ok (UInt64.ofNat (total (bytes.take (i + 1)))),
              ⟨bytes.drop (i + 1), position + (i + 1)⟩)) ∧
      ((¬∃ i, EndsAt 10 bytes i) → ∃ fault c,
        readUvarint.run ⟨bytes, position⟩ = (.error (.failed fault), c) ∧
          (fault = ⟨position, .varintOverflow⟩ ∨
            fault = ⟨position + bytes.length, .endOfBuffer 1 0⟩)) ∧
      ∀ offset, (readUvarint.run ⟨bytes, position⟩).1 ≠
        .error (.failed ⟨offset, .varintLength⟩) := by
  refine ⟨fun value => ⟨putUvarint_eq value, ?_, run_readUvarint_encode value,
    fun _ _ _ => eq_encode_or_lt_of_run_readUvarint⟩, readUvarint_eq, fun bytes position =>
    ⟨fun i => run_readUvarint_of_endsAt position, run_readUvarint_of_not_endsAt position, ?_⟩⟩
  · rw [uvarintSize_eq, Uvarint.length_encode]
  · intro offset hlength
    by_cases hends : ∃ i, EndsAt 10 bytes i
    · obtain ⟨i, hi⟩ := hends
      rw [(run_readUvarint_of_endsAt position hi).2] at hlength
      cases hlength
    · obtain ⟨fault, c, hrun, rfl | rfl⟩ := run_readUvarint_of_not_endsAt position hends
      · rw [hrun] at hlength
        cases hlength
      · rw [hrun] at hlength
        cases hlength

/-- The number one with an empty group behind it is read as one. -/
theorem uvarint_language_padded :
    EndsAt 10 [0x81, 0, 7] 1 ∧
      readUvarint.run ⟨[0x81, 0, 7], 0⟩ = (.ok 1, ⟨[7], 2⟩) := by
  have hends : EndsAt 10 [0x81, 0, 7] 1 :=
    EndsAt.succ_iff.2 ⟨by decide, EndsAt.zero_iff.2 ⟨by decide, by decide⟩⟩
  exact ⟨hends, ((uvarint_language.2.2 _ 0).1 1 hends).2⟩

end Walk

end TxnDeps
