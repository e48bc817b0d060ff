import Mathlib.Data.List.Forall2
import TxnDeps.Proofs.Wire.Uvarint

namespace TxnDeps

namespace Uvarint

/-- The bytes are groups of seven bits that make up the number. -/
inductive Spells : Bytes → Nat → Prop
  | last {b : UInt8} (h : b.toNat < 128) : Spells [b] b.toNat
  | more {b : UInt8} {bytes : Bytes} {n : Nat} (h : 128 ≤ b.toNat) (rest : Spells bytes n) :
      Spells (b :: bytes) (b.toNat % 128 + 128 * n)

namespace Spells

variable {bytes : Bytes} {n : Nat}

theorem length_pos (h : Spells bytes n) : 0 < bytes.length := by
  cases h <;> exact Nat.succ_pos _

theorem eq_encode_or_lt (h : Spells bytes n) :
    bytes = encode n ∨ (encode n).length < bytes.length := by
  induction h with
  | last h => exact .inl (by rw [encode_of_lt h, UInt8.ofNat_toNat])
  | @more b bytes n h rest ih =>
    have hbyte := b.toNat_lt
    by_cases hn : b.toNat % 128 + 128 * n < 128
    · -- There are no bits in the groups above the first.
      rw [encode_of_lt hn]
      exact .inr (Nat.succ_lt_succ rest.length_pos)
    · have hhead : UInt8.ofNat ((b.toNat % 128 + 128 * n) % 128 + 128) = b := by
        rw [← UInt8.toNat_inj, toNat_more]
        omega
      have htail : (b.toNat % 128 + 128 * n) / 128 = n := by omega
      rw [encode_of_le (Nat.not_lt.1 hn), hhead, htail, List.length_cons, List.length_cons]
      exact ih.imp (congrArg (b :: ·)) Nat.succ_lt_succ

theorem length_encode_le (h : Spells bytes n) : (encode n).length ≤ bytes.length := by
  obtain rfl | hlt := h.eq_encode_or_lt
  · exact Nat.le_refl _
  · exact Nat.le_of_lt hlt

end Spells

theorem flatten_eq_flatMap_encode_or_lt {words : List Bytes} {numbers : List Nat}
    (h : List.Forall₂ Spells words numbers) :
    words.flatten = numbers.flatMap encode ∨
      (numbers.flatMap encode).length < words.flatten.length := by
  induction h with
  | nil => exact .inl rfl
  | @cons word n words numbers hword hrest ih =>
    rw [List.flatten_cons, List.flatMap_cons, List.length_append, List.length_append]
    have hle := hword.length_encode_le
    obtain hrest | hrest := ih
    · obtain rfl | hlt := hword.eq_encode_or_lt
      · exact .inl (by rw [hrest])
      · exact .inr (by rw [hrest]; omega)
    · exact .inr (by omega)

end Uvarint

structure Cursor.Passes (c c' : Cursor) (bytes : Bytes) : Prop where
  rest : c.rest = bytes ++ c'.rest
  position : c'.position = c.position + bytes.length

def Cursor.Spells (c c' : Cursor) (numbers : List Nat) : Prop :=
  ∃ words, List.Forall₂ Uvarint.Spells words numbers ∧ c.Passes c' words.flatten

namespace Cursor

variable {c c' c'' : Cursor}

theorem Passes.trans {bytes bytes' : Bytes} (h : c.Passes c' bytes) (h' : c'.Passes c'' bytes') :
    c.Passes c'' (bytes ++ bytes') where
  rest := by rw [h.rest, h'.rest, List.append_assoc]
  position := by rw [h'.position, h.position, List.length_append, Nat.add_assoc]

theorem spells_nil (c : Cursor) : c.Spells c [] := ⟨[], .nil, rfl, rfl⟩

theorem Spells.cons {n : Nat} {numbers : List Nat} {word : Bytes} (hword : Uvarint.Spells word n)
    (h : c.Passes c' word) (h' : c'.Spells c'' numbers) : c.Spells c'' (n :: numbers) := by
  obtain ⟨words, hwords, hpasses⟩ := h'
  exact ⟨word :: words, .cons hword hwords, h.trans hpasses⟩

end Cursor

namespace Reader

theorem run_position_bind {α : Type} (next : Nat → Reader α) (c : Cursor) :
    (position >>= next).run c = (next c.position).run c := rfl

theorem passes_byte {c c' : Cursor} {b : UInt8} (h : byte.run c = (.ok b, c')) :
    c.Passes c' [b] := by
  obtain ⟨_ | ⟨b, rest⟩, position⟩ := c
  · cases h
  · cases h
    exact ⟨rfl, rfl⟩

/-- The groups that are left to read spell what is added to the groups before them. -/
theorem exists_spells_of_uvarintFrom {start groups shift value n : Nat} {c c' : Cursor}
    (hshift : 7 * groups + shift = 70) (hvalue : value < 2 ^ shift)
    (h : (uvarintFrom start groups shift value).run c = (.ok n, c')) :
    ∃ word m, Uvarint.Spells word m ∧ n = value + m * 2 ^ shift ∧ c.Passes c' word := by
  induction groups generalizing shift value c with
  | zero => cases h
  | succ groups ih =>
    rw [uvarintFrom] at h
    obtain ⟨b, c₁, hbyte, h⟩ := Step.exists_of_run_bind h
    have hpass := passes_byte hbyte
    split at h
    · cases h
    next hlast =>
      obtain ⟨bits, c₂, hbits, h⟩ := Step.exists_of_run_bind h
      rw [shiftLeft_group (by omega) hlast] at hbits
      cases hbits
      rw [Uvarint.or_eq_add hvalue] at h
      split at h
      · next hb =>
        have hb : b.toNat < 128 := UInt8.lt_iff_toNat_lt.1 hb
        cases h
        exact ⟨[b], b.toNat, .last hb, by rw [Nat.mod_eq_of_lt hb], hpass⟩
      · next hb =>
        rw [UInt8.lt_iff_toNat_lt] at hb
        have hb : 128 ≤ b.toNat := Nat.not_lt.1 hb
        obtain ⟨word, m, hword, rfl, hpasses⟩ :=
          ih (by omega) (Uvarint.add_lowest_group_lt b.toNat hvalue) h
        refine ⟨b :: word, _, .more hb hword, ?_, hpass.trans hpasses⟩
        rw [Nat.pow_add, Nat.add_mul, Nat.add_assoc, Nat.mul_comm (2 ^ shift), ← Nat.mul_assoc,
          Nat.mul_comm m]

theorem exists_spells_of_uvarint {n : Nat} {c c' : Cursor} (h : uvarint.run c = (.ok n, c')) :
    ∃ word, Uvarint.Spells word n ∧ c.Passes c' word := by
  rw [uvarint, run_position_bind] at h
  obtain ⟨word, m, hword, rfl, hpasses⟩ := exists_spells_of_uvarintFrom rfl Nat.one_pos h
  rw [Nat.pow_zero, Nat.mul_one, Nat.zero_add]
  exact ⟨word, hword, hpasses⟩

end Reader

end TxnDeps
