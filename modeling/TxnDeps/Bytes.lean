namespace TxnDeps

abbrev Bytes := List UInt8

namespace Bytes

def capacity : (width : Nat) → Nat
  | 0 => 1
  | width + 1 => 256 * capacity width

/-- The `width` low bytes of `n`. -/
def bigEndian : (width : Nat) → (n : Nat) → Bytes
  | 0, _ => []
  | width + 1, n => bigEndian width (n / 256) ++ [UInt8.ofNat n]

def ofBigEndian (bytes : Bytes) : Nat :=
  bytes.foldl (fun n byte => n * 256 + byte.toNat) 0

theorem length_bigEndian (width n : Nat) : (bigEndian width n).length = width := by
  induction width generalizing n with
  | zero => rfl
  | succ width ih => simp [bigEndian, ih]

theorem ofBigEndian_bigEndian (width n : Nat) :
    ofBigEndian (bigEndian width n) = n % capacity width := by
  induction width generalizing n with
  | zero => simp [bigEndian, ofBigEndian, capacity, Nat.mod_one]
  | succ width ih =>
    have step : ofBigEndian (bigEndian width (n / 256) ++ [UInt8.ofNat n])
        = ofBigEndian (bigEndian width (n / 256)) * 256 + n % 256 := by
      simp [ofBigEndian]
    rw [bigEndian, step, ih, capacity, Nat.mod_mul]
    omega

def totalSize {α : Type} (size : α → Nat) : List α → Nat
  | [] => 0
  | x :: xs => size x + totalSize size xs

theorem length_flatMap_eq_totalSize {α : Type} {encode : α → Bytes} {size : α → Nat} {xs : List α}
    (h : ∀ x ∈ xs, (encode x).length = size x) :
    (xs.flatMap encode).length = totalSize size xs := by
  induction xs with
  | nil => rfl
  | cons x xs ih =>
    rw [List.flatMap_cons, List.length_append, totalSize, h x List.mem_cons_self,
      ih fun y hy => h y (List.mem_cons_of_mem x hy)]

theorem totalSize_map {α β : Type} (f : α → β) (size : β → Nat) (xs : List α) :
    totalSize size (xs.map f) = totalSize (fun x => size (f x)) xs := by
  induction xs with
  | nil => rfl
  | cons x xs ih => rw [List.map_cons, totalSize, totalSize, ih]

theorem totalSize_le {α : Type} {size : α → Nat} {limit : Nat} {xs : List α}
    (h : ∀ x ∈ xs, size x ≤ limit) : totalSize size xs ≤ limit * xs.length := by
  induction xs with
  | nil => exact Nat.zero_le _
  | cons x xs ih =>
    rw [totalSize, List.length_cons, Nat.mul_succ, Nat.add_comm]
    exact Nat.add_le_add (ih fun y hy => h y (List.mem_cons_of_mem x hy)) (h x List.mem_cons_self)

theorem le_totalSize {α : Type} {size : α → Nat} {least : Nat} {xs : List α}
    (h : ∀ x ∈ xs, least ≤ size x) : least * xs.length ≤ totalSize size xs := by
  induction xs with
  | nil => exact Nat.le_refl _
  | cons x xs ih =>
    rw [totalSize, List.length_cons, Nat.mul_succ, Nat.add_comm]
    exact Nat.add_le_add (h x List.mem_cons_self) (ih fun y hy => h y (List.mem_cons_of_mem x hy))

/-- Splits off the first `n` bytes, if there are that many. -/
def split? : (n : Nat) → Bytes → Option (Bytes × Bytes)
  | 0, rest => some ([], rest)
  | _ + 1, [] => none
  | n + 1, byte :: rest => (split? n rest).map fun (taken, left) => (byte :: taken, left)

def hexDigits (bytes : Bytes) : List Char :=
  bytes.flatMap fun byte =>
    [Nat.digitChar (byte.toNat / 16), Nat.digitChar (byte.toNat % 16)]

def digitValue? (c : Char) : Option Nat :=
  if '0' ≤ c ∧ c ≤ '9' then some (c.toNat - '0'.toNat)
  else if 'a' ≤ c ∧ c ≤ 'f' then some (c.toNat - 'a'.toNat + 10)
  else none

def ofHexDigits? : List Char → Option Bytes
  | [] => some []
  | [_] => none
  | high :: low :: rest => do
    let h ← digitValue? high
    let l ← digitValue? low
    let bytes ← ofHexDigits? rest
    pure (UInt8.ofNat (h * 16 + l) :: bytes)

end Bytes

end TxnDeps
