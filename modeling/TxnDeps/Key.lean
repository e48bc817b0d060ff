import TxnDeps.Bytes
import TxnDeps.Sorted

namespace TxnDeps

open Std (TransOrd LawfulEqOrd TransCmp)

structure TableId where
  value : BitVec 128
  deriving DecidableEq, Inhabited

namespace TableId

def order : TableId → TableId → Ordering := compareOn value

instance : Ord TableId := ⟨order⟩

instance : TransOrd TableId := inferInstanceAs (TransCmp (compareOn value))

instance : LawfulEqOrd TableId where
  compare_self {t} := by
    show order t t = .eq
    simp [order, compareOn]
  eq_of_compare {s t} h := by
    replace h : order s t = .eq := h
    simp only [order, compareOn, LawfulEqOrd.compare_eq_iff_eq] at h
    cases s; cases t
    simp_all

def ofNat (n : Nat) : TableId := ⟨BitVec.ofNat 128 n⟩

def bytes (t : TableId) : Bytes := Bytes.bigEndian 16 t.value.toNat

def ofBytes (bytes : Bytes) : TableId := ofNat (Bytes.ofBigEndian bytes)

theorem ofBytes_bytes (t : TableId) : ofBytes t.bytes = t := by
  have bound : t.value.toNat < Bytes.capacity 16 := t.value.isLt
  rw [ofBytes, bytes, Bytes.ofBigEndian_bigEndian, Nat.mod_eq_of_lt bound]
  simp [ofNat]

/-- Thirty-two digits in groups of 8, 4, 4, 4 and 12. -/
def text (t : TableId) : String :=
  let digits := t.bytes.hexDigits
  let group (skip take : Nat) := String.ofList ((digits.drop skip).take take)
  "-".intercalate [group 0 8, group 8 4, group 12 4, group 16 4, group 20 12]

instance : Outline TableId := ⟨fun t => Outline.tagged "TableId" t.text⟩

end TableId

inductive KeyKind where
  | min
  | token (value : Int64)
  | max
  deriving DecidableEq, Inhabited

namespace KeyKind

def side : KeyKind → Nat
  | min => 0
  | token _ => 1
  | max => 2

def value? : KeyKind → Option Int64
  | token v => some v
  | _ => none

def order : KeyKind → KeyKind → Ordering :=
  compareLex (compareOn side) (compareOn fun k => k.value?.getD 0)

instance : Ord KeyKind := ⟨order⟩

instance : TransOrd KeyKind :=
  inferInstanceAs (TransCmp (compareLex (compareOn side) (compareOn fun k => k.value?.getD 0)))

instance : LawfulEqOrd KeyKind where
  compare_self {k} := by
    show order k k = .eq
    simp [order, compareLex, compareOn]
  eq_of_compare {j k} h := by
    replace h : order j k = .eq := h
    simp only [order, compareLex_eq_eq, compareOn, LawfulEqOrd.compare_eq_iff_eq] at h
    cases j <;> cases k <;> simp_all [side, value?]

instance : Outline KeyKind where
  outline
    | min => "MinSentinel"
    | token v => Outline.tagged "Token" (outline v)
    | max => "MaxSentinel"

end KeyKind

/-- Ordered by table, then by place in the ring. -/
structure RoutingKey where
  table : TableId
  kind : KeyKind
  deriving DecidableEq, Inhabited

namespace RoutingKey

def min (table : TableId) : RoutingKey := ⟨table, .min⟩
def token (table : TableId) (value : Int64) : RoutingKey := ⟨table, .token value⟩
def max (table : TableId) : RoutingKey := ⟨table, .max⟩

def order : RoutingKey → RoutingKey → Ordering :=
  compareLex (compareOn table) (compareOn kind)

instance : Ord RoutingKey := ⟨order⟩

instance : TransOrd RoutingKey :=
  inferInstanceAs (TransCmp (compareLex (compareOn table) (compareOn kind)))

instance : LawfulEqOrd RoutingKey where
  compare_self {k} := by
    show order k k = .eq
    simp [order, compareLex, compareOn]
  eq_of_compare {j k} h := by
    replace h : order j k = .eq := h
    simp only [order, compareLex_eq_eq, compareOn, LawfulEqOrd.compare_eq_iff_eq] at h
    cases j; cases k
    simp_all

instance : LT RoutingKey := ltOfOrd
instance : LE RoutingKey := leOfOrd

def isSentinel (k : RoutingKey) : Bool := k.kind.value?.isNone

def tokenValue? (k : RoutingKey) : Option Int64 := k.kind.value?

def text (k : RoutingKey) : String :=
  k.table.text ++ ":" ++
    match k.kind with
    | .min => "-inf"
    | .token v => toString v
    | .max => "+inf"

instance : Outline RoutingKey where
  outline k := Outline.fields "RoutingKey" [("table", outline k.table), ("kind", outline k.kind)]

end RoutingKey

abbrev RoutingKeys := SortedList RoutingKey

inductive Domain where
  | key
  | range
  deriving DecidableEq, Inhabited

instance : Outline Domain where
  outline
    | .key => "Key"
    | .range => "Range"

end TxnDeps
