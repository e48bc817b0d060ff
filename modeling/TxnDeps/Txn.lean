import TxnDeps.Text.Outline

namespace TxnDeps

open Std (TransOrd LawfulEqOrd TransCmp)

/-- Ordered by epoch, then logical clock, then flags, then node. -/
structure TxnId where
  epoch : UInt64
  clock : UInt64
  flags : UInt16
  node : UInt32
  deriving DecidableEq, Inhabited

namespace TxnId

/-- The id that stands for no transaction. -/
def none : TxnId := ⟨0, 0, 0, 0⟩

def isNone (t : TxnId) : Bool := t = none

def order : TxnId → TxnId → Ordering :=
  compareLex (compareOn epoch) <| compareLex (compareOn clock) <|
    compareLex (compareOn flags) (compareOn node)

instance : Ord TxnId := ⟨order⟩

instance : TransOrd TxnId :=
  inferInstanceAs (TransCmp (compareLex (compareOn epoch) <| compareLex (compareOn clock) <|
    compareLex (compareOn flags) (compareOn node)))

instance : LawfulEqOrd TxnId where
  compare_self {t} := by
    show order t t = .eq
    simp [order, compareLex, compareOn]
  eq_of_compare {s t} h := by
    replace h : order s t = .eq := h
    simp only [order, compareLex_eq_eq, compareOn, LawfulEqOrd.compare_eq_iff_eq] at h
    cases s; cases t
    simp_all

def text (t : TxnId) : String :=
  "[" ++ ",".intercalate [toString t.epoch, toString t.clock, toString t.flags, toString t.node]
    ++ "]"

instance : Outline TxnId where
  outline t := Outline.fields "TxnId" [("epoch", outline t.epoch), ("hlc", outline t.clock),
    ("flags", outline t.flags), ("node", outline t.node)]

end TxnId

structure Ballot where
  counter : UInt64
  node : UInt32
  deriving DecidableEq, Inhabited

namespace Ballot

def zero : Ballot := ⟨0, 0⟩

def order : Ballot → Ballot → Ordering :=
  compareLex (compareOn counter) (compareOn node)

instance : Ord Ballot := ⟨order⟩

instance : Outline Ballot where
  outline b := Outline.fields "Ballot" [("counter", outline b.counter), ("node", outline b.node)]

end Ballot

end TxnDeps
