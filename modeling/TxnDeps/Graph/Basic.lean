import TxnDeps.Graph.Shape

/-!
Dependency graphs: which transactions depend on each of a set of keys or ranges. A graph is kept as
three arrays, the form in which it is stored and sent; the views below read it by key, by
transaction and as a list of associations.
-/

namespace TxnDeps

/-- The transaction depends on the key. Ordered by key, then transaction. -/
structure Association (α : Type) where
  key : α
  txn : TxnId
  deriving DecidableEq

namespace Association

open Std (TransOrd LawfulEqOrd TransCmp)

variable {α : Type} [Ord α]

def order : Association α → Association α → Ordering :=
  compareLex (compareOn key) (compareOn txn)

instance : Ord (Association α) := ⟨order⟩

instance [TransOrd α] : TransOrd (Association α) :=
  inferInstanceAs (TransCmp (compareLex (compareOn key) (compareOn txn)))

instance [LawfulEqOrd α] : LawfulEqOrd (Association α) where
  compare_self {a} := by
    show order a a = .eq
    simp [order, compareLex, compareOn]
  eq_of_compare {a b} h := by
    replace h : order a b = .eq := h
    simp only [order, compareLex_eq_eq, compareOn, LawfulEqOrd.compare_eq_iff_eq] at h
    cases a; cases b
    simp_all

end Association

structure Graph (α : Type) [Ord α] where
  keys : SortedList α
  txnIds : List TxnId
  links : List UInt32
  deriving DecidableEq

namespace Graph

variable {α : Type} [Ord α]

def empty : Graph α := ⟨.empty, [], []⟩

instance : Inhabited (Graph α) := ⟨empty⟩

/-- Takes arrays of the right shape. The order of transactions and runs is not looked at. -/
def ofParts (keys : SortedList α) (txnIds : List TxnId) (links : List UInt32) :
    Except (Halt GraphDefect) (Graph α) :=
  match Links.checkShape keys.size txnIds.length links with
  | .ok () => .ok ⟨keys, txnIds, links⟩
  | .error halt => .error halt

def ofOrderedParts (keys : SortedList α) (txnIds : List TxnId) (links : List UInt32) :
    Except (Halt GraphDefect) (Graph α) :=
  match Links.checkOrder keys.size txnIds links with
  | .ok () => .ok ⟨keys, txnIds, links⟩
  | .error halt => .error halt

def isEmpty (g : Graph α) : Bool := g.keys.isEmpty

def size (g : Graph α) : Nat := g.links.length - g.keys.size

def run? (g : Graph α) (i : Nat) : Option (List UInt32) := Links.run? g.keys.size g.links i

def txnsOf? (g : Graph α) (run : List UInt32) : Option (List TxnId) :=
  run.mapM fun index => g.txnIds[index.toNat]?

def txnsAt? (g : Graph α) (i : Nat) : Option (List TxnId) :=
  match g.run? i with
  | some run => g.txnsOf? run
  | none => none

def runs (g : Graph α) : List (α × List UInt32) :=
  g.keys.toList.zipIdx.map fun (key, i) => (key, (g.run? i).getD [])

def entries (g : Graph α) : List (α × List TxnId) :=
  g.keys.toList.zipIdx.map fun (key, i) => (key, (g.txnsAt? i).getD [])

def pairs (g : Graph α) : List (Association α) :=
  g.entries.flatMap fun (key, txns) => txns.map fun txn => ⟨key, txn⟩

/-- Each transaction with the keys whose runs name it. -/
def byTxn (g : Graph α) : List (TxnId × List α) :=
  g.txnIds.zipIdx.map fun (txn, index) =>
    (txn, g.runs.flatMap fun (key, run) => (run.filter (·.toNat == index)).map fun _ => key)

def containsTxn (g : Graph α) (txn : TxnId) : Bool := (bisect? g.txnIds txn).isSome

def keysOf (g : Graph α) (txn : TxnId) : List α :=
  match bisect? g.txnIds txn with
  | none => []
  | some index =>
    (g.runs.filter fun (_, run) => (bisect? run (UInt32.ofNat index)).isSome).map (·.1)

def txnsOf (g : Graph α) (key : α) : List TxnId :=
  match g.keys.indexOf? key with
  | some i => (g.txnsAt? i).getD []
  | none => []

instance [Outline α] : Outline (Graph α) where
  outline g := Outline.fields "Bipartite" [("keys", outline g.keys),
    ("txn_ids", outline g.txnIds), ("keys_to_txn_ids", outline g.links)]

end Graph

end TxnDeps
