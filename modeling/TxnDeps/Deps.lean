import TxnDeps.Graph.Builder
import TxnDeps.Participants

namespace TxnDeps

abbrev KeyDeps := Graph RoutingKey

abbrev RangeDeps := Graph TokenRange

def KeyDeps.slice (g : KeyDeps) (covering : Participants) : KeyDeps :=
  g.filterKeys covering.containsKey

namespace RangeDeps

def slice (g : RangeDeps) (covering : Participants) : RangeDeps :=
  g.filterKeys covering.intersectsRange

def txnsContaining (g : RangeDeps) (k : RoutingKey) : List TxnId :=
  sortDistinct ((g.entries.filter fun (range, _) => range.contains k).flatMap (·.2))

end RangeDeps

/-- Conflicts on keys, on ranges, and on keys that were accessed one by one. -/
structure Deps where
  byKey : KeyDeps
  byRange : RangeDeps
  direct : KeyDeps
  deriving DecidableEq

namespace Deps

def empty : Deps := ⟨.empty, .empty, .empty⟩

instance : Inhabited Deps := ⟨empty⟩

def isEmpty (d : Deps) : Bool := d.byKey.isEmpty && d.byRange.isEmpty && d.direct.isEmpty

def txnIds (d : Deps) : List TxnId :=
  sortDistinct (d.byKey.txnIds ++ d.byRange.txnIds ++ d.direct.txnIds)

def contains (d : Deps) (txn : TxnId) : Bool :=
  d.byKey.containsTxn txn || d.byRange.containsTxn txn || d.direct.containsTxn txn

/-- The transactions in conflict on the key, by any of the graphs, ascending. -/
def txnsFor (d : Deps) (k : RoutingKey) : List TxnId :=
  sortDistinct (d.byKey.txnsOf k ++ d.direct.txnsOf k ++ d.byRange.txnsContaining k)

def later (s t : TxnId) : TxnId := if compare s t = .lt then t else s

/-- The latest of the transactions that end the lists of the graphs. -/
def maxTxn? (d : Deps) : Option TxnId :=
  match [d.byKey.txnIds, d.byRange.txnIds, d.direct.txnIds].filterMap List.getLast? with
  | [] => none
  | t :: ts => some (ts.foldl later t)

def merge (all : List Deps) : Deps :=
  ⟨.merge (all.map byKey), .merge (all.map byRange), .merge (all.map direct)⟩

def without (d : Deps) (remove : TxnId → Bool) : Deps :=
  ⟨d.byKey.filterTxns (!remove ·), d.byRange.filterTxns (!remove ·),
    d.direct.filterTxns (!remove ·)⟩

instance : Outline Deps where
  outline d := Outline.fields "Deps" [("key_deps", outline d.byKey),
    ("range_deps", outline d.byRange), ("direct_key_deps", outline d.direct)]

end Deps

/-- Dependencies that are complete on the covering set. -/
structure PartialDeps where
  covering : Participants
  deps : Deps
  deriving DecidableEq

def Deps.slice (d : Deps) (covering : Participants) : PartialDeps :=
  ⟨covering, ⟨d.byKey.slice covering, d.byRange.slice covering, d.direct.slice covering⟩⟩

namespace PartialDeps

def none (covering : Participants) : PartialDeps := ⟨covering, .empty⟩

def covers (p : PartialDeps) (participants : Participants) : Bool :=
  p.covering.covers participants

def combine (p q : PartialDeps) : Except ArgumentError PartialDeps :=
  match p.covering.union q.covering with
  | .ok covering => .ok ⟨covering, .merge [p.deps, q.deps]⟩
  | .error cause => .error (.coverings cause)

instance : Outline PartialDeps where
  outline p := Outline.fields "PartialDeps" [("covering", outline p.covering),
    ("deps", outline p.deps)]

end PartialDeps

end TxnDeps
