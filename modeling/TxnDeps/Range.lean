import TxnDeps.Argument

namespace TxnDeps

open Std (TransOrd LawfulEqOrd TransCmp)

/-- The keys above `start` up to `stop`. Ordered by `start`, then `stop`. -/
structure TokenRange where
  start : RoutingKey
  stop : RoutingKey
  deriving DecidableEq, Inhabited

namespace TokenRange

def order : TokenRange → TokenRange → Ordering :=
  compareLex (compareOn start) (compareOn stop)

instance : Ord TokenRange := ⟨order⟩

instance : TransOrd TokenRange :=
  inferInstanceAs (TransCmp (compareLex (compareOn start) (compareOn stop)))

instance : LawfulEqOrd TokenRange where
  compare_self {r} := by
    show order r r = .eq
    simp [order, compareLex, compareOn]
  eq_of_compare {q r} h := by
    replace h : order q r = .eq := h
    simp only [order, compareLex_eq_eq, compareOn, LawfulEqOrd.compare_eq_iff_eq] at h
    cases q; cases r
    simp_all

def SingleTable (r : TokenRange) : Prop := r.start.table = r.stop.table

instance (r : TokenRange) : Decidable r.SingleTable := inferInstanceAs (Decidable (_ = _))

/-- Refuses ends that lie in different tables; ends in the wrong order make an empty range. -/
def create (start stop : RoutingKey) : Except ArgumentError TokenRange :=
  if start.table = stop.table then .ok ⟨start, stop⟩ else .error (.tables start stop)

def full (table : TableId) : TokenRange := ⟨.min table, .max table⟩

def table (r : TokenRange) : TableId := r.start.table

def isFull (r : TokenRange) : Bool := r.start.kind = .min ∧ r.stop.kind = .max

def contains (r : TokenRange) (k : RoutingKey) : Bool := r.start < k ∧ k ≤ r.stop

def containsRange (r other : TokenRange) : Bool := r.start ≤ other.start ∧ other.stop ≤ r.stop

def intersects (r other : TokenRange) : Bool := r.start < other.stop ∧ other.start < r.stop

def text (r : TokenRange) : String := "(" ++ r.start.text ++ "," ++ r.stop.text ++ "]"

instance : Outline TokenRange where
  outline r := Outline.fields "TokenRange" [("start", outline r.start), ("end", outline r.stop)]

end TokenRange

abbrev Ranges := SortedList TokenRange

namespace Ranges

def containsKey (rs : Ranges) (k : RoutingKey) : Bool := rs.toList.any (·.contains k)

def intersects (rs : Ranges) (r : TokenRange) : Bool := rs.toList.any (·.intersects r)

def slice (rs other : Ranges) : Ranges := rs.filter other.intersects

/-- How far ranges in ascending order extend the keys reached so far without a gap; it stops once
`target` is reached. -/
def reach (target : RoutingKey) : RoutingKey → List TokenRange → RoutingKey
  | reached, [] => reached
  | reached, r :: rest =>
    if target ≤ reached ∨ reached < r.start then reached
    else reach target (if reached < r.stop then r.stop else reached) rest

def coversRange (rs : Ranges) (r : TokenRange) : Bool :=
  r.stop ≤ reach r.stop r.start (rs.toList.filter (·.table = r.table))

end Ranges

def RoutingKeys.slice (ks : RoutingKeys) (rs : Ranges) : RoutingKeys := ks.filter rs.containsKey

end TxnDeps
