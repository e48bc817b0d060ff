import TxnDeps.Range

namespace TxnDeps

inductive Participants where
  | keys (keys : RoutingKeys)
  | ranges (ranges : Ranges)
  deriving DecidableEq

namespace Participants

def empty : Domain → Participants
  | .key => keys .empty
  | .range => ranges .empty

def domain : Participants → Domain
  | keys _ => .key
  | ranges _ => .range

def size : Participants → Nat
  | keys ks => ks.size
  | ranges rs => rs.size

def isEmpty (p : Participants) : Bool := p.size == 0

def keys? : Participants → Option RoutingKeys
  | keys ks => some ks
  | ranges _ => none

def ranges? : Participants → Option Ranges
  | keys _ => none
  | ranges rs => some rs

def containsKey : Participants → RoutingKey → Bool
  | keys ks, k => ks.contains k
  | ranges rs, k => rs.containsKey k

def intersectsRange : Participants → TokenRange → Bool
  | keys ks, r => ks.toList.any r.contains
  | ranges rs, r => rs.intersects r

/-- Whether all of the second set lies in the first. Keys never cover a range. -/
def covers : Participants → Participants → Bool
  | keys mine, keys theirs => theirs.isSubsetOf mine
  | ranges mine, keys theirs => theirs.toList.all mine.containsKey
  | ranges mine, ranges theirs => theirs.toList.all mine.coversRange
  | keys _, ranges theirs => theirs.isEmpty

def union : Participants → Participants → Except ArgumentError Participants
  | keys a, keys b => .ok (keys (a.union b))
  | ranges a, ranges b => .ok (ranges (a.union b))
  | a, b => .error (.domains a.domain b.domain)

instance : Outline Participants where
  outline
    | keys ks => Outline.tagged "Keys" (outline ks)
    | ranges rs => Outline.tagged "Ranges" (outline rs)

end Participants

end TxnDeps
