import TxnDeps.Deps

namespace TxnDeps

inductive SaveStatus where
  | uninitialised
  | notDefined
  | preAccepted
  | accepted
  | committed
  | stable
  | preApplied
  | applied
  | invalidated
  | truncated
  deriving DecidableEq, Inhabited

namespace SaveStatus

def all : List SaveStatus :=
  [uninitialised, notDefined, preAccepted, accepted, committed, stable, preApplied, applied,
    invalidated, truncated]

def name : SaveStatus → String
  | uninitialised => "Uninitialised"
  | notDefined => "NotDefined"
  | preAccepted => "PreAccepted"
  | accepted => "Accepted"
  | committed => "Committed"
  | stable => "Stable"
  | preApplied => "PreApplied"
  | applied => "Applied"
  | invalidated => "Invalidated"
  | truncated => "Truncated"

def rank (s : SaveStatus) : Nat := all.idxOf s

instance : Ord SaveStatus := ⟨compareOn rank⟩

/-- Whether `s` is at or past the other status. An invalidated transaction was agreed on by nobody,
so it has only been through what comes before all agreement. -/
def hasBeen (s other : SaveStatus) : Bool :=
  if s = invalidated then other = uninitialised ∨ other = notDefined ∨ other = invalidated
  else other ≠ invalidated ∧ other.rank ≤ s.rank

def isFinal (s : SaveStatus) : Bool := s = invalidated ∨ s = truncated

instance : Outline SaveStatus := ⟨name⟩

end SaveStatus

structure Command where
  txn : TxnId
  status : SaveStatus
  executeAt : Option TxnId
  promised : Ballot
  deps : Option PartialDeps
  deriving DecidableEq

namespace Command

def uninitialised (txn : TxnId) : Command := ⟨txn, .uninitialised, none, .zero, none⟩

def isUninitialised (c : Command) : Bool := c.status = .uninitialised

instance : Outline Command where
  outline c := Outline.fields "Command" [("txn_id", outline c.txn),
    ("save_status", outline c.status), ("execute_at", outline c.executeAt),
    ("promised", outline c.promised), ("partial_deps", outline c.deps)]

end Command

structure CommandUpdate where
  txn : TxnId
  before : Option Command
  after : Option Command
  deriving DecidableEq

def CommandUpdate.isNoop (u : CommandUpdate) : Bool := u.before = u.after

end TxnDeps
