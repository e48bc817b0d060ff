import TxnDeps.Cache.Entry
import TxnDeps.Command.Basic

namespace TxnDeps

/-- Without a value until the command is first set. -/
abbrev CommandEntry := CacheEntry TxnId (Option Command)

structure SafeCommand where
  ref : RefId
  entry : EntryId
  txn : TxnId
  state : SafeState
  snapshot : Option Command
  current : Option Command
  token : Option Token
  uninitialised : Bool
  deriving DecidableEq

namespace SafeCommand

def create (ref : RefId) (entry : EntryId) (txn : TxnId) : SafeCommand :=
  ⟨ref, entry, txn, .unacquired, none, none, none, false⟩

def checkValid (call : SafeCall) (w : SafeCommand) : Except Stop Unit :=
  if w.state = .invalidated then .error (.misused (.invalidated call w.txn)) else .ok ()

def checkActive (call : SafeCall) (w : SafeCommand) : Except Stop Unit :=
  match w.state with
  | .invalidated => .error (.misused (.invalidated call w.txn))
  | .unacquired => .error (.misused (.unacquired call w.txn))
  | .active => .ok ()

def checkUnused (w : SafeCommand) : Except Stop Unit :=
  match w.state with
  | .invalidated => .error (.misused (.invalidated .preExecute w.txn))
  | .active => .error (.misused (.reused .active w.txn))
  | .unacquired => .ok ()

def acquired (value : Option Command) (token : Token) (w : SafeCommand) : SafeCommand :=
  { w with
    state := .active, snapshot := value, current := value, token := some token,
    uninitialised := value.isNone }

def initialised (w : SafeCommand) : Command := w.current.getD (.uninitialised w.txn)

def toUpdate (w : SafeCommand) : CommandUpdate := ⟨w.txn, w.snapshot, w.current⟩

/-- The same snapshot and the same working copy. -/
def sameValues (v w : SafeCommand) : Bool := v.snapshot = w.snapshot ∧ v.current = w.current

instance : Outline SafeCommand where
  outline w := Outline.fields "SafeCommand" [("state", outline w.state),
    ("txn_id", outline w.txn), ("original", outline w.snapshot), ("current", outline w.current)]

end SafeCommand

end TxnDeps
