import TxnDeps.Command.Record
import TxnDeps.Step

namespace TxnDeps

/-- The records of the updates, the oldest first. -/
structure Journal where
  records : List Bytes
  deriving DecidableEq

namespace Journal

def empty : Journal := ⟨[]⟩

instance : Inhabited Journal := ⟨empty⟩

def size (j : Journal) : Nat := j.records.length

def isEmpty (j : Journal) : Bool := j.records.isEmpty

def append (j : Journal) (u : CommandUpdate) : Journal := ⟨j.records ++ [u.toBytes]⟩

def updates (j : Journal) : Except (Halt Error) (List CommandUpdate) :=
  j.records.mapM CommandUpdate.ofBytes

def updatesFor (j : Journal) (txn : TxnId) : Except (Halt Error) (List CommandUpdate) :=
  j.updates.map fun us => us.filter (·.txn = txn)

/-- The command as the last of its updates left it. -/
def replay (j : Journal) (txn : TxnId) : Except (Halt Error) (Option Command) :=
  (j.updatesFor txn).map fun us => us.getLast?.bind (·.after)

end Journal

inductive Recorder where
  | journal
  | refusing (error : Error)
  deriving DecidableEq

def Recorder.record (u : CommandUpdate) : Recorder → Step Journal Error Unit
  | journal => Step.modify (·.append u)
  | refusing error => Step.fail error

end TxnDeps
