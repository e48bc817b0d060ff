import TxnDeps.Error

namespace TxnDeps

structure RefId where
  number : Nat
  deriving DecidableEq, Inhabited

structure EntryId where
  number : Nat
  deriving DecidableEq, Inhabited

/-- A safe command goes from `unacquired` to `active` at most once, and never leaves
`invalidated`. -/
inductive SafeState where
  | unacquired
  | active
  | invalidated
  deriving DecidableEq, Inhabited

instance : Outline SafeState where
  outline
    | .unacquired => "Unacquired"
    | .active => "Active"
    | .invalidated => "Invalidated"

/-- The calls that a safe command takes in some states only. -/
inductive SafeCall where
  | preExecute
  | initialise
  | current
  | snapshot
  | global
  | set
  | update
  | takeToken
  deriving DecidableEq

def SafeCall.name : SafeCall → String
  | preExecute => "pre_execute"
  | initialise => "initialise"
  | current => "current"
  | snapshot => "original"
  | global => "global"
  | set => "set"
  | update => "update"
  | takeToken => "take_token"

inductive Misuse where
  | invalidated (call : SafeCall) (txn : TxnId)
  | unacquired (call : SafeCall) (txn : TxnId)
  | reused (state : SafeState) (txn : TxnId)
  | unknownRef (ref : RefId)
  | unknownEntry (entry : EntryId)
  deriving DecidableEq

def Misuse.message : Misuse → String
  | invalidated call txn => call.name ++ " on invalidated safe command for " ++ txn.text
  | unacquired call txn => call.name ++ " on unacquired safe command for " ++ txn.text
  | reused state txn =>
    "pre_execute on " ++ outline state ++ " wrapper for " ++ txn.text ++
      ": wrappers are never reused"
  | unknownRef ref => s!"no safe command has the number {ref.number}"
  | unknownEntry entry => s!"no entry has the number {entry.number}"

inductive Stop where
  | failed (error : Error)
  | misused (misuse : Misuse)
  /-- The call would wait until somebody else acts. -/
  | blocked
  deriving DecidableEq

end TxnDeps
