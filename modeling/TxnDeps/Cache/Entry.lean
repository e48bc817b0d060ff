import TxnDeps.Cache.Config
import TxnDeps.Cache.Stop
import TxnDeps.Step

namespace TxnDeps

/-- Stands for one grant of one entry. -/
structure Token where
  entry : EntryId
  grant : Nat
  deriving DecidableEq, Inhabited

structure CacheEntry (κ ν : Type) where
  id : EntryId
  key : κ
  value : ν
  holder : Option Nat
  /-- How often the entry was granted. Grants are numbered from 1. -/
  grants : Nat
  deriving DecidableEq

namespace CacheEntry

variable {κ ν : Type}

def create (id : EntryId) (key : κ) (value : ν) : CacheEntry κ ν := ⟨id, key, value, none, 0⟩

def isHeld (e : CacheEntry κ ν) : Bool := e.holder.isSome

variable [Outline κ]

def refusal (e : CacheEntry κ ν) (holder : Nat) : AcquirePolicy → Stop
  | .block => .blocked
  | .failFast => .failed (.busy (outline e.key ++ s!" held by grant {holder}"))
  | .timeout wait => .failed (.timeout (outline e.key) wait)

def getExclusive (policy : AcquirePolicy) : Step (CacheEntry κ ν) Stop (ν × Token) := fun e =>
  -- A timeout is added to the clock before the holder is looked at. Where the sum overflows, the
  -- call panics with the entry as it was. No clock is part of the state, so that is left out.
  match e.holder with
  | some holder => (.error (e.refusal holder policy), e)
  | none =>
    let grant := e.grants + 1
    (.ok (e.value, ⟨e.id, grant⟩), { e with holder := some grant, grants := grant })

/-- Whether the token stands for the grant that has not been given back. -/
def accepts (e : CacheEntry κ ν) (token : Token) : Bool :=
  token.entry = e.id ∧ e.holder = some token.grant

def stale (e : CacheEntry κ ν) (token : Token) : Stop :=
  .failed (.staleToken (outline e.key) token.grant e.holder)

def release (token : Token) (value : ν) : Step (CacheEntry κ ν) Stop Unit := fun e =>
  if e.accepts token then (.ok (), { e with value := value, holder := none })
  else (.error (e.stale token), e)

/-- Gives the entry back with the value that it had. -/
def abandon (token : Token) : Step (CacheEntry κ ν) Stop Unit := fun e =>
  if e.accepts token then (.ok (), { e with holder := none }) else (.error (e.stale token), e)

end CacheEntry

end TxnDeps
