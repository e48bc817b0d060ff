import TxnDeps.Error

namespace TxnDeps

inductive AcquirePolicy where
  | block
  | failFast
  | timeout (wait : Duration)
  deriving DecidableEq, Inhabited

structure CacheConfig where
  policy : AcquirePolicy
  capacity : Nat
  deriving DecidableEq

namespace CacheConfig

def default : CacheConfig := ⟨.block, 1024⟩

/-- Waits end, so that a test whose entry is never given back fails. -/
def forTesting : CacheConfig := ⟨.timeout (.seconds 5), 16⟩

def validate (c : CacheConfig) : Except ConfigDefect Unit :=
  if c.policy = .timeout ⟨0⟩ then .error .zeroWait else .ok ()

end CacheConfig

end TxnDeps
