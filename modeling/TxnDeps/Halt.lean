/-!
Operations that have no answer outside their bounds: a place beyond an array, a shift by the width
of a number or more, a difference below zero. Whoever reads data that others wrote calls them
through this module, where such a step is a trap and not a fault of the data.
-/

namespace TxnDeps

inductive Trap where
  | index
  | slice
  | shift
  | overflow
  deriving DecidableEq

/-- How a computation ends without a value: in an error of its own, or in a trap. -/
inductive Halt (ε : Type) where
  | failed (error : ε)
  | trapped (trap : Trap)
  deriving DecidableEq

namespace Halt

variable {ε α : Type}

def map {δ : Type} (f : ε → δ) : Halt ε → Halt δ
  | failed e => failed (f e)
  | trapped t => trapped t

def expect (trap : Trap) : Option α → Except (Halt ε) α
  | some a => .ok a
  | none => .error (trapped trap)

def minus (m n : Nat) : Except (Halt ε) Nat :=
  if n ≤ m then .ok (m - n) else .error (trapped .overflow)

/-- The bits of a 64-bit number moved up by `k` places. Bits that leave it are lost. -/
def shiftLeft (n k : Nat) : Except (Halt ε) Nat :=
  if k < 64 then .ok ((n <<< k) % UInt64.size) else .error (trapped .shift)

def shiftRight (n k : Nat) : Except (Halt ε) Nat :=
  if k < 64 then .ok (n >>> k) else .error (trapped .shift)

end Halt

end TxnDeps
