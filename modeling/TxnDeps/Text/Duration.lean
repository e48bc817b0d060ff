namespace TxnDeps

structure Duration where
  nanos : Nat
  deriving DecidableEq, Inhabited

namespace Duration

def seconds (n : Nat) : Duration := ⟨n * 1000000000⟩

def isZero (d : Duration) : Bool := d.nanos == 0

def trimZeros (digits : List Char) : List Char :=
  (digits.reverse.dropWhile (· == '0')).reverse

def padded (width n : Nat) : List Char :=
  let digits := Nat.toDigits 10 n
  List.replicate (width - digits.length) '0' ++ digits

/-- The number `n / unit` in decimal notation, without closing zeros. The unit is a 1 followed by as
many zeros as there are places. -/
def decimal (n unit places : Nat) : String :=
  let whole := n / unit
  let fraction := n % unit
  if fraction = 0 then toString whole
  else toString whole ++ "." ++ String.ofList (trimZeros (padded places fraction))

def text (d : Duration) : String :=
  if 1000000000 ≤ d.nanos then decimal d.nanos 1000000000 9 ++ "s"
  else if 1000000 ≤ d.nanos then decimal d.nanos 1000000 6 ++ "ms"
  else if 1000 ≤ d.nanos then decimal d.nanos 1000 3 ++ "µs"
  else toString d.nanos ++ "ns"

end Duration

end TxnDeps
