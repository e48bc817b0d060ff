import TxnDeps.Deps
import TxnDeps.Error
import TxnDeps.Wire.RangeCodec

/-!
The codec of dependencies. On the wire stand the key graph, the range graph and the graph of
directly accessed keys, each as its keys or ranges and a body that lists the transactions and the
links. A partial graph adds its covering set.
-/

namespace TxnDeps

structure DepsCodec where
  ranges : RangeCodec
  config : CodecConfig
  deriving DecidableEq

inductive KeySetMode where
  | full
  | relative (superset : RoutingKeys) (flagged : Bool)
  | flaggedFull

namespace DepsCodec

def default : DepsCodec := ⟨.token, .default⟩

/-- Decided before the first byte, so that a refusal leaves no bytes behind. Keys outside the
superset are refused where there is no flag that could announce the full set. -/
def keySetMode (c : DepsCodec) (keys : RoutingKeys) (superset? : Option RoutingKeys)
    (v : WireVersion) : Except Refusal KeySetMode :=
  match c.config.check v with
  | .error refusal => .error refusal
  | .ok () =>
    match superset? with
    | none => .ok .full
    | some superset =>
      match keys.checkSubset superset with
      | .ok () => .ok (.relative superset v.flagsKeySet)
      | .error violation =>
        if v.flagsKeySet then .ok .flaggedFull else .error (.subset violation)

instance : Outline DepsCodec where
  outline c := Outline.fields "DepsCodec" [("range_codec", outline c.ranges.id),
    ("config", outline c.config)]

end DepsCodec

end TxnDeps
