import TxnDeps.Argument
import TxnDeps.Graph.Shape

namespace TxnDeps

inductive Defect where
  | endOfBuffer (needed left : Nat)
  | trailing (count : Nat)
  | boolean (byte : UInt8)
  | varintOverflow
  | varintLength
  | varint32 (value : Nat)
  | tooMany (count limit : Nat)
  | txnFlags
  | keyKind (tag : UInt8)
  | keyOrder
  | endpointKind (tag : UInt8)
  | subsetBits (bits superset : Nat)
  | subsetMissing (superset : Nat)
  | subsetPosition (position superset : Nat)
  | subsetOrder
  | txnOrder
  | rangeOrder
  | runOrder (key : Nat)
  | coveringOrder
  | participantsDomain (tag : UInt8)
  | nullableMarker (tag : UInt8)
  | graph (defect : GraphDefect)
  | argument (cause : ArgumentError)
  | other (text : String)
  deriving DecidableEq

namespace Defect

def detail : Defect → String
  | endOfBuffer needed left => s!"unexpected end of buffer: needed {needed} bytes, {left} left"
  | trailing count => s!"{count} trailing bytes after value"
  | boolean byte => "invalid boolean byte 0x" ++ String.ofList (Bytes.hexDigits [byte])
  | varintOverflow => "varint overflows u64"
  | varintLength => "varint longer than 10 bytes"
  | varint32 value => s!"varint {value} overflows u32"
  | tooMany count limit => s!"declared count {count} exceeds limit {limit}"
  | txnFlags => "txn id flags overflow u16"
  | keyKind tag => s!"unknown routing key kind {tag}"
  | keyOrder => "routing keys not strictly ascending"
  | endpointKind tag => s!"unknown endpoint kind {tag}"
  | subsetBits bits superset =>
    "subset bitmap 0x" ++ Outline.hexDigits bits ++ s!" has bits beyond superset of {superset}"
  | subsetMissing superset => s!"subset missing count exceeds superset of {superset}"
  | subsetPosition position superset =>
    s!"subset position {position} out of range for superset of {superset}"
  | subsetOrder => "subset positions not strictly increasing"
  | txnOrder => "txn ids not strictly ascending"
  | rangeOrder => "ranges not strictly ascending"
  | runOrder key => s!"txn run of key {key} not strictly ascending"
  | coveringOrder => "covering ranges not strictly ascending"
  | participantsDomain tag => s!"unknown participants domain {tag}"
  | nullableMarker tag => s!"invalid nullable marker {tag}"
  | graph defect => defect.message
  | argument cause => cause.message
  | other text => text

end Defect

structure Fault where
  offset : Nat
  defect : Defect
  deriving DecidableEq

def Fault.detail (f : Fault) : String := s!"offset {f.offset}: " ++ f.defect.detail

end TxnDeps
