import TxnDeps.Range
import TxnDeps.Wire.Element

namespace TxnDeps

inductive RangeCodec where
  | token
  | simple (table : TableId)
  deriving DecidableEq

namespace RangeCodec

def id : RangeCodec → String
  | token => "token"
  | simple _ => "simple"

def encodeEnd : KeyKind → Bytes
  | .min => [0]
  | .token v => 1 :: Uvarint.encode (zigzag v).toNat
  | .max => [2]

def endSize : KeyKind → Nat
  | .token v => 1 + Uvarint.size (zigzag v).toNat
  | _ => 1

def encode : RangeCodec → TokenRange → Bytes
  | token, r => r.start.encode ++ r.stop.encode
  | simple _, r => encodeEnd r.start.kind ++ encodeEnd r.stop.kind

def encodedSize : RangeCodec → TokenRange → Nat
  | token, r => r.start.encodedSize + r.stop.encodedSize
  | simple _, r => endSize r.start.kind + endSize r.stop.kind

def readEnd : Reader KeyKind := do
  let start ← Reader.position
  let tag ← Reader.byte
  if tag = 0 then pure .min
  else if tag = 1 then
    let n ← Reader.uvarint
    pure (.token (unzigzag (UInt64.ofNat n)))
  else if tag = 2 then pure .max
  else Reader.failAt start (.endpointKind tag)

def read : RangeCodec → Reader TokenRange
  | token => do
    let offset ← Reader.position
    let start ← Reader.routingKey
    let stop ← Reader.routingKey
    match TokenRange.create start stop with
    | .ok range => pure range
    | .error cause => Reader.failAt offset (.argument cause)
  | simple table => do
    let start ← readEnd
    let stop ← readEnd
    pure ⟨⟨table, start⟩, ⟨table, stop⟩⟩

end RangeCodec

end TxnDeps
