import TxnDeps.ConfigDefect
import TxnDeps.Wire.Subset

namespace TxnDeps

/-- The second version says of a key set whether it is written relative to a superset; the first
leaves that to the reader. -/
inductive WireVersion where
  | v1
  | v2
  deriving DecidableEq

namespace WireVersion

def current : WireVersion := v2

def all : List WireVersion := [v1, v2]

def tag : WireVersion → UInt8
  | v1 => 1
  | v2 => 2

def ofTag? (tag : UInt8) : Option WireVersion := all.find? (·.tag == tag)

def flagsKeySet (v : WireVersion) : Bool := v2.tag ≤ v.tag

def text (v : WireVersion) : String := s!"v{v.tag}"

instance : Outline WireVersion where
  outline
    | v1 => "V1"
    | v2 => "V2"

end WireVersion

structure CodecConfig where
  minVersion : WireVersion
  maxLength : UInt64
  deriving DecidableEq

namespace CodecConfig

def default : CodecConfig := ⟨.v1, 0x1000000⟩

/-- Accepts short collections only, so that tests reach the limit. -/
def forTesting : CodecConfig := ⟨.v1, 4096⟩

def limit (c : CodecConfig) : Nat := c.maxLength.toNat

def validate (c : CodecConfig) : Except ConfigDefect Unit :=
  if c.maxLength = 0 then .error .zeroLength
  else if Bytes.capacity 4 ≤ c.limit then .error (.lengthBeyondIndex c.maxLength)
  else .ok ()

def accepts (c : CodecConfig) (v : WireVersion) : Bool := c.minVersion.tag ≤ v.tag

instance : Outline CodecConfig where
  outline c := Outline.fields "CodecConfig" [("min_version", outline c.minVersion),
    ("max_collection_len", outline c.maxLength)]

end CodecConfig

inductive Refusal where
  | version (version : WireVersion)
  | subset (violation : SubsetViolation)
  deriving DecidableEq

def CodecConfig.check (c : CodecConfig) (v : WireVersion) : Except Refusal Unit :=
  if c.accepts v then .ok () else .error (.version v)

end TxnDeps
