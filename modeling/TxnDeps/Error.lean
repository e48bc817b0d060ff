import TxnDeps.MessagePack.Reader
import TxnDeps.Text.Duration
import TxnDeps.Wire.Version

namespace TxnDeps

inductive Corruption where
  | bytes (fault : Fault)
  | graph (defect : GraphDefect)
  | record (defect : RecordDefect)
  | other (text : String)
  deriving DecidableEq

def Corruption.detail : Corruption → String
  | bytes fault => fault.detail
  | graph defect => defect.detail
  | record defect =>
    "Failed to deserialize command update" ++
      match defect.cause? with
      | some cause => ": " ++ cause
      | none => ""
  | other text => text

inductive Error where
  | corruption (cause : Corruption)
  | argument (cause : ArgumentError)
  | subset (violation : SubsetViolation)
  | version (tag : UInt8)
  | busy (text : String)
  | timeout (key : String) (waited : Duration)
  | staleToken (key : String) (token : Nat) (outstanding : Option Nat)
  | journal (text : String)
  | config (defect : ConfigDefect)
  deriving DecidableEq

namespace Error

def message : Error → String
  | corruption cause => "Data corruption: " ++ cause.detail
  | argument cause => cause.message
  | subset violation => violation.message
  | version tag => s!"Unsupported wire version: {tag}"
  | busy text => "Cache entry busy: " ++ text
  | timeout key waited => "Timed out after " ++ waited.text ++ " acquiring " ++ key
  | staleToken key token outstanding =>
    "Stale exclusive token for " ++ key ++ s!": token {token}, outstanding " ++ outline outstanding
  | journal text => "Journal error: " ++ text
  | config defect => "Invalid configuration: " ++ defect.detail

def isCorruption : Error → Bool
  | corruption _ => true
  | _ => false

def ofFault (fault : Fault) : Error := corruption (.bytes fault)

def ofRefusal : Refusal → Error
  | .version v => version v.tag
  | .subset violation => subset violation

end Error

end TxnDeps
