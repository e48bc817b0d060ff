namespace TxnDeps

inductive ConfigDefect where
  | zeroLength
  | lengthBeyondIndex (length : UInt64)
  | zeroWait
  | other (text : String)
  deriving DecidableEq

def ConfigDefect.detail : ConfigDefect → String
  | zeroLength => "max_collection_len must be positive"
  | lengthBeyondIndex length => s!"max_collection_len {length} exceeds u32 index space"
  | zeroWait => "acquire timeout must be positive; use FailFast for no wait"
  | other text => text

end TxnDeps
