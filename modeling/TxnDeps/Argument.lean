import TxnDeps.Key
import TxnDeps.Txn

namespace TxnDeps

inductive ArgumentError where
  | tables (start stop : RoutingKey)
  | domains (left right : Domain)
  | coverings (cause : ArgumentError)
  | accessGone (txn : TxnId)
  | other (text : String)
  deriving DecidableEq

def ArgumentError.detail : ArgumentError → String
  | tables start stop =>
    "Token ranges cannot cover more than one table start:" ++ start.text ++ ", end:" ++ stop.text
  | domains left right =>
    "cannot union " ++ outline left ++ " participants with " ++ outline right ++ " participants"
  | coverings cause => "cannot combine partial deps: " ++ cause.detail
  | accessGone txn => "safe command for " ++ txn.text ++ " no longer holds exclusive access"
  | other text => text

def ArgumentError.message (e : ArgumentError) : String := "Invalid argument: " ++ e.detail

end TxnDeps
