import TxnDeps.Command.Basic
import TxnDeps.Error
import TxnDeps.MessagePack.Packed

namespace TxnDeps

open MessagePack

instance : Packed SaveStatus where
  pack s := text s.name
  unpack _ := do
    let (i, isValued) ← case (SaveStatus.all.map (·.name))
    match SaveStatus.all[i]? with
    | some s => bare isValued s
    | none => malformed

instance : Packed Command where
  pack c := array [pack c.txn, pack c.status, pack c.executeAt, pack c.promised, pack c.deps]
  unpack := record [("txn_id", Packed.probe TxnId), ("save_status", Packed.probe SaveStatus),
      ("execute_at", Packed.probe (Option TxnId)), ("promised", Packed.probe Ballot),
      ("partial_deps", Packed.probe (Option PartialDeps))] fun row => do
    let txn ← row.field 0 unpack
    let status ← row.field 1 unpack
    let executeAt ← row.optionalField 2 unpack
    let promised ← row.field 3 unpack
    let deps ← row.optionalField 4 unpack
    row.close 5
    pure ⟨txn, status, executeAt, promised, deps⟩

instance : Packed CommandUpdate where
  pack u := array [pack u.txn, pack u.before, pack u.after]
  unpack := record [("txn_id", Packed.probe TxnId), ("before", Packed.probe (Option Command)),
      ("after", Packed.probe (Option Command))] fun row => do
    let txn ← row.field 0 unpack
    let before ← row.optionalField 1 unpack
    let after ← row.optionalField 2 unpack
    row.close 3
    pure ⟨txn, before, after⟩

namespace CommandUpdate

def toBytes (u : CommandUpdate) : Bytes := pack u

def ofBytes (bytes : Bytes) : Except (Halt Error) CommandUpdate :=
  match Packed.ofBytes bytes with
  | .ok u => .ok u
  | .error halt => .error (halt.map fun defect => .corruption (.record defect))

end CommandUpdate

end TxnDeps
