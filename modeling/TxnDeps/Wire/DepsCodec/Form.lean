import TxnDeps.Wire.DepsCodec.Decode
import TxnDeps.Wire.DepsCodec.Encode
import TxnDeps.Wire.DepsCodec.Size

namespace TxnDeps

/-- Key sets are relative to a superset if there is one. -/
class WireForm (α : Type) where
  write : DepsCodec → α → Option RoutingKeys → WireVersion → Writer
  size : DepsCodec → α → Option RoutingKeys → WireVersion → Except Refusal Nat
  decode : DepsCodec → Option RoutingKeys → WireVersion → Step Cursor (Halt Error) α

namespace WireForm

instance : WireForm Deps where
  write := DepsCodec.write
  size := DepsCodec.size
  decode c superset? v := c.checked v (c.readDeps superset? v)

instance : WireForm PartialDeps where
  write := DepsCodec.writePartial
  size := DepsCodec.sizePartial
  decode c superset? v := c.checked v (c.readPartial superset? v)

instance : WireForm (Option Deps) where
  write c d? superset? v := c.writeNullable (c.write · superset? v) v d?
  size c d? superset? v := c.sizeNullable (c.size · superset? v) v d?
  decode c superset? v := c.checked v (DepsCodec.readNullable (c.readDeps superset? v))

instance : WireForm (Option PartialDeps) where
  write c p? superset? v := c.writeNullable (c.writePartial · superset? v) v p?
  size c p? superset? v := c.sizeNullable (c.sizePartial · superset? v) v p?
  decode c superset? v := c.checked v (DepsCodec.readNullable (c.readPartial superset? v))

instance : WireForm Participants where
  write c p _ _ := Writer.put (c.encodeParticipants p)
  size c p _ _ := .ok (c.participantsSize p)
  decode c _ _ := c.readParticipants.mapError (Halt.map .ofFault)

end WireForm

namespace DepsCodec

variable {α : Type} [WireForm α]

def encode (c : DepsCodec) (a : α) (superset? : Option RoutingKeys) (v : WireVersion) :
    Except Refusal Bytes :=
  match WireForm.size c a superset? v with
  | .error refusal => .error refusal
  | .ok _ =>
    match (WireForm.write c a superset? v).run [] with
    | (.ok (), bytes) => .ok bytes
    | (.error refusal, _) => .error refusal

def ofBytes (c : DepsCodec) (superset? : Option RoutingKeys) (v : WireVersion) (bytes : Bytes) :
    Except (Halt Error) α :=
  let whole : Step Cursor (Halt Error) α := do
    let a ← WireForm.decode c superset? v
    Reader.finish.mapError (Halt.map Error.ofFault)
    pure a
  (whole.run (.start bytes)).1

end DepsCodec

end TxnDeps
