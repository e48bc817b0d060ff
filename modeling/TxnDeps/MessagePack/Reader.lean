import TxnDeps.Argument
import TxnDeps.Graph.Shape
import TxnDeps.MessagePack.Writer
import TxnDeps.Step

namespace TxnDeps

/-- Why bytes are no record. What breaks the format itself has no further cause. -/
inductive RecordDefect where
  | format
  | listOrder
  | argument (cause : ArgumentError)
  | graph (defect : GraphDefect)
  deriving DecidableEq

def RecordDefect.cause? : RecordDefect → Option String
  | format => none
  | listOrder => some "sorted list elements are not strictly ascending"
  | argument cause => some cause.message
  | graph defect => some defect.message

namespace MessagePack

abbrev Unpacker (α : Type) := Step Bytes (Halt RecordDefect) α

variable {α : Type}

def malformed : Unpacker α := Step.fail (.failed .format)

def take (n : Nat) : Unpacker Bytes := fun rest =>
  match Bytes.split? n rest with
  | some (taken, left) => (.ok taken, left)
  | none => (.error (.failed .format), rest)

def number (width : Nat) : Unpacker Nat := Bytes.ofBigEndian <$> take width

def signedNumber (width : Nat) : Unpacker Int := do
  let n ← number width
  let above := Bytes.capacity width
  pure (if 2 * n < above then (n : Int) else (n : Int) - above)

/-- The start of a value. The lengths tell how many bytes, elements or entries follow; no field is
stored as a `payload`, a truth value or a number with a fraction, or as an `extension`. -/
inductive Head where
  | natural (n : Nat)
  | signed (v : Int)
  | nil
  | text (length : Nat)
  | binary (length : Nat)
  | array (length : Nat)
  | map (length : Nat)
  | payload (length : Nat)
  | extension (length : Nat)
  deriving DecidableEq

def wideHead (tag : Nat) : Unpacker Head :=
  match tag with
  | 0xc0 => pure .nil
  | 0xc2 | 0xc3 => pure (.payload 0)
  | 0xc4 => .binary <$> number 1
  | 0xc5 => .binary <$> number 2
  | 0xc6 => .binary <$> number 4
  | 0xc7 => (.extension <| 1 + ·) <$> number 1
  | 0xc8 => (.extension <| 1 + ·) <$> number 2
  | 0xc9 => (.extension <| 1 + ·) <$> number 4
  | 0xca => pure (.payload 4)
  | 0xcb => pure (.payload 8)
  | 0xcc => .natural <$> number 1
  | 0xcd => .natural <$> number 2
  | 0xce => .natural <$> number 4
  | 0xcf => .natural <$> number 8
  | 0xd0 => .signed <$> signedNumber 1
  | 0xd1 => .signed <$> signedNumber 2
  | 0xd2 => .signed <$> signedNumber 4
  | 0xd3 => .signed <$> signedNumber 8
  | 0xd4 => pure (.extension 2)
  | 0xd5 => pure (.extension 3)
  | 0xd6 => pure (.extension 5)
  | 0xd7 => pure (.extension 9)
  | 0xd8 => pure (.extension 17)
  | 0xd9 => .text <$> number 1
  | 0xda => .text <$> number 2
  | 0xdb => .text <$> number 4
  | 0xdc => .array <$> number 2
  | 0xdd => .array <$> number 4
  | 0xde => .map <$> number 2
  | 0xdf => .map <$> number 4
  | _ => malformed

def head : Unpacker Head := do
  let tag ← number 1
  if tag < 0x80 then pure (.natural tag)
  else if tag < 0x90 then pure (.map (tag - 0x80))
  else if tag < 0xa0 then pure (.array (tag - 0x90))
  else if tag < 0xc0 then pure (.text (tag - 0xa0))
  else if tag < 0xe0 then wideHead tag
  else pure (.signed ((tag : Int) - 256))

def below (bound : Nat) : Unpacker Nat := do
  match ← head with
  | .natural n => if n < bound then pure n else malformed
  | .signed v => if 0 ≤ v ∧ v < bound then pure v.toNat else malformed
  | _ => malformed

def int64 : Unpacker Int64 := do
  match ← head with
  | .natural n => if 2 * n < Bytes.capacity 8 then pure (Int64.ofNat n) else malformed
  | .signed v => pure (Int64.ofInt v)
  | _ => malformed

/-- Bytes. Text that is not in the encoding of text is taken for bytes too. -/
def blob : Unpacker Bytes := do
  match ← head with
  | .binary length => take length
  | .text length =>
    let taken ← take length
    if (ByteArray.mk taken.toArray).validateUTF8 then malformed else pure taken
  | _ => malformed

/-- Bytes may stand for the list of their values, here each in a form of its own. -/
def numbers (taken : Bytes) : List Bytes := taken.map fun b => natural b.toNat

/-- A list, inside `level` arrays and maps, each element of which `item` reads. -/
def list (item : (level : Nat) → Unpacker α) (level : Nat) : Unpacker (List α) := do
  match ← head with
  | .array length => (item (level + 1)).times length
  | .binary length =>
    let taken ← take length
    Step.ofExcept ((numbers taken).mapM fun form => ((item (level + 1)).run form).1)
  | _ => malformed

def optional (value : Unpacker α) : Unpacker (Option α) := fun rest =>
  match rest with
  | 0xc0 :: left => (.ok none, left)
  | _ => (some <$> value) rest

def maxDepth : Nat := 1023

/-- Passes over one value, in which no more than `depth` arrays, maps and extensions stand one in
another. -/
def skip : (depth : Nat) → Unpacker Unit
  | 0 => do
    match ← head with
    | .natural _ | .signed _ | .nil => pure ()
    | .text length | .binary length | .payload length => (fun _ => ()) <$> take length
    | .array _ | .map _ | .extension _ => malformed
  | depth + 1 => do
    match ← head with
    | .natural _ | .signed _ | .nil => pure ()
    | .text length | .binary length | .payload length | .extension length =>
      (fun _ => ()) <$> take length
    | .array length => (fun _ => ()) <$> (skip depth).times length
    | .map length => (fun _ => ()) <$> (skip depth).times (2 * length)

/-- The place among `names` that a head names, by name or by number; `none` if it names none of
them. -/
def named (names : List String) : Head → Unpacker (Option Nat)
  | .natural n => pure (if n < names.length then some n else none)
  | .text length | .binary length => do
    let taken ← take length
    pure (names.findIdx? fun name => utf8 name == taken)
  | _ => malformed

def case (names : List String) : Unpacker (Nat × Bool) := do
  let (key, valued) ← match ← head with
    | .map length => if length = 1 then (·, true) <$> head else malformed
    | other => pure (other, false)
  match ← named names key with
  | some i => pure (i, valued)
  | none => malformed

def bare (valued : Bool) (a : α) : Unpacker α := do
  if valued then
    match ← head with
    | .nil => pure a
    | _ => malformed
  else pure a

def valued (isValued : Bool) (value : Unpacker α) : Unpacker α :=
  if isValued then value else malformed

/-- The fields of a structure inside `level` arrays and maps, its own among them: in progress one
after the other, or each read from where it starts. -/
inductive Row where
  | inOrder (level length : Nat)
  | apart (level : Nat) (starts : List (Option Bytes))

namespace Row

def field (row : Row) (i : Nat) (value : (level : Nat) → Unpacker α) : Unpacker α :=
  match row with
  | inOrder level length => if i < length then value level else malformed
  | apart level starts => fun rest =>
    match starts[i]? with
    | some (some start) => ((value level start).1, rest)
    | _ => (.error (.failed .format), rest)

def optionalField (row : Row) (i : Nat) (value : (level : Nat) → Unpacker α) :
    Unpacker (Option α) :=
  match row with
  | inOrder _ _ => row.field i fun level => optional (value level)
  | apart _ starts =>
    match starts[i]? with
    | some none => pure none
    | _ => row.field i fun level => optional (value level)

def close (row : Row) (count : Nat) : Unpacker Unit :=
  match row with
  | inOrder _ length => if length = count then pure () else malformed
  | apart _ _ => pure ()

end Row

/-- Reads the entries of a map, where each field may occur once and other names are passed over. -/
def fieldStarts (fields : List (String × ((level : Nat) → Unpacker Unit))) (level : Nat) :
    (entries : Nat) → List (Option Bytes) → Unpacker (List (Option Bytes))
  | 0, starts => pure starts
  | entries + 1, starts => do
    let key ← head
    match ← named (fields.map (·.1)) key with
    | none =>
      skip (maxDepth - level)
      fieldStarts fields level entries starts
    | some i =>
      match starts[i]?, fields[i]? with
      | some none, some (_, value) =>
        let start ← Step.get
        value level
        fieldStarts fields level entries (starts.set i (some start))
      | _, _ => malformed

/-- A structure inside `level` arrays and maps, as an array of its fields in order, a map from their
names, or bytes of which the first are the values of the fields. -/
def record (fields : List (String × ((level : Nat) → Unpacker Unit))) (build : Row → Unpacker α)
    (level : Nat) : Unpacker α := do
  match ← head with
  | .array length => build (.inOrder (level + 1) length)
  | .map length =>
    let starts ← fieldStarts fields (level + 1) length (fields.map fun _ => none)
    build (.apart (level + 1) starts)
  | .binary length =>
    let taken ← take length
    build (.apart (level + 1) ((numbers taken).map some))
  | _ => malformed

end MessagePack

end TxnDeps
