import TxnDeps.Proofs.Wire.Uvarint
import TxnDeps.Proofs.Wire.Writing

namespace TxnDeps

namespace Bytes

@[simp]
theorem length_ofBool (b : Bool) : (ofBool b).length = 1 := by
  cases b <;> rfl

@[simp]
theorem length_ofInt64 (v : Int64) : (ofInt64 v).length = 8 :=
  length_bigEndian 8 _

theorem length_flatMap {α : Type} {encode : α → Bytes} {size : α → Nat}
    (h : ∀ x, (encode x).length = size x) (xs : List α) :
    (xs.flatMap encode).length = totalSize size xs :=
  length_flatMap_eq_totalSize fun x _ => h x

end Bytes

@[simp]
theorem TableId.length_bytes (t : TableId) : t.bytes.length = 16 :=
  Bytes.length_bigEndian 16 _

@[simp]
theorem TxnId.length_encode (t : TxnId) : t.encode.length = t.encodedSize := by
  simp [encode, encodedSize, Nat.add_assoc]

@[simp]
theorem RoutingKey.length_encode (k : RoutingKey) : k.encode.length = k.encodedSize := by
  obtain ⟨table, kind⟩ := k
  cases kind <;> simp [encode, encodedSize]

@[simp]
theorem RoutingKeys.length_encode (ks : RoutingKeys) : ks.encode.length = ks.encodedSize := by
  rw [encode, encodedSize, List.length_append, Uvarint.length_encode,
    Bytes.length_flatMap RoutingKey.length_encode]

namespace RangeCodec

theorem length_encodeEnd (k : KeyKind) : (encodeEnd k).length = endSize k := by
  cases k with
  | min | max => rfl
  | token v => simp [encodeEnd, endSize, Nat.add_comm]

@[simp]
theorem length_encode (c : RangeCodec) (r : TokenRange) :
    (c.encode r).length = c.encodedSize r := by
  cases c <;> simp [encode, encodedSize, length_encodeEnd]

end RangeCodec

@[simp]
theorem Marks.length_encode (marks : List Bool) : (encode marks).length = encodedSize marks := by
  rw [encode, encodedSize]
  split
  · exact Uvarint.length_encode _
  · rw [List.length_append, Uvarint.length_encode, Bytes.length_flatMap Uvarint.length_encode]

@[simp]
theorem Graph.length_encodeBody {α : Type} [Ord α] (g : Graph α) :
    g.encodeBody.length = g.bodySize := by
  have htxns := Bytes.length_flatMap TxnId.length_encode g.txnIds
  have hlinks := Bytes.length_flatMap (fun link : UInt32 => Uvarint.length_encode link.toNat)
    g.links
  simp only [encodeBody, bodySize, List.length_append, Uvarint.length_encode, htxns, hlinks]

namespace DepsCodec

variable (c : DepsCodec)

@[simp]
theorem length_encodeRanges (ranges : Ranges) :
    (c.encodeRanges ranges).length = c.rangesSize ranges := by
  rw [encodeRanges, rangesSize, List.length_append, Uvarint.length_encode,
    Bytes.length_flatMap c.ranges.length_encode]

@[simp]
theorem length_encodeParticipants (p : Participants) :
    (c.encodeParticipants p).length = c.participantsSize p := by
  cases p <;> simp [encodeParticipants, participantsSize, Nat.add_comm]

@[simp]
theorem length_keySetBytes (keys : RoutingKeys) (mode : KeySetMode) :
    (keySetBytes keys mode).length = keySetSize keys mode := by
  cases mode with
  | full => exact keys.length_encode
  | relative superset flagged =>
    cases flagged <;> simp [keySetBytes, keySetSize, SortedList.encodedSizeIn]
  | flaggedFull => simp [keySetBytes, keySetSize]

@[simp]
theorem length_directBytes (direct keys : RoutingKeys) :
    (directBytes direct keys).length = directKeysSize direct keys := by
  rw [directBytes, directKeysSize, List.length_append, Bytes.length_ofBool]
  split
  · rw [Marks.length_encode, SortedList.encodedSizeIn]
  · rw [RoutingKeys.length_encode]

theorem length_bytes (d : Deps) (mode : KeySetMode) :
    (c.bytes d mode).length =
      keySetSize d.byKey.keys mode + d.byKey.bodySize + c.rangesSize d.byRange.keys +
        d.byRange.bodySize + directKeysSize d.direct.keys d.byKey.keys + d.direct.bodySize := by
  simp [bytes, Nat.add_assoc]

variable {c} {superset? : Option RoutingKeys} {v : WireVersion}

theorem size_eq (d : Deps) :
    c.size d superset? v = (c.outcome d superset? v).map List.length := by
  rw [size, outcome]
  cases c.keySetMode d.byKey.keys superset? v with
  | error refusal => rfl
  | ok mode => exact congrArg Except.ok (c.length_bytes d mode).symm

theorem sizePartial_eq (p : PartialDeps) :
    c.sizePartial p superset? v = (c.outcomePartial p superset? v).map List.length := by
  rw [sizePartial, outcomePartial, size_eq]
  cases c.outcome p.deps superset? v with
  | error refusal => rfl
  | ok bytes =>
    change Except.ok (bytes.length + _) = .ok (bytes ++ c.encodeParticipants p.covering).length
    rw [List.length_append, length_encodeParticipants]

/-- The size of a value that is there asks for the version before the value does. -/
theorem sizeNullable_eq {α : Type} {size : α → Except Refusal Nat}
    {outcome : α → Except Refusal Bytes}
    (hversion : ∀ a refusal, c.config.check v = .error refusal → outcome a = .error refusal)
    (h : ∀ a, size a = (outcome a).map List.length) (a? : Option α) :
    c.sizeNullable size v a? = (c.outcomeNullable outcome v a?).map List.length := by
  cases a? with
  | none =>
    rw [sizeNullable, outcomeNullable]
    cases c.config.check v <;> rfl
  | some a =>
    rw [sizeNullable, outcomeNullable, h]
    cases hcheck : c.config.check v with
    | error refusal =>
      rw [hversion a refusal hcheck]
      rfl
    | ok _ =>
      cases outcome a with
      | error refusal => rfl
      | ok bytes => exact congrArg Except.ok (Nat.add_comm 1 bytes.length)

theorem outcome_of_refused_version (d : Deps) {refusal : Refusal}
    (h : c.config.check v = .error refusal) : c.outcome d superset? v = .error refusal := by
  rw [outcome, keySetMode.eq_def, h]
  rfl

theorem outcomePartial_of_refused_version (p : PartialDeps) {refusal : Refusal}
    (h : c.config.check v = .error refusal) : c.outcomePartial p superset? v = .error refusal := by
  rw [outcomePartial, outcome_of_refused_version p.deps h]
  rfl

end DepsCodec

namespace WireForm

/-- The size of a value is the number of bytes that writing it appends to a buffer, whatever was
there before, and these are its bytes in a buffer of its own. Where one of the calls is refused, all
of them are, for the same reason. -/
def Measured (α : Type) [WireForm α] (c : DepsCodec) (superset? : Option RoutingKeys)
    (v : WireVersion) : Prop :=
  ∀ a : α,
    (∃ bytes, size c a superset? v = .ok bytes.length ∧ c.encode a superset? v = .ok bytes ∧
      ∀ buffer, (write c a superset? v).run buffer = (.ok (), buffer ++ bytes)) ∨
    ∃ refusal, size c a superset? v = .error refusal ∧ c.encode a superset? v = .error refusal ∧
      ∀ buffer, (write c a superset? v).run buffer = (.error refusal, buffer)

theorem measured_of_ends {α : Type} [WireForm α] {c : DepsCodec} {superset? : Option RoutingKeys}
    {v : WireVersion} {outcome : α → Except Refusal Bytes}
    (hwrite : ∀ a, Writer.Ends (write c a superset? v) (outcome a))
    (hsize : ∀ a, size c a superset? v = (outcome a).map List.length) :
    Measured α c superset? v := by
  intro a
  have hends := hwrite a
  have hmeasure := hsize a
  cases houtcome : outcome a with
  | error refusal =>
    rw [houtcome] at hends hmeasure
    refine .inr ⟨refusal, hmeasure, ?_, hends⟩
    rw [DepsCodec.encode, hmeasure]
    rfl
  | ok bytes =>
    rw [houtcome] at hends hmeasure
    refine .inl ⟨bytes, hmeasure, ?_, hends⟩
    rw [DepsCodec.encode, hmeasure, hends []]
    rfl

/-- All four forms are measured exactly. -/
theorem size_exact (c : DepsCodec) (v : WireVersion) (superset? : Option RoutingKeys) :
    Measured Deps c superset? v ∧ Measured PartialDeps c superset? v ∧
      Measured (Option Deps) c superset? v ∧ Measured (Option PartialDeps) c superset? v := by
  refine ⟨?_, ?_, ?_, ?_⟩
  · exact measured_of_ends DepsCodec.ends_write DepsCodec.size_eq
  · exact measured_of_ends DepsCodec.ends_writePartial DepsCodec.sizePartial_eq
  · exact measured_of_ends (DepsCodec.ends_writeNullable DepsCodec.ends_write)
      (DepsCodec.sizeNullable_eq (fun d _ => DepsCodec.outcome_of_refused_version d)
        DepsCodec.size_eq)
  · exact measured_of_ends (DepsCodec.ends_writeNullable DepsCodec.ends_writePartial)
      (DepsCodec.sizeNullable_eq (fun p _ => DepsCodec.outcomePartial_of_refused_version p)
        DepsCodec.sizePartial_eq)

end WireForm

end TxnDeps
