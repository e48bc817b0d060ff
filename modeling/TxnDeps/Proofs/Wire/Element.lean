import TxnDeps.Proofs.Sorted.Membership
import TxnDeps.Proofs.Wire.Uvarint
import TxnDeps.Wire.Element
import TxnDeps.Wire.RangeCodec

namespace TxnDeps

open Step (Reads ReadsIf Refuses Safe)

namespace Reader

theorem reads_txnId (t : TxnId) : Reads txnId t.encode t := by
  have hflags : t.flags.toNat < Bytes.capacity 2 := t.flags.toNat_lt
  rw [TxnId.encode, List.append_assoc, List.append_assoc]
  apply (reads_uvarint t.epoch.toNat_lt).bind
  apply (reads_uvarint t.clock.toNat_lt).bind
  apply reads_position
  intro start
  apply (reads_uvarint (Nat.lt_trans hflags (by decide))).bind
  rw [if_pos hflags]
  apply (reads_uvarint32 t.node).last
  rw [UInt64.ofNat_toNat, UInt64.ofNat_toNat, UInt16.ofNat_toNat]
  exact Reads.pure t

theorem reads_tableId (t : TableId) : Reads (bytes 16) t.bytes t.bytes := by
  have hlen : t.bytes.length = 16 := Bytes.length_bigEndian 16 _
  exact hlen ▸ reads_bytes t.bytes

theorem routingKey_eq :
    routingKey = bytes 16 >>= fun table => position >>= fun start => byte >>= fun tag =>
      if tag = 0 then pure (.min (.ofBytes table))
      else if tag = 1 then int64 >>= fun v => pure (.token (.ofBytes table) v)
      else if tag = 2 then pure (.max (.ofBytes table))
      else failAt start (.keyKind tag) := by
  refine congrArg (bytes 16 >>= ·) (funext fun table => byte_bind fun start tag left => ?_)
  split
  · rfl
  · split
    · rfl
    · split
      · rfl
      · exact failBefore_succ _ left start

theorem reads_routingKey (k : RoutingKey) : Reads routingKey k.encode k := by
  obtain ⟨table, kind⟩ := k
  rw [routingKey_eq]
  apply (reads_tableId table).bind
  apply reads_position
  intro start
  cases kind with
  | min =>
    apply (reads_byte 0).last
    rw [TableId.ofBytes_bytes]
    exact Reads.pure _
  | token v =>
    refine (reads_byte 1).bind ((reads_int64 v).last ?_)
    rw [TableId.ofBytes_bytes]
    exact Reads.pure _
  | max =>
    apply (reads_byte 2).last
    rw [TableId.ofBytes_bytes]
    exact Reads.pure _

theorem readsIf_routingKeys {limit : Nat} (hlimit : limit < 2 ^ 64) (ks : RoutingKeys) :
    ReadsIf (ks.size ≤ limit) (routingKeys limit) ks.encode ks := by
  apply readsIf_position
  intro start
  refine ((readsIf_count hlimit ks.size).bind fun _ => ?_).of_iff (iff_of_eq (and_true _))
  refine ((Reads.times fun k _ => reads_routingKey k).last ?_).readsIf
  rw [SortedList.ofAscending?_eq_some_iff.2 rfl]
  exact Reads.pure ks

theorem refuses_routingKeys {limit : Nat} (hlimit : limit < 2 ^ 64) {keys : List RoutingKey}
    (hlen : keys.length ≤ limit) (horder : ¬Ascending keys) :
    Refuses (routingKeys limit)
      (Uvarint.encode keys.length ++ keys.flatMap (·.encode)) := by
  apply refuses_position
  intro start
  apply Refuses.after ((readsIf_count hlimit keys.length).reads hlen)
  apply Refuses.last (Reads.times fun k _ => reads_routingKey k)
  rw [SortedList.ofAscending?_eq_none_iff.2 horder]
  exact refuses_failAt start _

theorem safe_txnId : Safe txnId fun _ => True := by
  apply safe_uvarint.bind
  intro epoch _
  apply safe_uvarint.bind
  intro clock _
  apply safe_position.bind
  intro start _
  apply safe_uvarint.bind
  intro flags _
  split
  · exact safe_uvarint32.bind fun node _ => Safe.pure trivial
  · exact safe_failAt _ _

theorem safe_routingKey : Safe routingKey fun _ => True := by
  rw [routingKey_eq]
  apply (safe_bytes 16).bind
  intro table _
  apply safe_position.bind
  intro start _
  apply safe_byte.bind
  intro tag _
  split
  · exact Safe.pure trivial
  · split
    · exact safe_int64.bind fun v _ => Safe.pure trivial
    · split
      · exact Safe.pure trivial
      · exact safe_failAt _ _

theorem safe_routingKeys (limit : Nat) : Safe (routingKeys limit) fun ks => ks.size ≤ limit := by
  apply safe_position.bind
  intro start _
  apply (safe_count limit).bind
  intro count hcount
  apply (safe_routingKey.times count).bind
  intro keys hkeys
  split
  · next ks hks =>
    have hsize : ks.size = count := by
      rw [SortedList.size, SortedList.ofAscending?_eq_some_iff.1 hks, hkeys.1]
    exact Safe.pure (hsize ▸ hcount)
  · exact safe_failAt _ _

end Reader

namespace RangeCodec

/-- The codec writes all that there is to the range. -/
def Carries : RangeCodec → TokenRange → Prop
  | token, r => r.SingleTable
  | simple table, r => r.start.table = table ∧ r.stop.table = table

instance (c : RangeCodec) (r : TokenRange) : Decidable (c.Carries r) :=
  match c with
  | token => inferInstanceAs (Decidable r.SingleTable)
  | simple _ => inferInstanceAs (Decidable (_ ∧ _))

theorem Carries.singleTable {c : RangeCodec} {r : TokenRange} (h : c.Carries r) :
    r.SingleTable := by
  cases c with
  | token => exact h
  | simple table => exact h.1.trans h.2.symm

theorem carries_simple_iff {table : TableId} {r : TokenRange} :
    (simple table).Carries r ↔ ∃ start stop, r = ⟨⟨table, start⟩, ⟨table, stop⟩⟩ := by
  constructor
  · rintro ⟨hstart, hstop⟩
    obtain ⟨⟨startTable, start⟩, ⟨stopTable, stop⟩⟩ := r
    change startTable = table at hstart
    change stopTable = table at hstop
    rw [hstart, hstop]
    exact ⟨start, stop, rfl⟩
  · rintro ⟨start, stop, rfl⟩
    exact ⟨rfl, rfl⟩

theorem reads_readEnd (k : KeyKind) : Reads readEnd (encodeEnd k) k := by
  apply Reader.reads_position
  intro start
  cases k with
  | min => exact (Reader.reads_byte 0).last (Reads.pure _)
  | token v =>
    apply (Reader.reads_byte 1).bind
    apply (Reader.reads_uvarint (zigzag v).toNat_lt).last
    rw [UInt64.ofNat_toNat, unzigzag_zigzag]
    exact Reads.pure _
  | max => exact (Reader.reads_byte 2).last (Reads.pure _)

theorem reads_read {c : RangeCodec} {r : TokenRange} (h : c.Carries r) :
    Reads c.read (c.encode r) r := by
  cases c with
  | token =>
    apply Reader.reads_position
    intro offset
    apply (Reader.reads_routingKey r.start).bind
    apply (Reader.reads_routingKey r.stop).last
    have hcreate : TokenRange.create r.start r.stop = .ok r := if_pos h
    rw [hcreate]
    exact Reads.pure r
  | simple table =>
    obtain ⟨start, stop, rfl⟩ := carries_simple_iff.1 h
    exact (reads_readEnd start).bind ((reads_readEnd stop).last (Reads.pure _))

theorem safe_readEnd : Safe readEnd fun _ => True := by
  apply Reader.safe_position.bind
  intro start _
  apply Reader.safe_byte.bind
  intro tag _
  split
  · exact Safe.pure trivial
  · split
    · exact Reader.safe_uvarint.bind fun n _ => Safe.pure trivial
    · split
      · exact Safe.pure trivial
      · exact Reader.safe_failAt _ _

theorem safe_read (c : RangeCodec) : Safe c.read c.Carries := by
  cases c with
  | token =>
    apply Reader.safe_position.bind
    intro offset _
    apply Reader.safe_routingKey.bind
    intro start _
    apply Reader.safe_routingKey.bind
    intro stop _
    by_cases h : start.table = stop.table
    · have hcreate : TokenRange.create start stop = .ok ⟨start, stop⟩ := if_pos h
      rw [hcreate]
      exact Safe.pure h
    · have hcreate : TokenRange.create start stop = .error (.tables start stop) := if_neg h
      rw [hcreate]
      exact Reader.safe_failAt _ _
  | simple table =>
    exact safe_readEnd.bind fun start _ => safe_readEnd.bind fun stop _ => Safe.pure ⟨rfl, rfl⟩

end RangeCodec

end TxnDeps
