import TxnDeps.Proofs.Wire.Delimiting

namespace TxnDeps

open Step (ReadsIf Reads Refuses Safe)

namespace Step

open Source (rest advance)

variable {σ ε α β : Type} [Source σ]

/-- Wherever the bytes are next, a value that is read has the property, and is read from the whole
of them. -/
def Takes (step : Step σ ε α) (bytes : Bytes) (property : α → Prop) : Prop :=
  ∀ s left, rest s = bytes ++ left → ∀ a s', step.run s = (.ok a, s') →
    s' = advance bytes.length s ∧ property a

theorem Reads.takes {step : Step σ ε α} {bytes : Bytes} {a : α} (h : Reads step bytes a) :
    Takes step bytes (· = a) := by
  intro s left hs b s' hrun
  rw [h s left hs] at hrun
  cases hrun
  exact ⟨rfl, rfl⟩

theorem ReadsIf.takes {fits : Prop} {step : Step σ (Halt ε) α} {bytes : Bytes} {a : α}
    (h : ReadsIf fits step bytes a) : Takes step bytes (· = a) := by
  by_cases hfits : fits
  · exact (h.reads hfits).takes
  · intro s left hs b s' hrun
    obtain ⟨e, s₁, hrefused⟩ := h.refuses hfits s left hs
    rw [hrefused] at hrun
    cases hrun

namespace Takes

variable {step : Step σ ε α} {p q : α → Prop} {r : β → Prop} {bytes bytes' : Bytes}

theorem pure {a : α} (h : p a) : Takes (pure a : Step σ ε α) [] p := by
  intro s left _ b s' hrun
  cases hrun
  exact ⟨(Source.advance_zero s).symm, h⟩

theorem fail (e : ε) : Takes (fail e : Step σ ε α) bytes p := by
  intro s left _ a s' hrun
  cases hrun

theorem mono (h : Takes step bytes p) (hpq : ∀ a, p a → q a) : Takes step bytes q :=
  fun s left hs a s' hrun => (h s left hs a s' hrun).imp id (hpq a)

theorem bind {next : α → Step σ ε β} (h : Takes step bytes p)
    (hnext : ∀ a, p a → Takes (next a) bytes' r) : Takes (step >>= next) (bytes ++ bytes') r := by
  intro s left hs b s' hrun
  rw [List.append_assoc] at hs
  obtain ⟨a, s₁, hfirst, hsecond⟩ := exists_of_run_bind hrun
  obtain ⟨rfl, ha⟩ := h s _ hs a s₁ hfirst
  rw [List.length_append, ← Source.advance_advance]
  exact hnext a ha _ left (rest_advance_of_append hs) b s' hsecond

theorem last {next : α → Step σ ε β} (h : Takes step bytes p)
    (hnext : ∀ a, p a → Takes (next a) [] r) : Takes (step >>= next) bytes r := by
  rw [← List.append_nil bytes]
  exact h.bind hnext

theorem times {encode : α → Bytes} {xs : List α}
    (h : ∀ x ∈ xs, Takes step (encode x) fun _ => True) :
    Takes (step.times xs.length) (xs.flatMap encode) fun _ => True := by
  induction xs with
  | nil => exact pure trivial
  | cons x xs ih =>
    have htail := ih fun y hy => h y (List.mem_cons_of_mem x hy)
    exact (h x List.mem_cons_self).bind fun a _ => htail.last fun rest _ => pure trivial

theorem and_safe {step : Step σ (Halt ε) α} (h : Takes step bytes p) (hsafe : Safe step q) :
    Takes step bytes fun a => p a ∧ q a := by
  intro s left hs a s' hrun
  obtain ⟨hstate, ha⟩ := h s left hs a s' hrun
  have hvalue : (step.run s).1 = .ok a := congrArg Prod.fst hrun
  exact ⟨hstate, ha, (hsafe s).of_ok hvalue⟩

end Takes

end Step

open Step (Takes Delimited)

namespace Reader

variable {α : Type}

theorem takes_position {next : Nat → Reader α} {bytes : Bytes} {p : α → Prop}
    (h : ∀ start, Takes (next start) bytes p) : Takes (position >>= next) bytes p :=
  fun c left hc => h c.position c left hc

theorem takes_failAt {bytes : Bytes} {p : α → Prop} (offset : Nat) (defect : Defect) :
    Takes (failAt offset defect : Reader α) bytes p :=
  Takes.fail _

theorem takes_txnIds {limit : Nat} (hlimit : limit < 2 ^ 64) (txns : List TxnId) :
    Takes (txnIds limit) (Uvarint.encode txns.length ++ txns.flatMap (·.encode))
      fun _ => True := by
  apply takes_position
  intro start
  apply (readsIf_count hlimit txns.length).takes.bind
  rintro _ rfl
  apply (Takes.times fun t _ => (reads_txnId t).takes.mono fun _ _ => trivial).last
  intro listed _
  split
  · exact Takes.pure trivial
  · exact takes_failAt _ _

/-- The keys may be others than those of the graph. If there are any links for them, they are few
enough to number. -/
theorem takes_body {α : Type} [Ord α] {limit : Nat} (hlimit : limit < 2 ^ 64)
    (keys : SortedList α) (g : Graph α) :
    Takes (body limit keys) g.encodeBody fun read => read.keys = keys ∧ keys.size < 2 ^ 64 := by
  have htakes : Takes (body limit keys) g.encodeBody fun _ => True := by
    rw [Graph.encodeBody, List.append_assoc]
    apply (takes_txnIds hlimit g.txnIds).bind
    intro txns _
    apply takes_position
    intro start
    apply (readsIf_count hlimit g.links.length).takes.bind
    rintro _ rfl
    apply (Takes.times fun link _ => (reads_uvarint32 link).takes.mono fun _ _ => trivial).last
    intro links _
    split
    · exact Takes.fail _
    · next read _ =>
      cases checkEntries start read with
      | error e => exact Takes.fail e
      | ok _ => exact Takes.pure trivial
  apply (htakes.and_safe (safe_body limit keys)).mono
  rintro read ⟨-, hkeys, hread, hwithin⟩
  have hsize := hread.size_keys_le_limit hwithin
  rw [hkeys] at hsize
  exact ⟨hkeys, Nat.lt_of_le_of_lt hsize hlimit⟩

end Reader

theorem RangeCodec.takes_read (c : RangeCodec) (r : TokenRange) :
    Takes c.read (c.encode r) fun _ => True := by
  cases c with
  | token =>
    apply Reader.takes_position
    intro offset
    apply (Reader.reads_routingKey r.start).takes.bind
    rintro start -
    apply (Reader.reads_routingKey r.stop).takes.last
    rintro stop -
    split
    · exact Takes.pure trivial
    · exact Reader.takes_failAt _ _
  | simple table =>
    apply (reads_readEnd r.start.kind).takes.bind
    rintro start -
    exact (reads_readEnd r.stop.kind).takes.last fun _ _ => Takes.pure trivial

namespace DepsCodec

variable (c : DepsCodec)

theorem takes_readRanges (ranges : Ranges) (start : Nat) (disorder : Defect) :
    Takes (c.readRanges start disorder) (c.encodeRanges ranges) fun _ => True := by
  apply (Reader.readsIf_count c.config.limit_lt ranges.size).takes.bind
  rintro _ rfl
  apply (Takes.times fun r _ => c.ranges.takes_read r).last
  intro listed _
  split
  · exact Takes.pure trivial
  · exact Reader.takes_failAt _ _

theorem takes_readDeps (d : Deps) {v : WireVersion} {superset? : Option RoutingKeys}
    {mode : KeySetMode} (hmode : HasMode d.byKey.keys v superset? mode)
    (hsize : ∀ superset ∈ superset?, superset.size < 2 ^ 64) :
    Takes (c.readDeps superset? v) (c.bytes d mode) fun _ => True := by
  have hlimit := c.config.limit_lt
  obtain ⟨_, -, hkeys⟩ := readsIf_readKeySet (c := c) hmode hsize
  rw [bytes]
  apply hkeys.takes.bind
  rintro _ rfl
  apply (Reader.takes_body hlimit d.byKey.keys d.byKey).bind
  rintro byKey ⟨hbyKey, hfew⟩
  apply Reader.takes_position
  intro start
  apply (c.takes_readRanges d.byRange.keys start .rangeOrder).bind
  intro ranges _
  apply (Reader.takes_body hlimit ranges d.byRange).bind
  intro byRange _
  rw [directBytes, List.append_assoc]
  apply (Reader.reads_bool (d.direct.keys.isSubsetOf d.byKey.keys)).takes.bind
  rintro _ rfl
  rw [hbyKey]
  apply (readsIf_readKeys fun h => ⟨SortedList.isSubsetOf_eq_true_iff.1 h, hfew⟩).takes.bind
  rintro _ rfl
  exact (Reader.takes_body hlimit d.direct.keys d.direct).last fun _ _ => Takes.pure trivial

theorem takes_readParticipants (p : Participants) :
    Takes c.readParticipants (c.encodeParticipants p) fun _ => True := by
  apply Reader.takes_position
  intro start
  cases p with
  | keys ks =>
    apply (Reader.reads_byte 0).takes.bind
    rintro _ rfl
    exact (Reader.readsIf_routingKeys c.config.limit_lt ks).takes.last fun _ _ => Takes.pure trivial
  | ranges rs =>
    apply (Reader.reads_byte 1).takes.bind
    rintro _ rfl
    exact (c.takes_readRanges rs start .coveringOrder).last fun _ _ => Takes.pure trivial

variable {c} {v : WireVersion} {superset? : Option RoutingKeys}

/-- What is appended by the writing, if it is not refused, is taken in full by the reading. -/
def Fills {α : Type} (c : DepsCodec) (v : WireVersion) (write : Writer) (read : Reader α) : Prop :=
  ∀ buffer written, write.run buffer = (.ok (), written) →
    c.config.check v = .ok () ∧ ∃ bytes, written = buffer ++ bytes ∧ Takes read bytes fun _ => True

theorem fills_write (d : Deps) (hsize : ∀ superset ∈ superset?, superset.size < 2 ^ 64) :
    Fills c v (c.write d superset? v) (c.readDeps superset? v) := by
  intro buffer written hwrite
  obtain ⟨bytes, houtcome, rfl⟩ := (ends_write d).exists_of_run hwrite
  obtain ⟨hcheck, mode, hmode, rfl⟩ := outcome_eq_ok houtcome
  exact ⟨hcheck, _, rfl, c.takes_readDeps d hmode hsize⟩

theorem fills_writePartial (p : PartialDeps)
    (hsize : ∀ superset ∈ superset?, superset.size < 2 ^ 64) :
    Fills c v (c.writePartial p superset? v) (c.readPartial superset? v) := by
  intro buffer written hwrite
  obtain ⟨bytes, houtcome, rfl⟩ := (ends_writePartial p).exists_of_run hwrite
  obtain ⟨hcheck, mode, hmode, rfl⟩ := outcomePartial_eq_ok houtcome
  refine ⟨hcheck, _, rfl, ?_⟩
  apply (c.takes_readDeps p.deps hmode hsize).bind
  intro deps _
  exact (c.takes_readParticipants p.covering).last fun _ _ => Takes.pure trivial

theorem fills_writeNullable {α : Type} {write : α → Writer} {read : Reader α} {a? : Option α}
    (h : ∀ a ∈ a?, Fills c v (write a) read) :
    Fills c v (c.writeNullable write v a?) (readNullable read) := by
  intro buffer written hwrite
  obtain ⟨rfl, hcheck, rfl⟩ | ⟨a, rfl, hrun⟩ := writeNullable_cases hwrite
  · refine ⟨hcheck, [0], rfl, ?_⟩
    apply (reads_readMarker false).takes.last
    rintro _ rfl
    exact Takes.pure trivial
  · obtain ⟨hcheck, bytes, rfl, htakes⟩ := h a rfl _ _ hrun
    refine ⟨hcheck, 1 :: bytes, by simp, ?_⟩
    apply (reads_readMarker true).takes.bind
    rintro _ rfl
    exact htakes.last fun a _ => Takes.pure trivial

end DepsCodec

namespace WireForm

open DepsCodec (Fills)

/-- Whatever is appended for a value is corrupt when it is cut short, and corrupt as a whole with
anything behind it. -/
def Seals (α : Type) [WireForm α] (c : DepsCodec) (superset? : Option RoutingKeys)
    (v : WireVersion) : Prop :=
  ∀ (a : α) buffer written, (write c a superset? v).run buffer = (.ok (), written) →
    ∃ bytes, written = buffer ++ bytes ∧
      (∀ k < bytes.length, ∀ start, ∃ fault cursor, (decode (α := α) c superset? v).run
        ⟨bytes.take k, start⟩ = (.error (.failed (.ofFault fault)), cursor)) ∧
      ∀ suffix ≠ [], ∃ fault, c.ofBytes (α := α) superset? v (bytes ++ suffix) =
        .error (.failed (.ofFault fault))

variable {α : Type} [WireForm α] {c : DepsCodec} {superset? : Option RoutingKeys} {v : WireVersion}

theorem ofBytes_eq_trailing {bytes : Bytes} {a : α} {cursor : Cursor}
    (h : (decode c superset? v).run (.start bytes) = (.ok a, cursor)) (hrest : cursor.rest ≠ []) :
    c.ofBytes (α := α) superset? v bytes =
      .error (.failed (.ofFault ⟨cursor.position, .trailing cursor.remaining⟩)) := by
  obtain ⟨_ | ⟨b, rest⟩, position⟩ := cursor
  · exact absurd rfl hrest
  · rw [DepsCodec.ofBytes, Step.run_bind_of_ok h]
    rfl

theorem ofBytes_eq_error {bytes : Bytes} {halt : Halt Error} {cursor : Cursor}
    (h : (decode (α := α) c superset? v).run (.start bytes) = (.error halt, cursor)) :
    c.ofBytes (α := α) superset? v bytes = .error halt := by
  rw [DepsCodec.ofBytes, Step.run_bind_of_error h]

theorem seals_of_fills {read : Reader α} {sound : α → Prop}
    (hdecode : decode (α := α) c superset? v = c.checked v read) (hdelimited : Delimited read)
    (hsafe : Safe read sound) (h : ∀ a : α, Fills c v (write c a superset? v) read) :
    Seals α c superset? v := by
  intro a buffer written hwrite
  obtain ⟨hcheck, bytes, hwritten, htakes⟩ := h a buffer written hwrite
  have hguarded := guarded_of_safe hdecode (CodecConfig.check_eq_ok_iff.1 hcheck) hsafe
  -- A value that is decoded with the bytes in front leaves just what is behind them.
  have hleaves : ∀ suffix start b cursor,
      (decode (α := α) c superset? v).run ⟨bytes ++ suffix, start⟩ = (.ok b, cursor) →
        cursor.rest = suffix := by
    intro suffix start b cursor hrun
    rw [hdecode, DepsCodec.run_checked hcheck] at hrun
    have hread := Step.run_of_run_mapError hrun
    obtain ⟨rfl, -⟩ := htakes _ suffix rfl b cursor hread
    exact List.drop_left
  refine ⟨bytes, hwritten, fun k hk start => ?_, fun suffix hsuffix => ?_⟩
  · obtain ⟨b, hb, -⟩ | ⟨fault, hfault⟩ := hguarded ⟨bytes.take k, start⟩
    · obtain ⟨cursor, hrun⟩ : ∃ cursor, (decode c superset? v).run ⟨bytes.take k, start⟩ =
        (.ok b, cursor) := ⟨_, Prod.ext hb rfl⟩
      obtain ⟨p, hp, -, hagree, -⟩ := selfDelimiting_of_delimited hdecode hdelimited _ _ _ _ hrun
      have hpk : p ≤ k := Nat.le_trans hp (List.length_take_le k bytes)
      have hsame : bytes.take p = (bytes.take k).take p := by
        rw [List.take_take, Nat.min_eq_left hpk]
      have hfull := hagree bytes hsame
      rw [← List.append_nil bytes] at hfull
      have hrest : (bytes ++ []).drop p = [] := hleaves [] start b _ hfull
      rw [List.append_nil, List.drop_eq_nil_iff] at hrest
      omega
    · exact ⟨fault, _, Prod.ext hfault rfl⟩
  · obtain ⟨b, hb, -⟩ | ⟨fault, hfault⟩ := hguarded (.start (bytes ++ suffix))
    · obtain ⟨cursor, hrun⟩ : ∃ cursor, (decode c superset? v).run (.start (bytes ++ suffix)) =
        (.ok b, cursor) := ⟨_, Prod.ext hb rfl⟩
      have hrest := hleaves suffix 0 b cursor hrun
      exact ⟨_, ofBytes_eq_trailing hrun (hrest ▸ hsuffix)⟩
    · exact ⟨fault, ofBytes_eq_error (Prod.ext hfault rfl)⟩

/-- All four forms delimit themselves, and seal what they write. The length of a superset is a
number of 64 bits. -/
theorem decode_delimits (c : DepsCodec) (v : WireVersion) (superset? : Option RoutingKeys) :
    (SelfDelimiting Deps c superset? v ∧ SelfDelimiting PartialDeps c superset? v ∧
      SelfDelimiting (Option Deps) c superset? v ∧
      SelfDelimiting (Option PartialDeps) c superset? v) ∧
    ((∀ superset ∈ superset?, superset.size < 2 ^ 64) →
      Seals Deps c superset? v ∧ Seals PartialDeps c superset? v ∧
        Seals (Option Deps) c superset? v ∧ Seals (Option PartialDeps) c superset? v) := by
  have hdeps := c.delimited_readDeps superset? v
  have hpartial := c.delimited_readPartial superset? v
  have hdeps? := DepsCodec.delimited_readNullable hdeps
  have hpartial? := DepsCodec.delimited_readNullable hpartial
  refine ⟨⟨?_, ?_, ?_, ?_⟩, fun hsize => ⟨?_, ?_, ?_, ?_⟩⟩
  · exact selfDelimiting_of_delimited rfl hdeps
  · exact selfDelimiting_of_delimited rfl hpartial
  · exact selfDelimiting_of_delimited rfl hdeps?
  · exact selfDelimiting_of_delimited rfl hpartial?
  · exact seals_of_fills rfl hdeps (c.safe_readDeps superset? v)
      fun d => DepsCodec.fills_write d hsize
  · exact seals_of_fills rfl hpartial (c.safe_readPartial superset? v)
      fun p => DepsCodec.fills_writePartial p hsize
  · exact seals_of_fills rfl hdeps? (DepsCodec.safe_readNullable (c.safe_readDeps superset? v))
      fun d? => DepsCodec.fills_writeNullable fun d _ => DepsCodec.fills_write d hsize
  · exact seals_of_fills rfl hpartial?
      (DepsCodec.safe_readNullable (c.safe_readPartial superset? v))
      fun p? => DepsCodec.fills_writeNullable fun p _ => DepsCodec.fills_writePartial p hsize

/-- What is written relative to a superset, and no dependencies with a count in two bytes where one
would do. -/
theorem decode_delimits_relative :
    let key := RoutingKey.token (.ofNat 7)
    let superset : RoutingKeys := .ofList [key 1, key 3, key 5]
    let c : DepsCodec := ⟨.simple (.ofNat 7), .forTesting⟩
    let padded : Bytes := [0x80, 0, 0, 0, 0, 0, 0, 0, 0, 0, 0]
    (∀ s ∈ some superset, s.size < 2 ^ 64) ∧
      (∃ bytes, (write c sampleDeps (some superset) .v2).run [] = (.ok (), bytes) ∧
        ∀ suffix ≠ [], ∃ fault, c.ofBytes (α := Deps) (some superset) .v2 (bytes ++ suffix) =
          .error (.failed (.ofFault fault))) ∧
      ∀ suffix, (decode c none .v1).run (.start (padded ++ suffix)) =
        (.ok Deps.empty, ⟨suffix, 11⟩) := by
  intro key superset c padded
  have hsize : ∀ s ∈ some superset, s.size < 2 ^ 64 := by decide
  refine ⟨hsize, ?_, fun suffix => ?_⟩
  · have hmode : c.keySetMode sampleDeps.byKey.keys (some superset) .v2 =
        .ok (.relative superset true) := rfl
    have hrun := DepsCodec.puts_write hmode []
    obtain ⟨bytes, hbytes, -, hbehind⟩ :=
      ((decode_delimits c .v2 (some superset)).2 hsize).1 sampleDeps [] _ hrun
    rw [List.nil_append] at hbytes
    rw [hbytes] at hrun
    exact ⟨bytes, hrun, hbehind⟩
  · have hdecode : (decode c none .v1).run ⟨padded, 0⟩ = (.ok Deps.empty, ⟨[], 11⟩) := rfl
    obtain ⟨p, hp, hcursor, hagree, -⟩ := (decode_delimits c .v1 none).1.1 padded 0 _ _ hdecode
    have hconsumed : 0 + p = 11 := (congrArg Cursor.position hcursor).symm
    rw [Nat.zero_add] at hconsumed
    subst hconsumed
    exact hagree (padded ++ suffix) rfl

end WireForm

end TxnDeps
