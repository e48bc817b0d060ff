import TxnDeps.Proofs.Deps.WellFormed
import TxnDeps.Proofs.Range.Union
import TxnDeps.Proofs.Wire.Body
import TxnDeps.Proofs.Wire.Subset
import TxnDeps.Proofs.Wire.Writing

namespace TxnDeps

open Step (Reads ReadsIf Refuses Safe)

structure Deps.Within (d : Deps) (limit : Nat) : Prop where
  byKey : d.byKey.Within limit
  byRange : d.byRange.Within limit
  direct : d.direct.Within limit

structure PartialDeps.Within (p : PartialDeps) (limit : Nat) : Prop where
  deps : p.deps.Within limit
  covering : p.covering.size ≤ limit

theorem Deps.Within.mono {d : Deps} {limit limit' : Nat} (h : d.Within limit)
    (hle : limit ≤ limit') : d.Within limit' :=
  ⟨h.byKey.mono hle, h.byRange.mono hle, h.direct.mono hle⟩

theorem PartialDeps.Within.mono {p : PartialDeps} {limit limit' : Nat} (h : p.Within limit)
    (hle : limit ≤ limit') : p.Within limit' :=
  ⟨h.deps.mono hle, Nat.le_trans h.covering hle⟩

structure DepsCodec.Carries (c : DepsCodec) (d : Deps) : Prop where
  wellFormed : d.WellFormed
  ranges : ∀ r ∈ d.byRange.keys, c.ranges.Carries r

structure DepsCodec.CarriesPartial (c : DepsCodec) (p : PartialDeps) : Prop where
  deps : c.Carries p.deps
  covering : ∀ r ∈ p.covering.rangeSet, c.ranges.Carries r

theorem CodecConfig.limit_lt (c : CodecConfig) : c.limit < 2 ^ 64 := c.maxLength.toNat_lt

namespace DepsCodec

variable {c : DepsCodec}

theorem readsIf_readKeys {relative : Bool} {keys superset : RoutingKeys}
    (h : relative = true → (∀ k ∈ keys, k ∈ superset) ∧ superset.size < 2 ^ 64) :
    ReadsIf (relative = true ∨ keys.size ≤ c.config.limit) (c.readKeys relative superset)
      (if relative then Marks.encode (keys.marks superset) else keys.encode) keys := by
  cases relative
  · exact (Reader.readsIf_routingKeys c.config.limit_lt keys).of_iff (by simp)
  · obtain ⟨hsubset, hsize⟩ := h rfl
    exact (SortedList.reads_readIn hsubset hsize).readsIf.of_iff (by simp)

theorem readsIf_readKeySet {keys : RoutingKeys} {v : WireVersion} {superset? : Option RoutingKeys}
    {mode : KeySetMode} (hmode : HasMode keys v superset? mode)
    (hsize : ∀ superset ∈ superset?, superset.size < 2 ^ 64) :
    ∃ q, (keys.size ≤ c.config.limit → q) ∧
      ReadsIf q (c.readKeySet v superset?) (keySetBytes keys mode) keys := by
  cases hmode with
  | full => exact ⟨_, id, Reader.readsIf_routingKeys c.config.limit_lt keys⟩
  | relative subset =>
    refine ⟨True, fun _ => trivial, ?_⟩
    have hin := SortedList.reads_readIn subset (hsize _ rfl)
    rw [keySetBytes, readKeySet]
    cases v.flagsKeySet
    · exact hin.readsIf
    · exact ((Reader.reads_bool true).bind hin).readsIf
  | flaggedFull flags =>
    refine ⟨_, id, ?_⟩
    rw [keySetBytes, readKeySet, if_pos flags]
    exact (Reader.reads_bool false).bindIf (Reader.readsIf_routingKeys c.config.limit_lt keys)

theorem readsIf_readRanges {ranges : Ranges} (h : ∀ r ∈ ranges, c.ranges.Carries r) (start : Nat)
    (disorder : Defect) :
    ReadsIf (ranges.size ≤ c.config.limit) (c.readRanges start disorder) (c.encodeRanges ranges)
      ranges := by
  refine ((Reader.readsIf_count c.config.limit_lt ranges.size).bind fun _ => ?_).of_iff
    (iff_of_eq (and_true _))
  refine ((Reads.times fun r hr => RangeCodec.reads_read (h r hr)).last ?_).readsIf
  rw [SortedList.ofAscending?_eq_some_iff.2 rfl]
  exact Reads.pure ranges

theorem refuses_readRanges {ranges : List TokenRange} (h : ∀ r ∈ ranges, c.ranges.Carries r)
    (hlen : ranges.length ≤ c.config.limit) (horder : ¬Ascending ranges) (start : Nat)
    (disorder : Defect) :
    Refuses (c.readRanges start disorder)
      (Uvarint.encode ranges.length ++ ranges.flatMap c.ranges.encode) := by
  apply Refuses.after ((Reader.readsIf_count c.config.limit_lt ranges.length).reads hlen)
  apply Refuses.last (Reads.times fun r hr => RangeCodec.reads_read (h r hr))
  rw [SortedList.ofAscending?_eq_none_iff.2 horder]
  exact Reader.refuses_failAt start _

theorem readsIf_readDeps {d : Deps} (hd : c.Carries d) {v : WireVersion}
    {superset? : Option RoutingKeys} {mode : KeySetMode}
    (hmode : HasMode d.byKey.keys v superset? mode)
    (hsize : ∀ superset ∈ superset?, superset.size < 2 ^ 64) :
    ReadsIf (d.Within c.config.limit) (c.readDeps superset? v) (c.bytes d mode) d := by
  have hlimit := c.config.limit_lt
  obtain ⟨⟨hkey, hrange, hdirect⟩, hcarries⟩ := hd
  obtain ⟨q, hq, hkeys⟩ := readsIf_readKeySet (c := c) hmode hsize
  -- The keys of the key graph stand among its links, so there are few enough to number them.
  have hfew : d.byKey.keys.size < 2 ^ 64 := by
    obtain ⟨runs, hruns, -⟩ := hkey.runs
    exact Nat.lt_of_le_of_lt hkey.size_keys_le (Nat.lt_trans hruns.holds.length_lt (by decide))
  have hdirectKeys : ReadsIf _ (c.readKeys (d.direct.keys.isSubsetOf d.byKey.keys) d.byKey.keys)
      _ d.direct.keys := readsIf_readKeys fun h =>
    ⟨SortedList.isSubsetOf_eq_true_iff.1 h, hfew⟩
  have hfits : q ∧ d.byKey.Within c.config.limit ∧ d.byRange.keys.size ≤ c.config.limit ∧
      d.byRange.Within c.config.limit ∧ (d.direct.keys.isSubsetOf d.byKey.keys = true ∨
        d.direct.keys.size ≤ c.config.limit) ∧ d.direct.Within c.config.limit ↔
      d.Within c.config.limit := by
    constructor
    · rintro ⟨-, hbyKey, -, hbyRange, -, hbyDirect⟩
      exact ⟨hbyKey, hbyRange, hbyDirect⟩
    · intro h
      exact ⟨hq (hkey.size_keys_le_limit h.byKey), h.byKey, hrange.size_keys_le_limit h.byRange,
        h.byRange, .inr (hdirect.size_keys_le_limit h.direct), h.direct⟩
  rw [bytes]
  refine ReadsIf.of_iff (hkeys.bind fun _ => ?_) hfits
  apply (Reader.readsIf_body hlimit hkey).bind
  intro _
  apply Reader.readsIf_position
  intro start
  apply (readsIf_readRanges hcarries start .rangeOrder).bind
  intro _
  apply (Reader.readsIf_body hlimit hrange).bind
  intro _
  rw [directBytes, List.append_assoc]
  refine (Reader.reads_bool _).bindIf (hdirectKeys.bind fun _ => ?_)
  exact (Reader.readsIf_body hlimit hdirect).last fun _ => Reads.pure d

theorem readsIf_readParticipants {p : Participants} (h : ∀ r ∈ p.rangeSet, c.ranges.Carries r) :
    ReadsIf (p.size ≤ c.config.limit) c.readParticipants (c.encodeParticipants p) p := by
  apply Reader.readsIf_position
  intro start
  cases p with
  | keys ks =>
    apply (Reader.reads_byte 0).bindIf
    exact (Reader.readsIf_routingKeys c.config.limit_lt ks).last fun _ => Reads.pure _
  | ranges rs =>
    apply (Reader.reads_byte 1).bindIf
    exact (readsIf_readRanges h start .coveringOrder).last fun _ => Reads.pure _

/-- What is appended for the value, if it is not refused, is read as the value within the
condition, and refused otherwise. -/
def Recovers {α : Type} (c : DepsCodec) (v : WireVersion) (write : Writer) (read : Reader α) (a : α)
    (within : Prop) : Prop :=
  ∀ buffer written, write.run buffer = (.ok (), written) →
    c.config.check v = .ok () ∧ ∃ bytes, written = buffer ++ bytes ∧ ReadsIf within read bytes a

variable {v : WireVersion} {superset? : Option RoutingKeys}

theorem recovers_write {d : Deps} (hd : c.Carries d)
    (hsize : ∀ superset ∈ superset?, superset.size < 2 ^ 64) :
    Recovers c v (c.write d superset? v) (c.readDeps superset? v) d
      (d.Within c.config.limit) := by
  intro buffer written hwrite
  obtain ⟨bytes, houtcome, rfl⟩ := (ends_write d).exists_of_run hwrite
  obtain ⟨hcheck, mode, hmode, rfl⟩ := outcome_eq_ok houtcome
  exact ⟨hcheck, _, rfl, readsIf_readDeps hd hmode hsize⟩

theorem recovers_writePartial {p : PartialDeps} (hp : c.CarriesPartial p)
    (hsize : ∀ superset ∈ superset?, superset.size < 2 ^ 64) :
    Recovers c v (c.writePartial p superset? v) (c.readPartial superset? v) p
      (p.Within c.config.limit) := by
  intro buffer written hwrite
  obtain ⟨bytes, houtcome, rfl⟩ := (ends_writePartial p).exists_of_run hwrite
  obtain ⟨hcheck, mode, hmode, rfl⟩ := outcomePartial_eq_ok houtcome
  have hfits : p.deps.Within c.config.limit ∧ p.covering.size ≤ c.config.limit ↔
      p.Within c.config.limit := ⟨fun h => ⟨h.1, h.2⟩, fun h => ⟨h.1, h.2⟩⟩
  refine ⟨hcheck, _, rfl, ?_⟩
  refine ReadsIf.of_iff ((readsIf_readDeps hp.deps hmode hsize).bind fun _ => ?_) hfits
  exact (readsIf_readParticipants hp.covering).last fun _ => Reads.pure p

theorem reads_readMarker (present : Bool) :
    Reads readMarker [if present then 1 else 0] present := by
  apply Reader.reads_position
  intro start
  cases present
  · exact (Reader.reads_byte 0).last (Reads.pure false)
  · exact (Reader.reads_byte 1).last (Reads.pure true)

theorem recovers_writeNullable {α : Type} {write : α → Writer} {read : Reader α} {within : α → Prop}
    {a? : Option α} (h : ∀ a ∈ a?, Recovers c v (write a) read a (within a)) :
    Recovers c v (c.writeNullable write v a?) (readNullable read) a? (∀ a ∈ a?, within a) := by
  intro buffer written hwrite
  obtain ⟨rfl, hcheck, rfl⟩ | ⟨a, rfl, hrun⟩ := writeNullable_cases hwrite
  · have hread : Reads (readNullable read) [0] none :=
      (reads_readMarker false).last (Reads.pure none)
    exact ⟨hcheck, [0], rfl, hread.readsIf.of_iff (by simp)⟩
  · have hfits : within a ↔ ∀ b ∈ some a, within b := by simp
    obtain ⟨hcheck, bytes, rfl, hread⟩ := h a rfl _ _ hrun
    refine ⟨hcheck, 1 :: bytes, by simp, ?_⟩
    refine ReadsIf.of_iff ((reads_readMarker true).bindIf ?_) hfits
    exact hread.last fun _ => Reads.pure (some a)

end DepsCodec

namespace WireForm

open DepsCodec (Recovers)

/-- What is appended for the value, if it is not refused, is read back in front of any suffix if and
only if the condition holds. Otherwise it is reported as corrupt. -/
def RoundTrips {α : Type} [WireForm α] (c : DepsCodec) (superset? : Option RoutingKeys)
    (v : WireVersion) (a : α) (within : Prop) : Prop :=
  ∀ buffer written, (write c a superset? v).run buffer = (.ok (), written) →
    ∃ bytes, written = buffer ++ bytes ∧ ∀ suffix position,
      ((decode c superset? v).run ⟨bytes ++ suffix, position⟩ =
        (.ok a, ⟨suffix, position + bytes.length⟩) ↔ within) ∧
      (¬within → ∃ fault cursor, (decode (α := α) c superset? v).run ⟨bytes ++ suffix, position⟩ =
        (.error (.failed (.ofFault fault)), cursor))

theorem roundTrips_of_recovers {α : Type} [WireForm α] {c : DepsCodec}
    {superset? : Option RoutingKeys} {v : WireVersion} {read : Reader α} {a : α} {within : Prop}
    (hdecode : decode (α := α) c superset? v = c.checked v read)
    (h : Recovers c v (write c a superset? v) read a within) :
    RoundTrips c superset? v a within := by
  intro buffer written hwrite
  obtain ⟨hcheck, bytes, hbytes, hread⟩ := h buffer written hwrite
  refine ⟨bytes, hbytes, fun suffix position => ?_⟩
  have hrun : (decode (α := α) c superset? v).run ⟨bytes ++ suffix, position⟩ =
      (read.mapError (Halt.map Error.ofFault)).run ⟨bytes ++ suffix, position⟩ := by
    rw [hdecode]
    exact DepsCodec.run_checked hcheck read _
  have hback : within → (decode c superset? v).run ⟨bytes ++ suffix, position⟩ =
      (.ok a, ⟨suffix, position + bytes.length⟩) := by
    intro hwithin
    exact hrun.trans (((hread.reads hwithin).mapError _).run_cursor suffix position)
  have hrefuse : ¬within → ∃ fault cursor, (decode (α := α) c superset? v).run
      ⟨bytes ++ suffix, position⟩ = (.error (.failed (.ofFault fault)), cursor) := by
    intro hwithin
    obtain ⟨fault, cursor, hfault⟩ :=
      hread.refuses hwithin ⟨bytes ++ suffix, position⟩ suffix rfl
    exact ⟨fault, cursor, hrun.trans (Step.run_mapError_of_error _ hfault)⟩
  refine ⟨⟨fun hok => ?_, hback⟩, hrefuse⟩
  by_cases hwithin : within
  · exact hwithin
  · obtain ⟨fault, cursor, hfault⟩ := hrefuse hwithin
    rw [hfault] at hok
    cases hok

/-- Every form of dependencies round-trips within the limit. The length of a superset is a number of
64 bits. -/
theorem decode_write (c : DepsCodec) (v : WireVersion) (superset? : Option RoutingKeys)
    (hsize : ∀ superset ∈ superset?, superset.size < 2 ^ 64) :
    (∀ d : Deps, c.Carries d → RoundTrips c superset? v d (d.Within c.config.limit)) ∧
      (∀ p : PartialDeps, c.CarriesPartial p →
        RoundTrips c superset? v p (p.Within c.config.limit)) ∧
      (∀ d? : Option Deps, (∀ d ∈ d?, c.Carries d) →
        RoundTrips c superset? v d? (∀ d ∈ d?, d.Within c.config.limit)) ∧
      ∀ p? : Option PartialDeps, (∀ p ∈ p?, c.CarriesPartial p) →
        RoundTrips c superset? v p? (∀ p ∈ p?, p.Within c.config.limit) := by
  have hdeps : ∀ d, c.Carries d → Recovers c v (c.write d superset? v) (c.readDeps superset? v) d
      (d.Within c.config.limit) := fun d hd => DepsCodec.recovers_write hd hsize
  have hpartial : ∀ p, c.CarriesPartial p → Recovers c v (c.writePartial p superset? v)
      (c.readPartial superset? v) p (p.Within c.config.limit) := fun p hp =>
    DepsCodec.recovers_writePartial hp hsize
  refine ⟨fun d hd => ?_, fun p hp => ?_, fun d? hd => ?_, fun p? hp => ?_⟩
  · exact roundTrips_of_recovers rfl (hdeps d hd)
  · exact roundTrips_of_recovers rfl (hpartial p hp)
  · exact roundTrips_of_recovers rfl
      (DepsCodec.recovers_writeNullable fun d hmem => hdeps d (hd d hmem))
  · exact roundTrips_of_recovers rfl
      (DepsCodec.recovers_writeNullable fun p hmem => hpartial p (hp p hmem))

/-- Keys relative to a superset, and ranges of the one table. -/
theorem decode_write_relative :
    let key := RoutingKey.token (.ofNat 7)
    let superset : RoutingKeys := .ofList [key 1, key 3, key 5]
    let c : DepsCodec := ⟨.simple (.ofNat 7), .forTesting⟩
    (∀ s ∈ some superset, s.size < 2 ^ 64) ∧ c.Carries sampleDeps ∧
      ∃ bytes, (write c sampleDeps (some superset) .v2).run [] = (.ok (), bytes) ∧
        ∀ suffix position, (decode c (some superset) .v2).run ⟨bytes ++ suffix, position⟩ =
          (.ok sampleDeps, ⟨suffix, position + bytes.length⟩) := by
  intro key superset c
  have hsize : ∀ s ∈ some superset, s.size < 2 ^ 64 := by decide
  have hcarries : c.Carries sampleDeps := ⟨sampleDeps_wellFormed, by decide⟩
  have hmode : c.keySetMode sampleDeps.byKey.keys (some superset) .v2 =
      .ok (.relative superset true) := rfl
  have hrun := DepsCodec.puts_write hmode []
  have hwithin : sampleDeps.Within c.config.limit := ⟨by decide, by decide, by decide⟩
  refine ⟨hsize, hcarries, _, hrun, fun suffix position => ?_⟩
  obtain ⟨bytes, hbytes, hback⟩ :=
    (decode_write c .v2 (some superset) hsize).1 sampleDeps hcarries [] _ hrun
  rw [List.nil_append] at hbytes
  rw [hbytes]
  exact (hback suffix position).1.2 hwithin

end WireForm

end TxnDeps
