import TxnDeps.Proofs.Graph.Restriction
import TxnDeps.Proofs.Wire.RoundTrip

namespace TxnDeps

open Step (Safe)

structure Graph.Sound {α : Type} [Ord α] (g : Graph α) (limit : Nat) : Prop where
  wellFormed : g.WellFormed
  keys : g.keys.size ≤ limit
  txns : g.txnIds.length ≤ limit
  links : g.links.length ≤ limit
  associations : g.pairs.length ≤ limit

structure Deps.Sound (d : Deps) (limit : Nat) : Prop where
  byKey : d.byKey.Sound limit
  byRange : d.byRange.Sound limit
  direct : d.direct.Sound limit
  ranges : ∀ r ∈ d.byRange.keys, r.SingleTable

structure PartialDeps.Sound (p : PartialDeps) (limit : Nat) : Prop where
  deps : p.deps.Sound limit
  covering : p.covering.size ≤ limit
  ranges : ∀ r ∈ p.covering.rangeSet, r.SingleTable

/-- The keys are bounded even where they were read without a limit, since the links are. -/
theorem Graph.WellFormed.sound {α : Type} [Ord α] {g : Graph α} {limit : Nat} (h : g.WellFormed)
    (hlimit : g.Within limit) : g.Sound limit := by
  obtain ⟨runs, hruns, -⟩ := h.runs
  have hpairs := hruns.length_pairs
  have hlength := hruns.holds.length
  have hlinks := hlimit.links
  exact ⟨h, h.size_keys_le_limit hlimit, hlimit.txns, hlinks, by omega⟩

namespace DepsCodec

theorem Carries.sound {c : DepsCodec} {d : Deps} {limit : Nat} (h : c.Carries d)
    (hlimit : d.Within limit) : d.Sound limit where
  byKey := h.wellFormed.byKey.sound hlimit.byKey
  byRange := h.wellFormed.byRange.sound hlimit.byRange
  direct := h.wellFormed.direct.sound hlimit.direct
  ranges r hr := (h.ranges r hr).singleTable

theorem CarriesPartial.sound {c : DepsCodec} {p : PartialDeps} {limit : Nat}
    (h : c.CarriesPartial p) (hlimit : p.Within limit) : p.Sound limit where
  deps := h.deps.sound hlimit.deps
  covering := hlimit.covering
  ranges r hr := (h.covering r hr).singleTable

variable (c : DepsCodec)

theorem safe_readRanges (start : Nat) (disorder : Defect) :
    Safe (c.readRanges start disorder) fun ranges =>
      ranges.size ≤ c.config.limit ∧ ∀ r ∈ ranges, c.ranges.Carries r := by
  apply (Reader.safe_count c.config.limit).bind
  intro count hcount
  apply (c.ranges.safe_read.times count).bind
  intro ranges hranges
  split
  · next rs hrs =>
    have hlist : rs.toList = ranges := SortedList.ofAscending?_eq_some_iff.1 hrs
    have hsize : rs.size = count := by
      rw [SortedList.size, hlist, hranges.1]
    exact Safe.pure ⟨hsize ▸ hcount, fun r hr => hranges.2 r (hlist ▸ hr)⟩
  · exact Reader.safe_failAt _ _

theorem safe_readKeys (relative : Bool) (superset : RoutingKeys) :
    Safe (c.readKeys relative superset) fun _ => True := by
  cases relative
  · exact (Reader.safe_routingKeys c.config.limit).mono fun _ _ => trivial
  · exact superset.safe_readIn

theorem safe_readKeySet (v : WireVersion) (superset? : Option RoutingKeys) :
    Safe (c.readKeySet v superset?) fun _ => True := by
  cases superset? with
  | none => exact (Reader.safe_routingKeys c.config.limit).mono fun _ _ => trivial
  | some superset =>
    rw [readKeySet]
    split
    · exact Reader.safe_bool.bind fun relative _ => c.safe_readKeys relative superset
    · exact superset.safe_readIn

/-- What is read could have been written by the codec, whatever the bytes. -/
theorem carries_readDeps (superset? : Option RoutingKeys) (v : WireVersion) :
    Safe (c.readDeps superset? v) fun d => c.Carries d ∧ d.Within c.config.limit := by
  apply (c.safe_readKeySet v superset?).bind
  intro keys _
  apply (Reader.safe_body c.config.limit keys).bind
  intro byKey hkey
  apply Reader.safe_position.bind
  intro start _
  apply (c.safe_readRanges start .rangeOrder).bind
  intro ranges hranges
  apply (Reader.safe_body c.config.limit ranges).bind
  intro byRange hrange
  apply Reader.safe_bool.bind
  intro relative _
  apply (c.safe_readKeys relative byKey.keys).bind
  intro directKeys _
  refine (Reader.safe_body c.config.limit directKeys).bind fun direct hdirect => Safe.pure ?_
  obtain ⟨-, hkey, hkeyLimit⟩ := hkey
  obtain ⟨hkeys, hrange, hrangeLimit⟩ := hrange
  obtain ⟨-, hdirect, hdirectLimit⟩ := hdirect
  exact ⟨⟨⟨hkey, hrange, hdirect⟩, hkeys ▸ hranges.2⟩, hkeyLimit, hrangeLimit, hdirectLimit⟩

theorem safe_readDeps (superset? : Option RoutingKeys) (v : WireVersion) :
    Safe (c.readDeps superset? v) fun d => d.Sound c.config.limit :=
  (c.carries_readDeps superset? v).mono fun _ h => h.1.sound h.2

theorem safe_readParticipants :
    Safe c.readParticipants fun p =>
      p.size ≤ c.config.limit ∧ ∀ r ∈ p.rangeSet, c.ranges.Carries r := by
  apply Reader.safe_position.bind
  intro start _
  apply Reader.safe_byte.bind
  intro tag _
  split
  · exact (Reader.safe_routingKeys c.config.limit).bind fun keys hkeys =>
      Safe.pure ⟨hkeys, nofun⟩
  · split
    · exact (c.safe_readRanges start .coveringOrder).bind fun ranges hranges => Safe.pure hranges
    · exact Reader.safe_failAt _ _

theorem carries_readPartial (superset? : Option RoutingKeys) (v : WireVersion) :
    Safe (c.readPartial superset? v) fun p => c.CarriesPartial p ∧ p.Within c.config.limit := by
  apply (c.carries_readDeps superset? v).bind
  rintro deps ⟨hdeps, hlimit⟩
  refine c.safe_readParticipants.bind fun covering hcovering => Safe.pure ?_
  exact ⟨⟨hdeps, hcovering.2⟩, hlimit, hcovering.1⟩

theorem safe_readPartial (superset? : Option RoutingKeys) (v : WireVersion) :
    Safe (c.readPartial superset? v) fun p => p.Sound c.config.limit :=
  (c.carries_readPartial superset? v).mono fun _ h => h.1.sound h.2

theorem safe_readMarker : Safe readMarker fun _ => True := by
  apply Reader.safe_position.bind
  intro start _
  apply Reader.safe_byte.bind
  intro tag _
  split
  · exact Safe.pure trivial
  · split
    · exact Safe.pure trivial
    · exact Reader.safe_failAt _ _

theorem safe_readNullable {α : Type} {read : Reader α} {sound : α → Prop} (h : Safe read sound) :
    Safe (readNullable read) fun a? => ∀ a ∈ a?, sound a := by
  apply safe_readMarker.bind
  intro present _
  split
  · apply h.bind
    intro a ha
    apply Safe.pure
    intro b hb
    cases hb
    exact ha
  · exact Safe.pure nofun

theorem safe_checked {α : Type} {read : Reader α} {sound : α → Prop} (h : Safe read sound)
    (v : WireVersion) : Safe (c.checked v read) sound := by
  intro cursor
  change Halt.Safe (c.checked v read cursor).1 sound
  rw [checked]
  split
  · exact trivial
  · exact h.mapError cursor

end DepsCodec

namespace WireForm

/-- Reading bytes from any place on ends in a sound value or in a fault of the bytes. -/
def Guarded (α : Type) [WireForm α] (c : DepsCodec) (superset? : Option RoutingKeys)
    (v : WireVersion) (sound : α → Prop) : Prop :=
  ∀ cursor : Cursor,
    (∃ a : α, ((decode c superset? v).run cursor).1 = .ok a ∧ sound a) ∨
      ∃ fault, ((decode (α := α) c superset? v).run cursor).1 = .error (.failed (.ofFault fault))

theorem guarded_of_safe {α : Type} [WireForm α] {c : DepsCodec} {superset? : Option RoutingKeys}
    {v : WireVersion} {read : Reader α} {sound : α → Prop}
    (hdecode : decode (α := α) c superset? v = c.checked v read)
    (hv : c.config.accepts v = true) (h : Safe read sound) : Guarded α c superset? v sound := by
  intro cursor
  have hcheck : c.config.check v = .ok () := if_pos hv
  have hrun : (decode (α := α) c superset? v).run cursor =
      (read.mapError (Halt.map Error.ofFault)).run cursor := by
    rw [hdecode]
    exact DepsCodec.run_checked hcheck read cursor
  have hsafe := h cursor
  rw [hrun]
  rcases hread : read.run cursor with ⟨(fault | trap) | a, rest⟩
  · rw [Step.run_mapError_of_error _ hread]
    exact .inr ⟨fault, rfl⟩
  · rw [hread] at hsafe
    exact absurd hsafe id
  · rw [hread] at hsafe
    rw [Step.run_mapError_of_ok _ hread]
    exact .inl ⟨a, rfl, hsafe⟩

/-- Decoding is safe in each form, whatever the bytes, the superset and the settings. -/
theorem decode_guarded (c : DepsCodec) (v : WireVersion) (superset? : Option RoutingKeys)
    (hv : c.config.accepts v = true) :
    Guarded Deps c superset? v (·.Sound c.config.limit) ∧
      Guarded PartialDeps c superset? v (·.Sound c.config.limit) ∧
      Guarded (Option Deps) c superset? v (fun d? => ∀ d ∈ d?, d.Sound c.config.limit) ∧
      Guarded (Option PartialDeps) c superset? v (fun p? => ∀ p ∈ p?, p.Sound c.config.limit) := by
  refine ⟨?_, ?_, ?_, ?_⟩
  · exact guarded_of_safe rfl hv (c.safe_readDeps superset? v)
  · exact guarded_of_safe rfl hv (c.safe_readPartial superset? v)
  · exact guarded_of_safe rfl hv (DepsCodec.safe_readNullable (c.safe_readDeps superset? v))
  · exact guarded_of_safe rfl hv (DepsCodec.safe_readNullable (c.safe_readPartial superset? v))

/-- A codec that accepts the second version only, and a superset beyond its limit. -/
theorem decode_guarded_superset :
    let c : DepsCodec := ⟨.token, ⟨.v2, 1⟩⟩
    let superset : RoutingKeys := .ofList [.min (.ofNat 7), .max (.ofNat 7)]
    c.config.accepts .v2 = true ∧ c.config.limit < superset.size ∧
      Guarded Deps c (some superset) .v2 (·.Sound c.config.limit) := by
  intro c superset
  have hv : c.config.accepts .v2 = true := rfl
  exact ⟨hv, by decide, (decode_guarded c .v2 (some superset) hv).1⟩

end WireForm

end TxnDeps
