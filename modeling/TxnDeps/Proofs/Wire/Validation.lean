import TxnDeps.Graph.Raw
import TxnDeps.Proofs.Command.Record

namespace TxnDeps

open Std (TransOrd)
open Step (Reads ReadsIf Refuses)

namespace RawGraph

variable {α : Type}

structure Within (raw : RawGraph α) (limit : Nat) : Prop where
  keys : raw.keys.length ≤ limit
  txns : raw.txnIds.length ≤ limit
  links : raw.links.length ≤ limit

theorem Within.mono {raw : RawGraph α} {limit limit' : Nat} (h : raw.Within limit)
    (hle : limit ≤ limit') : raw.Within limit' :=
  ⟨Nat.le_trans h.keys hle, Nat.le_trans h.txns hle, Nat.le_trans h.links hle⟩

def encodeKeys (encodeKey : α → Bytes) (raw : RawGraph α) : Bytes :=
  Uvarint.encode raw.keys.length ++ raw.keys.flatMap encodeKey

def encode (encodeKey : α → Bytes) (raw : RawGraph α) : Bytes :=
  raw.encodeKeys encodeKey ++
    (Uvarint.encode raw.txnIds.length ++ raw.txnIds.flatMap (·.encode) ++
      Uvarint.encode raw.links.length ++ raw.links.flatMap fun link => Uvarint.encode link.toNat)

def pack [Packed α] (raw : RawGraph α) : Bytes :=
  MessagePack.array [Packed.pack raw.keys, Packed.pack raw.txnIds, Packed.pack raw.links]

variable [Ord α]

/-- The arrays are those of the graph, which is well-formed. -/
structure Describes (raw : RawGraph α) (g : Graph α) : Prop where
  wellFormed : g.WellFormed
  keys : g.keys.toList = raw.keys
  txns : g.txnIds = raw.txnIds
  links : g.links = raw.links

theorem describes_iff (keys : SortedList α) {txnIds : List TxnId} {links : List UInt32}
    {g : Graph α} :
    (⟨keys.toList, txnIds, links⟩ : RawGraph α).Describes g ↔
      (⟨keys, txnIds, links⟩ : Graph α).WellFormed ∧ g = ⟨keys, txnIds, links⟩ := by
  constructor
  · intro h
    have hg : g = ⟨keys, txnIds, links⟩ := by
      obtain ⟨-, hkeys, htxns, hlinks⟩ := h
      cases g
      cases SortedList.ext hkeys
      cases htxns
      cases hlinks
      rfl
    exact ⟨hg ▸ h.wellFormed, hg⟩
  · rintro ⟨hwell, rfl⟩
    exact ⟨hwell, rfl, rfl, rfl⟩

/-- The bytes are read as the graph that the arrays describe, and refused if they describe none. -/
def Settles {σ ε : Type} [Source σ] (raw : RawGraph α) (read : Step σ (Halt ε) (Graph α))
    (bytes : Bytes) : Prop :=
  ∀ s left g, Source.rest s = bytes ++ left → ((read.run s).1 = .ok g ↔ raw.Describes g)

variable [TransOrd α]

theorem settles {σ ε : Type} [Source σ] {raw : RawGraph α} {read : Step σ (Halt ε) (Graph α)}
    {bytes : Bytes}
    (horder : ∀ keys : SortedList α, keys.toList = raw.keys →
      ReadsIf (⟨keys, raw.txnIds, raw.links⟩ : Graph α).WellFormed read bytes
        ⟨keys, raw.txnIds, raw.links⟩)
    (hdisorder : ¬Ascending raw.keys → Refuses read bytes) : raw.Settles read bytes := by
  intro s left g hs
  obtain ⟨keys, txnIds, links⟩ := raw
  by_cases hkeys : Ascending keys
  · exact ((horder ⟨keys, hkeys⟩ rfl).run_eq_ok_iff hs).trans
      (describes_iff ⟨keys, hkeys⟩).symm
  · refine iff_of_false ((hdisorder hkeys).run_ne_ok hs) fun h => hkeys ?_
    have hsorted : g.keys.toList = keys := h.keys
    exact hsorted ▸ g.keys.ascending

theorem settles_unpack [Packed α] {raw : RawGraph α} (hraw : raw.Within recordLimit)
    (hkeys : ∀ key ∈ raw.keys, Packed.ReadsBack key) (level : Nat) :
    raw.Settles (unpack level) raw.pack := by
  have hlt : ∀ {n : Nat}, n ≤ recordLimit → n < 2 ^ 32 := fun hn =>
    Nat.lt_of_le_pred (by decide) hn
  obtain ⟨keys, txnIds, links⟩ := raw
  apply settles
  · rintro keys rfl
    let g : Graph α := ⟨keys, txnIds, links⟩
    exact Packed.readsIf_graph (g := g) (hlt hraw.keys) (hlt hraw.txns) (hlt hraw.links) hkeys level
  · exact fun hdisorder =>
      Packed.refuses_graph (hlt hraw.keys) hkeys hdisorder _ rfl level

end RawGraph

def Reader.graph {α : Type} [Ord α] (limit : Nat) (read : Reader (SortedList α)) :
    Reader (Graph α) := do
  let keys ← read
  body limit keys

theorem RawGraph.settles_graph {α : Type} [Ord α] [TransOrd α] {raw : RawGraph α} {limit : Nat}
    (hlimit : limit < 2 ^ 64) (hraw : raw.Within limit) {encodeKey : α → Bytes}
    {read : Reader (SortedList α)}
    (horder : ∀ keys : SortedList α, keys.toList = raw.keys →
      Reads read (raw.encodeKeys encodeKey) keys)
    (hdisorder : ¬Ascending raw.keys → Refuses read (raw.encodeKeys encodeKey)) :
    raw.Settles (Reader.graph limit read) (raw.encode encodeKey) := by
  apply settles
  · intro keys hkeys
    have hbody := Reader.readsIf_arrays hlimit (⟨keys, raw.txnIds, raw.links⟩ : Graph α)
    have hfits : (⟨keys, raw.txnIds, raw.links⟩ : Graph α).Within limit := ⟨hraw.txns, hraw.links⟩
    exact ((horder keys hkeys).bindIf hbody).of_iff (and_iff_left hfits)
  · exact fun hno => ((hdisorder hno).append _).bind _

namespace DepsCodec

variable (c : DepsCodec)

def readKeyGraph : Reader KeyDeps :=
  Reader.graph c.config.limit (Reader.routingKeys c.config.limit)

def readRangeGraph : Reader RangeDeps :=
  Reader.graph c.config.limit do
    let start ← Reader.position
    c.readRanges start .rangeOrder

theorem readDeps_none (v : WireVersion) :
    c.readDeps none v = (do
      let byKey ← c.readKeyGraph
      let byRange ← c.readRangeGraph
      let relative ← Reader.bool
      let directKeys ← c.readKeys relative byKey.keys
      let direct ← Reader.body c.config.limit directKeys
      pure ⟨byKey, byRange, direct⟩) := by
  simp only [readKeyGraph, readRangeGraph, Reader.graph, Step.bind_assoc]
  rfl

theorem settles_readKeyGraph {raw : RawGraph RoutingKey} (h : raw.Within c.config.limit) :
    raw.Settles c.readKeyGraph (raw.encode RoutingKey.encode) := by
  have hlimit := c.config.limit_lt
  obtain ⟨keys, txnIds, links⟩ := raw
  apply RawGraph.settles_graph hlimit h
  · rintro keys rfl
    exact (Reader.readsIf_routingKeys hlimit keys).reads h.keys
  · exact fun hdisorder => Reader.refuses_routingKeys hlimit h.keys hdisorder

theorem settles_readRangeGraph {raw : RawGraph TokenRange} (h : raw.Within c.config.limit)
    (hranges : ∀ r ∈ raw.keys, c.ranges.Carries r) :
    raw.Settles c.readRangeGraph (raw.encode c.ranges.encode) := by
  have hlimit := c.config.limit_lt
  obtain ⟨keys, txnIds, links⟩ := raw
  apply RawGraph.settles_graph hlimit h
  · rintro keys rfl
    apply Reader.reads_position
    intro start
    exact (readsIf_readRanges hranges start .rangeOrder).reads h.keys
  · intro hdisorder
    apply Reader.refuses_position
    intro start
    exact refuses_readRanges hranges h.keys hdisorder start .rangeOrder

end DepsCodec

namespace RawGraph

/-- On the wire and in a record the arrays are accepted as the same graphs, those that they
describe. -/
def AcceptedAlike {α : Type} [Ord α] [TransOrd α] [Packed α] (raw : RawGraph α)
    (read : Reader (Graph α)) (bytes : Bytes) : Prop :=
  ∀ g, (∀ suffix position, (read.run ⟨bytes ++ suffix, position⟩).1 = .ok g ↔
      Packed.ofBytes raw.pack = .ok g) ∧
    (Packed.ofBytes raw.pack = .ok g ↔ raw.Describes g)

theorem acceptedAlike {α : Type} [Ord α] [TransOrd α] [Packed α] {raw : RawGraph α}
    {read : Reader (Graph α)} {bytes : Bytes} (hwire : raw.Settles read bytes)
    (hrecord : raw.Settles (unpack 0) raw.pack) : raw.AcceptedAlike read bytes := by
  intro g
  have hpacked : Packed.ofBytes raw.pack = .ok g ↔ raw.Describes g :=
    hrecord raw.pack [] g (List.append_nil _).symm
  exact ⟨fun suffix position => (hwire ⟨_, position⟩ suffix g rfl).trans hpacked.symm, hpacked⟩

/-- No graph gets past one reading and not past the other. A record counts each array in 32 bits,
which valid settings make sure of. The readings on the wire are those with which dependencies
begin that are read without a superset. -/
theorem readings_agree (c : DepsCodec) :
    (∀ raw : RawGraph RoutingKey, raw.Within c.config.limit →
      c.config.validate = .ok () ∨ raw.Within recordLimit →
        raw.AcceptedAlike c.readKeyGraph (raw.encode RoutingKey.encode)) ∧
      (c.ranges = .token → ∀ raw : RawGraph TokenRange, (∀ r ∈ raw.keys, r.SingleTable) →
        raw.Within c.config.limit → c.config.validate = .ok () ∨ raw.Within recordLimit →
          raw.AcceptedAlike c.readRangeGraph (raw.encode c.ranges.encode)) ∧
      ∀ v, c.readDeps none v = (do
        let byKey ← c.readKeyGraph
        let byRange ← c.readRangeGraph
        let relative ← Reader.bool
        let directKeys ← c.readKeys relative byKey.keys
        let direct ← Reader.body c.config.limit directKeys
        pure ⟨byKey, byRange, direct⟩) := by
  have hrecord : ∀ {α : Type} {raw : RawGraph α}, raw.Within c.config.limit →
      c.config.validate = .ok () ∨ raw.Within recordLimit → raw.Within recordLimit := by
    rintro α raw hlimit (hvalid | hshort)
    · exact hlimit.mono (CodecConfig.limit_le_recordLimit hvalid)
    · exact hshort
  refine ⟨?_, ?_, c.readDeps_none⟩
  · intro raw hlimit hcount
    exact acceptedAlike (c.settles_readKeyGraph hlimit)
      (settles_unpack (hrecord hlimit hcount) (fun k _ => Packed.readsBack_routingKey k) 0)
  · intro htoken raw hranges hlimit hcount
    have hcarries : ∀ r ∈ raw.keys, c.ranges.Carries r := by
      rw [htoken]
      exact hranges
    exact acceptedAlike (c.settles_readRangeGraph hlimit hcarries)
      (settles_unpack (hrecord hlimit hcount)
        (fun r hr => Packed.readsBack_tokenRange (hranges r hr)) 0)

/-- Two keys with a transaction each, and a range whose transactions descend. -/
theorem readings_agree_sample :
    let key := RoutingKey.token (.ofNat 7)
    let txns : List TxnId := [⟨1, 10, 0, 1⟩, ⟨1, 20, 0, 1⟩]
    let c := DepsCodec.default
    let keys : RawGraph RoutingKey := ⟨[key 1, key 5], txns, [3, 4, 1, 0]⟩
    let ranges : RawGraph TokenRange := ⟨[⟨key 0, key 9⟩], txns, [3, 1, 0]⟩
    c.config.validate = .ok () ∧ c.ranges = .token ∧ keys.Within c.config.limit ∧
      ranges.Within c.config.limit ∧ (∀ r ∈ ranges.keys, r.SingleTable) ∧
      (∃ g, ∀ suffix position,
        (c.readKeyGraph.run ⟨keys.encode RoutingKey.encode ++ suffix, position⟩).1 = .ok g) ∧
      ∀ g suffix position,
        (c.readRangeGraph.run ⟨ranges.encode c.ranges.encode ++ suffix, position⟩).1 ≠ .ok g := by
  intro key txns c keys ranges
  have hvalid : c.config.validate = .ok () := rfl
  have hkeys : keys.Within c.config.limit := ⟨by decide, by decide, by decide⟩
  have hranges : ranges.Within c.config.limit := ⟨by decide, by decide, by decide⟩
  have htables : ∀ r ∈ ranges.keys, r.SingleTable := by decide
  refine ⟨hvalid, rfl, hkeys, hranges, htables, ?_, ?_⟩
  · let sorted : RoutingKeys := ⟨[key 1, key 5], by decide⟩
    have hcheck : Graph.ofOrderedParts sorted txns [3, 4, 1, 0] =
        .ok ⟨sorted, txns, [3, 4, 1, 0]⟩ := rfl
    have halike := (readings_agree c).1 keys hkeys (.inl hvalid) ⟨sorted, txns, [3, 4, 1, 0]⟩
    have hdescribes := (describes_iff sorted).2 (Graph.ofOrderedParts_eq_ok_iff.1 hcheck)
    exact ⟨_, fun suffix position => (halike.1 suffix position).2 (halike.2.2 hdescribes)⟩
  · intro g suffix position hg
    have halike := (readings_agree c).2.1 rfl ranges htables hranges (.inl hvalid) g
    have hdescribes := halike.2.1 ((halike.1 suffix position).1 hg)
    let sorted : Ranges := ⟨[⟨key 0, key 9⟩], by decide⟩
    have hcheck := Graph.ofOrderedParts_eq_ok_iff.2 ((describes_iff sorted).1 hdescribes)
    cases hcheck

end RawGraph

end TxnDeps
