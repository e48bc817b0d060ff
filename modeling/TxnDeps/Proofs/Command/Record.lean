import TxnDeps.Proofs.MessagePack.Packed
import TxnDeps.Proofs.Wire.Soundness

namespace TxnDeps

def recordLimit : Nat := 2 ^ 32 - 1

theorem Graph.WellFormed.recordable_iff {α : Type} [Ord α] {g : Graph α} (h : g.WellFormed) :
    g.Recordable ↔ g.Within recordLimit := by
  obtain ⟨runs, hruns, -⟩ := h.runs
  have hlinks : g.links.length < 2 ^ 32 := hruns.holds.length_lt
  constructor
  · intro hg
    exact ⟨Nat.le_pred_of_lt hg.txns, Nat.le_pred_of_lt hlinks⟩
  · intro hwithin
    exact ⟨h, Nat.lt_of_le_pred (by decide) hwithin.txns⟩

theorem CodecConfig.limit_le_recordLimit {config : CodecConfig} (h : config.validate = .ok ()) :
    config.limit ≤ recordLimit := by
  rw [validate] at h
  split at h
  · cases h
  split at h
  · cases h
  · next hlimit => exact Nat.le_pred_of_lt (Nat.lt_of_not_le hlimit)

namespace DepsCodec

variable {c : DepsCodec}

theorem Carries.recordable_iff {d : Deps} (h : c.Carries d) :
    d.Recordable ↔ d.Within recordLimit := by
  obtain ⟨⟨hkey, hrange, hdirect⟩, hranges⟩ := h
  constructor
  · intro hd
    exact ⟨hkey.recordable_iff.1 hd.byKey, hrange.recordable_iff.1 hd.byRange,
      hdirect.recordable_iff.1 hd.direct⟩
  · intro hd
    exact ⟨hkey.recordable_iff.2 hd.byKey, hrange.recordable_iff.2 hd.byRange,
      hdirect.recordable_iff.2 hd.direct, fun r hr => (hranges r hr).singleTable⟩

theorem CarriesPartial.recordable_iff {p : PartialDeps} (h : c.CarriesPartial p) :
    p.Recordable ↔ p.Within recordLimit := by
  constructor
  · intro hp
    exact ⟨h.deps.recordable_iff.1 hp.deps, Nat.le_pred_of_lt hp.covering⟩
  · intro hp
    exact ⟨h.deps.recordable_iff.2 hp.deps, Nat.lt_of_le_pred (by decide) hp.covering,
      fun r hr => (h.covering r hr).singleTable⟩

/-- The codec has answered the partial dependencies for some bytes, in either form. -/
inductive Answers (c : DepsCodec) (p : PartialDeps) : Prop
  | plain (superset? : Option RoutingKeys) (v : WireVersion) (cursor rest : Cursor)
      (h : (WireForm.decode c superset? v).run cursor = (.ok p, rest))
  | nullable (superset? : Option RoutingKeys) (v : WireVersion) (cursor rest : Cursor)
      (h : (WireForm.decode c superset? v).run cursor = (.ok (some p), rest))

theorem Answers.carries {p : PartialDeps} (h : c.Answers p) :
    c.CarriesPartial p ∧ p.Within c.config.limit := by
  cases h with
  | plain superset? v cursor rest h =>
    have hsafe := c.safe_checked (c.carries_readPartial superset? v) v
    exact (hsafe cursor).of_ok (congrArg Prod.fst h)
  | nullable superset? v cursor rest h =>
    have hsafe := c.safe_checked (safe_readNullable (c.carries_readPartial superset? v)) v
    exact (hsafe cursor).of_ok (congrArg Prod.fst h) p rfl

end DepsCodec

/-- An update comes back from its record as it was. Its dependencies may be any that were decoded
with lists short enough to be counted, and thus all that a codec with valid settings answers. -/
theorem CommandUpdate.record_returns :
    (∀ u : CommandUpdate, u.Recordable → ofBytes u.toBytes = .ok u) ∧
      ∀ (c : DepsCodec) (p : PartialDeps), c.Answers p →
        (p.Recordable ↔ p.Within recordLimit) ∧
          (c.config.validate = .ok () → p.Recordable) := by
  refine ⟨fun u hu => ofBytes_toBytes hu, fun c p hp => ?_⟩
  obtain ⟨hcarries, hwithin⟩ := hp.carries
  have hiff := hcarries.recordable_iff
  exact ⟨hiff, fun hvalid => hiff.2 (hwithin.mono (CodecConfig.limit_le_recordLimit hvalid))⟩

/-- A first record of a command, with partial dependencies that came over the wire. -/
theorem CommandUpdate.record_returns_decoded :
    let key := RoutingKey.token (.ofNat 7)
    let graph : KeyDeps := .ofPairs [⟨key 5, ⟨1, 20, 0, 1⟩⟩]
    let p : PartialDeps := ⟨.keys (.ofList [key 5]), graph, .empty, graph⟩
    let keyBytes : Bytes := List.replicate 15 0 ++ [7, 1] ++ List.replicate 7 0 ++ [5]
    let body : Bytes := [1, 1, 20, 0, 1, 2, 2, 0]
    let bytes : Bytes :=
      [1] ++ keyBytes ++ body ++ [0, 0, 0] ++ [1, 0] ++ body ++ [0, 1] ++ keyBytes
    let u : CommandUpdate := ⟨⟨1, 30, 0, 1⟩, none,
      some ⟨⟨1, 30, 0, 1⟩, .committed, some ⟨1, 31, 0, 1⟩, .zero, some p⟩⟩
    (WireForm.decode .default none .v1).run (.start bytes) = (.ok p, ⟨[], 74⟩) ∧
      DepsCodec.default.config.validate = .ok () ∧ u.Recordable ∧ ofBytes u.toBytes = .ok u := by
  intro key graph p keyBytes body bytes u
  have hread : (WireForm.decode .default none .v1).run (.start bytes) = (.ok p, ⟨[], 74⟩) := rfl
  have hvalid : DepsCodec.default.config.validate = .ok () := rfl
  have hanswers : DepsCodec.default.Answers p := .plain none .v1 _ _ hread
  have hp : p.Recordable := (record_returns.2 .default p hanswers).2 hvalid
  have hafter : ∀ c ∈ u.after, c.Recordable := by
    intro c hc deps hdeps
    cases hc
    cases hdeps
    exact hp
  have hu : u.Recordable := ⟨fun c hc => absurd hc (Option.not_mem_none c), hafter⟩
  exact ⟨hread, hvalid, hu, record_returns.1 u hu⟩

end TxnDeps
