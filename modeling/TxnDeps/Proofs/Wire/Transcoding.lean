import TxnDeps.Proofs.Wire.Refusal
import TxnDeps.Proofs.Wire.Soundness

namespace TxnDeps

open Step (Safe)

namespace DepsCodec

variable {c c' : DepsCodec}

theorem Carries.of_ranges {d : Deps} (h : c.Carries d) (hranges : c'.ranges = c.ranges) :
    c'.Carries d :=
  ⟨h.wellFormed, hranges ▸ h.ranges⟩

theorem CarriesPartial.of_ranges {p : PartialDeps} (h : c.CarriesPartial p)
    (hranges : c'.ranges = c.ranges) : c'.CarriesPartial p :=
  ⟨h.deps.of_ranges hranges, hranges ▸ h.covering⟩

/-- The keys of a value, if it is there, have a form: they stand alone, they are all in the
superset, or the version can say that they are not relative to it. -/
inductive Accommodates : (superset? : Option RoutingKeys) → WireVersion →
    (keys? : Option RoutingKeys) → Prop
  | flagged {superset? keys? : Option RoutingKeys} : Accommodates superset? .v2 keys?
  | alone {v : WireVersion} {keys? : Option RoutingKeys} : Accommodates none v keys?
  | missing {superset? : Option RoutingKeys} {v : WireVersion} : Accommodates superset? v none
  | relative {v : WireVersion} {keys superset : RoutingKeys} (subset : ∀ k ∈ keys, k ∈ superset) :
      Accommodates (some superset) v (some keys)

theorem Accommodates.not_declines {v : WireVersion} {superset? keys? : Option RoutingKeys}
    (h : Accommodates superset? v keys?) (hv : c.config.accepts v = true) (refusal : Refusal) :
    ¬c.Declines v superset? keys? refusal := by
  have haccepted : c.config.minVersion.tag ≤ v.tag := of_decide_eq_true hv
  rintro (older | ⟨-, unflagged, hkeys, hsuperset, k, hk, habsent⟩)
  · exact UInt8.not_lt.2 haccepted older
  · cases h with
    | flagged => cases unflagged
    | alone => cases hsuperset
    | missing => cases hkeys
    | relative subset =>
      cases hkeys
      cases hsuperset
      exact habsent (subset k hk)

end DepsCodec

namespace WireForm

open DepsCodec (Accommodates)

/-- What is read from any bytes of the one form is written in the other, if it accommodates the
keys, and is read back from there. -/
def Transcodes {α : Type} [WireForm α] (c c' : DepsCodec)
    (superset? superset?' : Option RoutingKeys) (v v' : WireVersion)
    (keys? : α → Option RoutingKeys) : Prop :=
  ∀ cursor a rest, (decode c superset? v).run cursor = (.ok a, rest) →
    Accommodates superset?' v' (keys? a) →
    ∃ bytes, (∀ buffer, (write c' a superset?' v').run buffer = (.ok (), buffer ++ bytes)) ∧
      ∀ suffix position, (decode c' superset?' v').run ⟨bytes ++ suffix, position⟩ =
        (.ok a, ⟨suffix, position + bytes.length⟩)

variable {c c' : DepsCodec} {superset? superset?' : Option RoutingKeys} {v v' : WireVersion}

theorem transcodes_of_safe {α : Type} [WireForm α] {keys? : α → Option RoutingKeys}
    {outcome : α → Except Refusal Bytes} {sound : α → Prop}
    (hv : c'.config.accepts v' = true) (hsafe : Safe (decode (α := α) c superset? v) sound)
    (hwrite : ∀ a, Writer.Ends (write c' a superset?' v') (outcome a))
    (hrefused : RefusedFor c' superset?' v' keys?)
    (hback : ∀ a, sound a → ∃ within, within ∧ RoundTrips c' superset?' v' a within) :
    Transcodes c c' superset? superset?' v v' keys? := by
  intro cursor a rest hrun hkeys
  have ha : sound a := (hsafe cursor).of_ok (congrArg Prod.fst hrun)
  obtain ⟨within, hwithin, hround⟩ := hback a ha
  have hends := hwrite a
  cases houtcome : outcome a with
  | error refusal =>
    have hrun : (write c' a superset?' v').run [] = (.error refusal, []) :=
      hends.run_eq_error_iff.2 ⟨houtcome, rfl⟩
    have hdeclines := ((hrefused a [] refusal []).1 hrun).1
    exact absurd hdeclines (hkeys.not_declines hv refusal)
  | ok bytes =>
    have hputs := hends.puts houtcome
    obtain ⟨appended, happended, hdecode⟩ := hround [] _ (hputs [])
    rw [List.nil_append, List.nil_append] at happended
    subst happended
    exact ⟨bytes, hputs, fun suffix position => (hdecode suffix position).1.2 hwithin⟩

/-- Dependencies are transcoded in all four forms, between codecs for the same ranges. The length of
a superset is a number of 64 bits. -/
theorem transcode (c c' : DepsCodec) (v v' : WireVersion)
    (superset? superset?' : Option RoutingKeys) (hranges : c'.ranges = c.ranges)
    (hlimit : c.config.limit ≤ c'.config.limit) (hv : c'.config.accepts v' = true)
    (hsize : ∀ superset ∈ superset?', superset.size < 2 ^ 64) :
    Transcodes c c' superset? superset?' v v' (fun d : Deps => some d.byKey.keys) ∧
      Transcodes c c' superset? superset?' v v' (fun p : PartialDeps => some p.deps.byKey.keys) ∧
      Transcodes c c' superset? superset?' v v' (fun d? : Option Deps => d?.map (·.byKey.keys)) ∧
      Transcodes c c' superset? superset?' v v'
        (fun p? : Option PartialDeps => p?.map (·.deps.byKey.keys)) := by
  have hdeps : ∀ d : Deps, c.Carries d ∧ d.Within c.config.limit →
      d.Within c'.config.limit ∧ c'.Recovers v' (c'.write d superset?' v')
        (c'.readDeps superset?' v') d (d.Within c'.config.limit) := fun d h =>
    ⟨h.2.mono hlimit, DepsCodec.recovers_write (h.1.of_ranges hranges) hsize⟩
  have hpartial : ∀ p : PartialDeps, c.CarriesPartial p ∧ p.Within c.config.limit →
      p.Within c'.config.limit ∧ c'.Recovers v' (c'.writePartial p superset?' v')
        (c'.readPartial superset?' v') p (p.Within c'.config.limit) := fun p h =>
    ⟨h.2.mono hlimit, DepsCodec.recovers_writePartial (h.1.of_ranges hranges) hsize⟩
  have hreadDeps := c.carries_readDeps superset? v
  have hreadPartial := c.carries_readPartial superset? v
  refine ⟨?_, ?_, ?_, ?_⟩
  · refine transcodes_of_safe hv (c.safe_checked hreadDeps v) DepsCodec.ends_write
      refusedFor_deps fun d h => ?_
    obtain ⟨hwithin, hrecovers⟩ := hdeps d h
    exact ⟨_, hwithin, roundTrips_of_recovers rfl hrecovers⟩
  · refine transcodes_of_safe hv (c.safe_checked hreadPartial v) DepsCodec.ends_writePartial
      refusedFor_partialDeps fun p h => ?_
    obtain ⟨hwithin, hrecovers⟩ := hpartial p h
    exact ⟨_, hwithin, roundTrips_of_recovers rfl hrecovers⟩
  · refine transcodes_of_safe hv (c.safe_checked (DepsCodec.safe_readNullable hreadDeps) v)
      (DepsCodec.ends_writeNullable DepsCodec.ends_write) refusedFor_nullableDeps fun d? h => ?_
    have hrecovers := DepsCodec.recovers_writeNullable fun d hd => (hdeps d (h d hd)).2
    exact ⟨_, fun d hd => (hdeps d (h d hd)).1, roundTrips_of_recovers rfl hrecovers⟩
  · refine transcodes_of_safe hv (c.safe_checked (DepsCodec.safe_readNullable hreadPartial) v)
      (DepsCodec.ends_writeNullable DepsCodec.ends_writePartial) refusedFor_nullablePartialDeps
      fun p? h => ?_
    have hrecovers := DepsCodec.recovers_writeNullable fun p hp => (hpartial p (h p hp)).2
    exact ⟨_, fun p hp => (hpartial p (h p hp)).1, roundTrips_of_recovers rfl hrecovers⟩

/-- Bytes of the second version that are not written so: a count in two bytes, keys and directly
accessed keys one by one although they are in the sets that they could be relative to. They are
written again in the first version, relative to another superset. -/
theorem transcode_relative :
    let key := RoutingKey.token (.ofNat 7)
    let graph : KeyDeps := .ofPairs [⟨key 5, ⟨1, 20, 0, 1⟩⟩]
    let d : Deps := ⟨graph, .empty, graph⟩
    let keyBytes : Bytes := List.replicate 15 0 ++ [7, 1] ++ List.replicate 7 0 ++ [5]
    let body : Bytes := [1, 1, 20, 0, 1, 2, 2, 0]
    let padded : Bytes :=
      [0, 0x81, 0] ++ keyBytes ++ body ++ [0, 0, 0] ++ [0, 1] ++ keyBytes ++ body
    let superset : RoutingKeys := .ofList [key 5, key 9]
    let superset' : RoutingKeys := .ofList [key 1, key 5]
    DepsCodec.default.config.accepts .v1 = true ∧ (∀ s ∈ some superset', s.size < 2 ^ 64) ∧
      (decode .default (some superset) .v2).run (.start padded) = (.ok d, ⟨[], 74⟩) ∧
      ∃ bytes, (write .default d (some superset') .v1).run [] = (.ok (), bytes) ∧
        ∀ suffix position, (decode .default (some superset') .v1).run ⟨bytes ++ suffix, position⟩ =
          (.ok d, ⟨suffix, position + bytes.length⟩) := by
  intro key graph d keyBytes body padded superset superset'
  have hv : DepsCodec.default.config.accepts .v1 = true := rfl
  have hsize : ∀ s ∈ some superset', s.size < 2 ^ 64 := by decide
  have hread : (decode .default (some superset) .v2).run (.start padded) = (.ok d, ⟨[], 74⟩) := rfl
  have hsubset : ∀ k ∈ d.byKey.keys, k ∈ superset' := by decide
  obtain ⟨bytes, hwrite, hback⟩ := (transcode .default .default .v2 .v1 (some superset)
    (some superset') rfl (Nat.le_refl _) hv hsize).1 _ d _ hread (.relative hsubset)
  exact ⟨hv, hsize, hread, bytes, hwrite [], hback⟩

end WireForm

end TxnDeps
