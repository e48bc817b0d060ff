import TxnDeps.Deps
import TxnDeps.Proofs.Graph.Restriction
import TxnDeps.Proofs.Range.Union

namespace TxnDeps

namespace TokenRange

/-- The range is empty, and its ends lie inside the other. -/
structure EmptyInside (r s : TokenRange) : Prop where
  low : s.start < r.stop
  empty : r.stop ≤ r.start
  high : r.start < s.stop

variable {r s : TokenRange}

theorem exists_contains_of_intersects (h : r.intersects s = true) (hr : r.start < r.stop)
    (hs : s.start < s.stop) : ∃ k, r.contains k = true ∧ s.contains k = true := by
  obtain ⟨hrs, hsr⟩ := intersects_eq_true_iff.1 h
  by_cases hstop : r.stop ≤ s.stop
  · exact ⟨r.stop, contains_eq_true_iff.2 ⟨hr, Std.le_refl _⟩,
      contains_eq_true_iff.2 ⟨hsr, hstop⟩⟩
  · have hle : s.stop ≤ r.stop := Std.le_of_lt (Std.not_le.1 hstop)
    exact ⟨s.stop, contains_eq_true_iff.2 ⟨hrs, hle⟩,
      contains_eq_true_iff.2 ⟨hs, Std.le_refl _⟩⟩

theorem intersects_iff_exists_or : r.intersects s = true ↔
    (∃ k, r.contains k = true ∧ s.contains k = true) ∨ r.EmptyInside s ∨ s.EmptyInside r := by
  constructor
  · intro h
    obtain ⟨hrs, hsr⟩ := intersects_eq_true_iff.1 h
    by_cases hr : r.start < r.stop
    · by_cases hs : s.start < s.stop
      · exact .inl (exists_contains_of_intersects h hr hs)
      · exact .inr (.inr ⟨hrs, Std.not_lt.1 hs, hsr⟩)
    · exact .inr (.inl ⟨hsr, Std.not_lt.1 hr, hrs⟩)
  · rintro (⟨k, hr, hs⟩ | hempty | hempty)
    · exact intersects_of_contains hr hs
    · exact intersects_eq_true_iff.2 ⟨hempty.high, hempty.low⟩
    · exact intersects_eq_true_iff.2 ⟨hempty.low, hempty.high⟩

end TokenRange

namespace Participants

def SharesKey (p : Participants) (r : TokenRange) : Prop :=
  ∃ k, p.containsKey k = true ∧ r.contains k = true

/-- The range is empty and its ends lie inside a range of the set, or the other way round. -/
def MeetsEmpty (p : Participants) (r : TokenRange) : Prop :=
  ∃ s ∈ p.rangeSet, s.EmptyInside r ∨ r.EmptyInside s

variable {p : Participants} {r : TokenRange}

theorem not_meetsEmpty (hr : r.start < r.stop) (hp : ∀ s ∈ p.rangeSet, s.start < s.stop) :
    ¬p.MeetsEmpty r := by
  rintro ⟨s, hs, hempty | hempty⟩
  · exact Std.not_lt.2 hempty.empty (hp s hs)
  · exact Std.not_lt.2 hempty.empty hr

theorem intersectsRange_iff_sharesKey_or :
    p.intersectsRange r = true ↔ p.SharesKey r ∨ p.MeetsEmpty r := by
  cases p with
  | keys ks =>
    have hnone : ¬(keys ks).MeetsEmpty r := fun ⟨s, hs, _⟩ => absurd hs List.not_mem_nil
    rw [or_iff_left hnone]
    simp only [intersectsRange, List.any_eq_true, SharesKey, containsKey,
      SortedList.contains_eq_true_iff]
    rfl
  | ranges rs =>
    simp only [intersectsRange, Ranges.intersects_eq_true_iff, TokenRange.intersects_iff_exists_or,
      SharesKey, MeetsEmpty, containsKey, Ranges.containsKey_eq_true_iff, rangeSet]
    constructor
    · rintro ⟨s, hs, ⟨k, hsk, hrk⟩ | hempty⟩
      · exact .inl ⟨k, ⟨s, hs, hsk⟩, hrk⟩
      · exact .inr ⟨s, hs, hempty⟩
    · rintro (⟨k, ⟨s, hs, hsk⟩, hrk⟩ | ⟨s, hs, hempty⟩)
      · exact ⟨s, hs, .inl ⟨k, hsk, hrk⟩⟩
      · exact ⟨s, hs, .inr hempty⟩

/-- A covering set intersects the ranges that it shares a key with, and beyond them those where an
empty range lies inside another. A slice of range dependencies keeps what they list for these. -/
theorem intersection_exact (p : Participants) {g : RangeDeps} (hg : g.WellFormed) :
    (∀ r, p.intersectsRange r = true ↔ p.SharesKey r ∨ p.MeetsEmpty r) ∧
    (∀ r, r.start < r.stop → (∀ s ∈ p.rangeSet, s.start < s.stop) →
      (p.intersectsRange r = true ↔ p.SharesKey r)) ∧
    (∀ r s : TokenRange, r.intersects s = true ↔
      (∃ k, r.contains k = true ∧ s.contains k = true) ∨ r.EmptyInside s ∨ s.EmptyInside r) ∧
    (∀ a, a ∈ (g.slice p).pairs ↔ a ∈ g.pairs ∧ (p.SharesKey a.key ∨ p.MeetsEmpty a.key)) ∧
    ∀ r, r ∈ (g.slice p).keys ↔
      (∃ txn, ⟨r, txn⟩ ∈ g.pairs) ∧ (p.SharesKey r ∨ p.MeetsEmpty r) := by
  obtain ⟨runs, hruns, -⟩ := hg.runs
  refine ⟨fun r => intersectsRange_iff_sharesKey_or, fun r hr hp => ?_,
    fun r s => TokenRange.intersects_iff_exists_or, fun a => ?_, fun r => ?_⟩
  · rw [intersectsRange_iff_sharesKey_or, or_iff_left (not_meetsEmpty hr hp)]
  · exact (Graph.mem_pairs_filterKeys hruns).trans
      (and_congr_right' intersectsRange_iff_sharesKey_or)
  · exact Graph.mem_keys_filterKeys.trans (and_congr_right' intersectsRange_iff_sharesKey_or)

/-- A range that touches the covering set is left out, and one that reaches into it is kept. -/
theorem intersection_exact_touching :
    let key := RoutingKey.token (.ofNat 7)
    let p := Participants.ranges (.ofList [⟨key 0, key 4⟩])
    let inner : TokenRange := ⟨key 3, key 9⟩
    let beyond : TokenRange := ⟨key 4, key 9⟩
    let g : RangeDeps := .ofPairs [⟨inner, ⟨1, 30, 0, 1⟩⟩, ⟨beyond, ⟨1, 40, 0, 1⟩⟩]
    g.WellFormed ∧ beyond.start < beyond.stop ∧ (∀ s ∈ p.rangeSet, s.start < s.stop) ∧
      p.SharesKey inner ∧ ¬p.SharesKey beyond ∧
      inner ∈ (g.slice p).keys ∧ beyond ∉ (g.slice p).keys := by
  intro key p inner beyond g
  have hg : g.WellFormed := GraphBuilder.wellFormed_build (by decide)
  have hranges : ∀ s ∈ p.rangeSet.toList, s.start < s.stop := by decide
  obtain ⟨-, hnonempty, -, -, hkeys⟩ := intersection_exact p hg
  have hinner : p.SharesKey inner := (hnonempty inner (by decide) hranges).1 (by decide)
  have hbeyond : ¬p.SharesKey beyond := by
    rw [← hnonempty beyond (by decide) hranges]
    decide
  have hpair : ⟨inner, ⟨1, 30, 0, 1⟩⟩ ∈ g.pairs := by decide
  refine ⟨hg, by decide, hranges, hinner, hbeyond, (hkeys inner).2 ⟨⟨_, hpair⟩, .inl hinner⟩, ?_⟩
  intro hmem
  obtain ⟨-, hshares | hempty⟩ := (hkeys beyond).1 hmem
  · exact hbeyond hshares
  · exact not_meetsEmpty (by decide) hranges hempty

/-- The range between a key and itself has no key, and is still taken to intersect a range around
it: as a covering set it keeps what is listed for that range. -/
theorem intersects_empty_inside :
    let key := RoutingKey.token (.ofNat 7)
    let empty : TokenRange := ⟨key 5, key 5⟩
    let around : TokenRange := ⟨key 0, key 10⟩
    let p := Participants.ranges (.ofList [empty])
    TokenRange.create (key 5) (key 5) = .ok empty ∧
      TokenRange.create (key 0) (key 10) = .ok around ∧
      (¬∃ k, empty.contains k = true ∧ around.contains k = true) ∧ ¬p.SharesKey around ∧
      empty.intersects around = true ∧ p.intersectsRange around = true ∧
      around ∈ (RangeDeps.slice (.ofPairs [⟨around, ⟨1, 30, 0, 1⟩⟩]) p).keys := by
  intro key empty around p
  have hnone : ∀ k, ¬empty.contains k = true := by
    intro k hk
    obtain ⟨hlow, hhigh⟩ := TokenRange.contains_eq_true_iff.1 hk
    exact Std.not_lt.2 hhigh hlow
  refine ⟨rfl, rfl, fun ⟨k, hk, _⟩ => hnone k hk, ?_, by decide, by decide, by decide⟩
  rintro ⟨k, hk, -⟩
  obtain ⟨r, hr, hcontains⟩ := Ranges.containsKey_eq_true_iff.1 hk
  have hmem : r ∈ [empty] := hr
  rw [List.mem_singleton.1 hmem] at hcontains
  exact hnone k hcontains

end Participants

end TxnDeps
