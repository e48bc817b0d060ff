import TxnDeps.Proofs.Deps.Slice

namespace TxnDeps

namespace PartialDeps

theorem covers_key_iff {p : PartialDeps} {k : RoutingKey} :
    p.covers (.keys (.ofList [k])) = true ↔ p.covering.containsKey k = true := by
  have hkey : Participants.containsKey (.keys (.ofList [k])) k = true :=
    SortedList.contains_eq_true_iff.2 (SortedList.mem_ofList.2 (List.mem_singleton_self k))
  refine ⟨fun h => Participants.containsKey_of_covers h hkey, fun h => ?_⟩
  have honly : ∀ j ∈ SortedList.ofList [k], j = k := fun j hj =>
    List.mem_singleton.1 (SortedList.mem_ofList.1 hj)
  rw [covers]
  cases hcovering : p.covering with
  | keys ks =>
    rw [hcovering] at h
    refine SortedList.isSubsetOf_eq_true_iff.2 fun j hj => ?_
    rw [honly j hj]
    exact SortedList.contains_eq_true_iff.1 h
  | ranges rs =>
    rw [hcovering] at h
    refine List.all_eq_true.2 fun j hj => ?_
    rw [honly j hj]
    exact h

end PartialDeps

namespace Deps

variable {d : Deps} {covering : Participants} {k : RoutingKey} {txn : TxnId}

theorem wellFormed_slice (hd : d.WellFormed) (covering : Participants) :
    (d.slice covering).deps.WellFormed := by
  obtain ⟨keyRuns, hkey, -⟩ := hd.byKey.runs
  obtain ⟨rangeRuns, hrange, -⟩ := hd.byRange.runs
  obtain ⟨directRuns, hdirect, -⟩ := hd.direct.runs
  exact ⟨Graph.wellFormed_filterKeys hkey _, Graph.wellFormed_filterKeys hrange _,
    Graph.wellFormed_filterKeys hdirect _⟩

/-- The transaction is in conflict on the key by a range that meets the covering set. -/
def ConflictsWithin (d : Deps) (covering : Participants) (k : RoutingKey) (txn : TxnId) : Prop :=
  ∃ r : TokenRange, r.contains k = true ∧ covering.intersectsRange r = true ∧
    ⟨r, txn⟩ ∈ d.byRange.pairs

theorem ConflictsWithin.mem_txnsFor (h : d.ConflictsWithin covering k txn) :
    txn ∈ d.txnsFor k := by
  obtain ⟨r, hr, -, hmem⟩ := h
  exact mem_txnsFor_iff.2 (.inr (.inr ⟨r, hr, hmem⟩))

/-- Outside of the covering set a part tells of no conflicts but those that its ranges bring. -/
theorem mem_txnsFor_slice_iff (hd : d.WellFormed) (hk : ¬covering.containsKey k = true) :
    txn ∈ (d.slice covering).deps.txnsFor k ↔ d.ConflictsWithin covering k txn := by
  obtain ⟨keyRuns, hkey, -⟩ := hd.byKey.runs
  obtain ⟨rangeRuns, hrange, -⟩ := hd.byRange.runs
  obtain ⟨directRuns, hdirect, -⟩ := hd.direct.runs
  have hkeys : ⟨k, txn⟩ ∉ (d.slice covering).deps.byKey.pairs := fun hmem =>
    hk ((Graph.mem_pairs_filterKeys hkey).1 hmem).2
  have hdirects : ⟨k, txn⟩ ∉ (d.slice covering).deps.direct.pairs := fun hmem =>
    hk ((Graph.mem_pairs_filterKeys hdirect).1 hmem).2
  rw [mem_txnsFor_iff, or_iff_right hkeys, or_iff_right hdirects]
  apply exists_congr
  intro r
  apply and_congr_right
  intro _
  exact (Graph.mem_pairs_filterKeys hrange).trans and_comm

theorem mem_txnsFor_of_slice (hd : d.WellFormed) (h : txn ∈ (d.slice covering).deps.txnsFor k) :
    txn ∈ d.txnsFor k := by
  by_cases hk : covering.containsKey k = true
  · rwa [txnsFor_slice hd hk] at h
  · exact ((mem_txnsFor_slice_iff hd hk).1 h).mem_txnsFor

/-- A part tells of all conflicts on a key exactly if it covers the key, or if its ranges bring
them all. -/
theorem txnsFor_slice_eq_iff (hd : d.WellFormed) :
    (d.slice covering).deps.txnsFor k = d.txnsFor k ↔
      covering.containsKey k = true ∨ ∀ txn ∈ d.txnsFor k, d.ConflictsWithin covering k txn := by
  by_cases hk : covering.containsKey k = true
  · exact iff_of_true (txnsFor_slice hd hk) (.inl hk)
  · rw [or_iff_right hk]
    constructor
    · intro h txn htxn
      rw [← h] at htxn
      exact (mem_txnsFor_slice_iff hd hk).1 htxn
    · intro h
      apply (ascending_txnsFor _ k).eq_of_mem_iff (ascending_txnsFor d k)
      intro txn
      rw [mem_txnsFor_slice_iff hd hk]
      exact ⟨ConflictsWithin.mem_txnsFor, h txn⟩

/-- On a key that it covers, a part of a part tells of what the first part tells of. It invents no
conflict, and it misses none if the first part covers the key as well, or has all conflicts on it
by ranges; in no other case is it complete. -/
theorem txnsFor_slice_slice (hd : d.WellFormed) (c c' : Participants) (k : RoutingKey)
    (hcovers : ((d.slice c).deps.slice c').covers (.keys (.ofList [k])) = true) :
    let part := (d.slice c).deps.slice c'
    part.deps.txnsFor k = (d.slice c).deps.txnsFor k ∧
      (∀ txn ∈ part.deps.txnsFor k, txn ∈ d.txnsFor k) ∧
      ((d.slice c).covers (.keys (.ofList [k])) = true →
        part.deps.txnsFor k = d.txnsFor k) ∧
      (part.deps.txnsFor k = d.txnsFor k ↔
        c.containsKey k = true ∨ ∀ txn ∈ d.txnsFor k, d.ConflictsWithin c k txn) := by
  intro part
  have hk : c'.containsKey k = true := PartialDeps.covers_key_iff.1 hcovers
  have hsame : part.deps.txnsFor k = (d.slice c).deps.txnsFor k :=
    txnsFor_slice (wellFormed_slice hd c) hk
  rw [hsame]
  refine ⟨rfl, fun txn => mem_txnsFor_of_slice hd, fun hfirst => ?_, txnsFor_slice_eq_iff hd⟩
  exact txnsFor_slice hd (PartialDeps.covers_key_iff.1 hfirst)

/-- A key in a set of ranges, of which a set of keys is a part. -/
theorem txnsFor_slice_slice_inner :
    let key := RoutingKey.token (.ofNat 7)
    let c := Participants.ranges (.ofList [⟨key 0, key 6⟩])
    let c' := Participants.keys (.ofList [key 5])
    let part := (sampleDeps.slice c).deps.slice c'
    sampleDeps.WellFormed ∧ part.covers (.keys (.ofList [key 5])) = true ∧
      part.deps.txnsFor (key 5) = sampleDeps.txnsFor (key 5) := by
  intro key c c' part
  have hcovers : part.covers (.keys (.ofList [key 5])) = true := by decide
  have hfirst : (sampleDeps.slice c).covers (.keys (.ofList [key 5])) = true := by decide
  obtain ⟨-, -, hcomplete, -⟩ := txnsFor_slice_slice sampleDeps_wellFormed c c' (key 5) hcovers
  exact ⟨sampleDeps_wellFormed, hcovers, hcomplete hfirst⟩

/-- The part for one key, asked in turn for the part for another key, covers that key, and misses
two of the three conflicts on it. -/
theorem slice_slice_widened :
    let key := RoutingKey.token (.ofNat 7)
    let part := (sampleDeps.slice (.keys (.ofList [key 1]))).deps.slice (.keys (.ofList [key 5]))
    sampleDeps.WellFormed ∧ part.covers (.keys (.ofList [key 5])) = true ∧
      part.deps.txnsFor (key 5) = [⟨1, 30, 0, 1⟩] ∧
      sampleDeps.txnsFor (key 5) = [⟨1, 20, 0, 1⟩, ⟨1, 30, 0, 1⟩, ⟨1, 40, 0, 1⟩] :=
  ⟨sampleDeps_wellFormed, by decide⟩

end Deps

end TxnDeps
