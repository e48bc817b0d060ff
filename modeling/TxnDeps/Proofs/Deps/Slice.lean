import TxnDeps.Proofs.Deps.WellFormed
import TxnDeps.Proofs.Graph.Restriction
import TxnDeps.Proofs.Range.Union

namespace TxnDeps

theorem RangeDeps.mem_txnsContaining_iff {g : RangeDeps} {k : RoutingKey} {txn : TxnId} :
    txn ∈ g.txnsContaining k ↔ ∃ r : TokenRange, r.contains k = true ∧ ⟨r, txn⟩ ∈ g.pairs := by
  simp only [txnsContaining, mem_sortDistinct, List.mem_flatMap, List.mem_filter,
    Graph.mem_pairs_iff]
  constructor
  · rintro ⟨⟨r, txns⟩, ⟨hentry, hr⟩, htxn⟩
    exact ⟨r, hr, txns, hentry, htxn⟩
  · rintro ⟨r, hr, txns, hentry, htxn⟩
    exact ⟨(r, txns), ⟨hentry, hr⟩, htxn⟩

theorem Deps.mem_txnsFor_iff {d : Deps} {k : RoutingKey} {txn : TxnId} :
    txn ∈ d.txnsFor k ↔ ⟨k, txn⟩ ∈ d.byKey.pairs ∨ ⟨k, txn⟩ ∈ d.direct.pairs ∨
      ∃ r : TokenRange, r.contains k = true ∧ ⟨r, txn⟩ ∈ d.byRange.pairs := by
  simp only [txnsFor, mem_sortDistinct, List.mem_append, Graph.mem_txnsOf_iff,
    RangeDeps.mem_txnsContaining_iff, or_assoc]

theorem Deps.ascending_txnsFor (d : Deps) (k : RoutingKey) : Ascending (d.txnsFor k) :=
  ascending_sortDistinct _

/-- On a key in the covering set a part tells of the same conflicts as the whole: it keeps the
key, and it keeps each range that contains the key. -/
theorem Deps.txnsFor_slice {d : Deps} (hd : d.WellFormed) {covering : Participants}
    {k : RoutingKey} (hk : covering.containsKey k = true) :
    (d.slice covering).deps.txnsFor k = d.txnsFor k := by
  obtain ⟨keyRuns, hkey, -⟩ := hd.byKey.runs
  obtain ⟨rangeRuns, hrange, -⟩ := hd.byRange.runs
  obtain ⟨directRuns, hdirect, -⟩ := hd.direct.runs
  apply (ascending_txnsFor _ k).eq_of_mem_iff (ascending_txnsFor d k)
  intro txn
  rw [mem_txnsFor_iff, mem_txnsFor_iff]
  refine or_congr ?_ (or_congr ?_ ?_)
  · exact (Graph.mem_pairs_filterKeys hkey).trans (and_iff_left hk)
  · exact (Graph.mem_pairs_filterKeys hdirect).trans (and_iff_left hk)
  · apply exists_congr
    intro r
    apply and_congr_right
    intro hr
    exact (Graph.mem_pairs_filterKeys hrange).trans
      (and_iff_left (Participants.intersectsRange_of_contains hk hr))

theorem Deps.combine_slice {d : Deps} (hd : d.WellFormed) {p q u : Participants}
    (hu : p.union q = .ok u) : (d.slice p).combine (d.slice q) = .ok (d.slice u) := by
  obtain ⟨keyRuns, hkey, -⟩ := hd.byKey.runs
  obtain ⟨rangeRuns, hrange, -⟩ := hd.byRange.runs
  obtain ⟨directRuns, hdirect, -⟩ := hd.direct.runs
  have hcontains : u.containsKey = fun k => p.containsKey k || q.containsKey k :=
    funext (Participants.containsKey_union hu)
  have hintersects : u.intersectsRange = fun r => p.intersectsRange r || q.intersectsRange r :=
    funext (Participants.intersectsRange_union hu)
  have hmerge : Deps.merge [(d.slice p).deps, (d.slice q).deps] = (d.slice u).deps := by
    simp only [Deps.merge, Deps.slice, List.map_cons, List.map_nil, KeyDeps.slice,
      RangeDeps.slice, Graph.merge_filterKeys hkey, Graph.merge_filterKeys hrange,
      Graph.merge_filterKeys hdirect, hcontains, hintersects]
  have hcovering : (d.slice p).covering.union (d.slice q).covering = .ok u := hu
  rw [PartialDeps.combine, hcovering]
  change Except.ok (PartialDeps.mk u (Deps.merge [(d.slice p).deps, (d.slice q).deps])) = _
  rw [hmerge]
  rfl

def Participants.unionAll (first : Participants) (rest : List Participants) :
    Except ArgumentError Participants :=
  rest.foldlM union first

theorem Participants.exists_unionAll {cs : List Participants} {u : Participants}
    (h : IsUnion cs u) (rest : List Participants) (hrest : ∀ c ∈ rest, c.domain = u.domain) :
    ∃ w, unionAll u rest = .ok w ∧ IsUnion (cs ++ rest) w := by
  induction rest generalizing cs u with
  | nil => exact ⟨u, rfl, by rwa [List.append_nil]⟩
  | cons c rest ih =>
    have hc : c.domain = u.domain := hrest c List.mem_cons_self
    obtain ⟨w, hw, hunion⟩ := h.append (isUnion_singleton c) hc.symm
    have hdomain : w.domain = u.domain :=
      (hunion.domain c (by simp)).symm.trans hc
    obtain ⟨v, hv, hall⟩ := ih hunion fun c' hc' =>
      (hrest c' (List.mem_cons_of_mem c hc')).trans hdomain.symm
    refine ⟨v, ?_, by simpa using hall⟩
    rw [unionAll, List.foldlM_cons, hw]
    exact hv

/-- An order and a grouping in which parts are put together. -/
inductive Grouping where
  | part (covering : Participants)
  | join (left right : Grouping)

namespace Grouping

def coverings : Grouping → List Participants
  | part covering => [covering]
  | join left right => left.coverings ++ right.coverings

def combine (d : Deps) : Grouping → Except ArgumentError PartialDeps
  | part covering => .ok (d.slice covering)
  | join left right => do
    let p ← left.combine d
    let q ← right.combine d
    p.combine q

theorem coverings_ne_nil (g : Grouping) : g.coverings ≠ [] := by
  induction g with
  | part covering => exact List.cons_ne_nil _ _
  | join left right ihl _ => exact fun h => ihl (List.append_eq_nil_iff.1 h).1

theorem combine_eq {d : Deps} (hd : d.WellFormed) (domain : Domain) (g : Grouping)
    (hg : ∀ c ∈ g.coverings, c.domain = domain) :
    ∃ u, g.combine d = .ok (d.slice u) ∧ u.domain = domain ∧
      Participants.IsUnion g.coverings u := by
  induction g with
  | part covering =>
    exact ⟨covering, rfl, hg covering (List.mem_singleton_self _),
      Participants.isUnion_singleton covering⟩
  | join left right ihl ihr =>
    obtain ⟨p, hp, hpd, hpu⟩ := ihl fun c hc => hg c (List.mem_append_left _ hc)
    obtain ⟨q, hq, hqd, hqu⟩ := ihr fun c hc => hg c (List.mem_append_right _ hc)
    obtain ⟨u, hu, hunion⟩ := hpu.append hqu (hpd.trans hqd.symm)
    obtain ⟨c, hc⟩ := List.exists_mem_of_ne_nil _ left.coverings_ne_nil
    refine ⟨u, ?_, ?_, hunion⟩
    · rw [combine, hp, hq]
      exact Deps.combine_slice hd hu
    · exact (hunion.domain c (List.mem_append_left _ hc)).symm.trans
        (hg c (List.mem_append_left _ hc))

/-- Parts for the same covering sets, however they are put together, are the part for the union of
the sets, and miss and invent no conflict on a key of what that part covers. -/
theorem combine_slices {d : Deps} (hd : d.WellFormed) (first : Participants)
    (rest : List Participants) (hrest : ∀ c ∈ rest, c.domain = first.domain) (g : Grouping)
    (hg : ∀ c, c ∈ g.coverings ↔ c ∈ first :: rest) :
    ∃ covering p, Participants.unionAll first rest = .ok covering ∧ g.combine d = .ok p ∧
      p = d.slice covering ∧
      ∀ q : Participants, p.covers q = true → ∀ k, q.containsKey k = true →
        p.deps.txnsFor k = d.txnsFor k := by
  have hdomain : ∀ c ∈ g.coverings, c.domain = first.domain := by
    intro c hc
    obtain rfl | hc := List.mem_cons.1 ((hg c).1 hc)
    · rfl
    · exact hrest c hc
  obtain ⟨u, hu, -, hunion⟩ := combine_eq hd first.domain g hdomain
  obtain ⟨w, hw, hall⟩ :=
    Participants.exists_unionAll (Participants.isUnion_singleton first) rest hrest
  have he : u = w := hunion.unique hall g.coverings_ne_nil hg
  subst he
  refine ⟨u, d.slice u, hw, hu, rfl, fun q hq k hk => ?_⟩
  exact Deps.txnsFor_slice hd (Participants.containsKey_of_covers hq hk)

/-- Two sets that touch, put together from the right to the left. A range across the two is covered,
and the transactions on either side of the seam are found. -/
theorem combine_slices_touching :
    let key := RoutingKey.token (.ofNat 7)
    let low := Participants.ranges (.ofList [⟨key 0, key 4⟩])
    let high := Participants.ranges (.ofList [⟨key 4, key 8⟩])
    let across := Participants.ranges (.ofList [⟨key 0, key 6⟩])
    sampleDeps.WellFormed ∧ (∀ c ∈ [high], c.domain = low.domain) ∧
      ∃ covering p, low.unionAll [high] = .ok covering ∧
        (join (part high) (part low)).combine sampleDeps = .ok p ∧ p = sampleDeps.slice covering ∧
        p.covers across = true ∧ p.deps.txnsFor (key 1) = [⟨1, 10, 0, 1⟩, ⟨1, 30, 0, 1⟩] ∧
        p.deps.txnsFor (key 5) = [⟨1, 20, 0, 1⟩, ⟨1, 30, 0, 1⟩, ⟨1, 40, 0, 1⟩] := by
  intro key low high across
  have hdomain : ∀ c ∈ [high], c.domain = low.domain := by decide
  have hunion : low.unionAll [high] =
      .ok (.ranges (SortedList.union (.ofList [⟨key 0, key 4⟩]) (.ofList [⟨key 4, key 8⟩]))) := rfl
  obtain ⟨covering, p, hcovering, hp, hslice, hfound⟩ := combine_slices sampleDeps_wellFormed low
    [high] hdomain (join (part high) (part low)) fun c => by simp [coverings, or_comm]
  rw [hunion] at hcovering
  cases hcovering
  have hcovers : p.covers across = true := by
    rw [hslice]
    decide
  have hlow : sampleDeps.txnsFor (key 1) = [⟨1, 10, 0, 1⟩, ⟨1, 30, 0, 1⟩] := by decide
  have hhigh : sampleDeps.txnsFor (key 5) =
      [⟨1, 20, 0, 1⟩, ⟨1, 30, 0, 1⟩, ⟨1, 40, 0, 1⟩] := by decide
  exact ⟨sampleDeps_wellFormed, hdomain, _, p, hunion, hp, hslice, hcovers,
    (hfound across hcovers (key 1) (by decide)).trans hlow,
    (hfound across hcovers (key 5) (by decide)).trans hhigh⟩

end Grouping

end TxnDeps
