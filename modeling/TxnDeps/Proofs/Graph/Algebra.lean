import TxnDeps.Key
import TxnDeps.Proofs.Graph.Assembly
import TxnDeps.Proofs.Graph.Unique

namespace TxnDeps

open Std (TransOrd LawfulEqOrd)

variable {α : Type} [Ord α] [TransOrd α] [LawfulEqOrd α]

theorem GraphBuilder.Fits.mono {b part : GraphBuilder α} (h : b.Fits)
    (hpart : ∀ a, a ∈ part → a ∈ b) : part.Fits := by
  have hsize : SortedList.size part ≤ SortedList.size b :=
    List.Nodup.length_le_of_subset part.ascending.nodup hpart
  have hkeys : part.keys.size ≤ b.keys.size := by
    apply List.Nodup.length_le_of_subset part.keys.ascending.nodup
    intro key hkey
    obtain ⟨txn, hmem⟩ := mem_keys.1 hkey
    exact mem_keys.2 ⟨txn, hpart _ hmem⟩
  rw [Fits] at h ⊢
  omega

namespace Graph

variable {g : Graph α} {graphs graphs' : List (Graph α)} {a : Association α}

theorem canonical_merge (h : (merge graphs).links.length < 2 ^ 32) : (merge graphs).Canonical :=
  GraphBuilder.canonical_build (GraphBuilder.fits_iff.2 h)

theorem mem_pairs_merge (h : (merge graphs).links.length < 2 ^ 32) :
    a ∈ (merge graphs).pairs ↔ ∃ g ∈ graphs, a ∈ g.pairs := by
  have hfits : GraphBuilder.Fits (.ofList (graphs.flatMap pairs)) := GraphBuilder.fits_iff.2 h
  rw [merge, ofPairs, GraphBuilder.pairs_build hfits]
  exact SortedList.mem_ofList.trans List.mem_flatMap

theorem mem_pairs_merge_map {σ : Type} {graph : σ → Graph α} {owners : List σ}
    (h : (merge (owners.map graph)).links.length < 2 ^ 32) :
    a ∈ (merge (owners.map graph)).pairs ↔ ∃ owner ∈ owners, a ∈ (graph owner).pairs := by
  rw [mem_pairs_merge h]
  constructor
  · rintro ⟨g, hg, hmem⟩
    obtain ⟨owner, howner, rfl⟩ := List.mem_map.1 hg
    exact ⟨owner, howner, hmem⟩
  · rintro ⟨owner, howner, hmem⟩
    exact ⟨graph owner, List.mem_map_of_mem howner, hmem⟩

theorem merge_congr
    (h : ∀ a, (∃ g ∈ graphs, a ∈ g.pairs) ↔ ∃ g ∈ graphs', a ∈ g.pairs) :
    merge graphs = merge graphs' :=
  ofPairs_congr fun a => by rw [List.mem_flatMap, List.mem_flatMap, h]

theorem merge_regroup (before group after : List (Graph α))
    (h : (merge (before ++ group ++ after)).links.length < 2 ^ 32) :
    merge (before ++ merge group :: after) = merge (before ++ group ++ after) := by
  have hfits : GraphBuilder.Fits (.ofList ((before ++ group ++ after).flatMap pairs)) :=
    GraphBuilder.fits_iff.2 h
  have hgroup : (merge group).links.length < 2 ^ 32 := by
    refine GraphBuilder.fits_iff.1 (hfits.mono fun a ha => ?_)
    rw [SortedList.mem_ofList, List.mem_flatMap] at ha ⊢
    obtain ⟨g, hg, hmem⟩ := ha
    exact ⟨g, by simp [hg], hmem⟩
  apply merge_congr
  intro a
  simp only [List.mem_append, List.mem_cons, or_and_right, exists_or, exists_eq_left,
    mem_pairs_merge hgroup, or_assoc]

theorem Canonical.merge_singleton (h : g.Canonical) : merge [g] = g := by
  rw [merge, List.flatMap_singleton, h.ofPairs_pairs]

theorem WellFormed.canonical_filterKeys (h : g.WellFormed) (keep : α → Bool) :
    (g.filterKeys keep).Canonical := by
  obtain ⟨runs, hruns, -⟩ := h.runs
  exact GraphBuilder.canonical_build (hruns.fits_filter _)

theorem WellFormed.canonical_filterTxns (h : g.WellFormed) (keep : TxnId → Bool) :
    (g.filterTxns keep).Canonical := by
  obtain ⟨runs, hruns, -⟩ := h.runs
  exact GraphBuilder.canonical_build (hruns.fits_filter _)

theorem WellFormed.mem_pairs_filterTxns (h : g.WellFormed) (keep : TxnId → Bool) :
    a ∈ (g.filterTxns keep).pairs ↔ a ∈ g.pairs ∧ keep a.txn = true := by
  obtain ⟨runs, hruns, -⟩ := h.runs
  exact hruns.mem_pairs_filter _

/-- Well-formed graphs are put together, and restricted to some keys or transactions, without a
trap. What comes out has the associations in question and is in canonical form. So neither the
order nor the grouping of the graphs matters, nor how often one is put in, and neither does the
empty graph; a graph in canonical form stays as it is. -/
theorem set_operations (graphs : List (Graph α)) (hgraphs : ∀ g ∈ graphs, g.WellFormed)
    (hsize : (merge graphs).links.length < 2 ^ 32) :
    assembleMerge graphs = .ok (merge graphs) ∧ (merge graphs).Canonical ∧
      (∀ a, a ∈ (merge graphs).pairs ↔ ∃ g ∈ graphs, a ∈ g.pairs) ∧
      (∀ g : Graph α, g.WellFormed → ∀ keep : α → Bool,
        g.assembleKeys keep = .ok (g.filterKeys keep) ∧ (g.filterKeys keep).Canonical ∧
        ∀ a, a ∈ (g.filterKeys keep).pairs ↔ a ∈ g.pairs ∧ keep a.key = true) ∧
      (∀ g : Graph α, g.WellFormed → ∀ keep : TxnId → Bool,
        g.assembleTxns keep = .ok (g.filterTxns keep) ∧ (g.filterTxns keep).Canonical ∧
        ∀ a, a ∈ (g.filterTxns keep).pairs ↔ a ∈ g.pairs ∧ keep a.txn = true) ∧
      (∀ graphs', (∀ g, g ∈ graphs' ↔ g ∈ graphs) → merge graphs' = merge graphs) ∧
      (∀ before group after, before ++ group ++ after = graphs →
        merge (before ++ merge group :: after) = merge graphs) ∧
      merge (.empty :: graphs) = merge graphs ∧
      ∀ g : Graph α, g.Canonical → merge [g] = g := by
  refine ⟨assembleMerge_eq_ok hgraphs, canonical_merge hsize, fun a => mem_pairs_merge hsize,
    fun g hg keep => ?_, fun g hg keep => ?_, fun graphs' hsame => ?_,
    fun before group after he => ?_, rfl, fun g hg => hg.merge_singleton⟩
  · obtain ⟨runs, hruns, -⟩ := hg.runs
    exact ⟨hg.assembleKeys_eq_ok keep, hg.canonical_filterKeys keep, fun a =>
      mem_pairs_filterKeys hruns⟩
  · exact ⟨hg.assembleTxns_eq_ok keep, hg.canonical_filterTxns keep, fun a =>
      hg.mem_pairs_filterTxns keep⟩
  · exact merge_congr fun a => by simp only [hsame]
  · subst he
    exact merge_regroup before group after hsize

/-- A graph that lists a key and a transaction in vain, between one with an association and the
empty graph. -/
theorem set_operations_idle :
    let key := RoutingKey.token (.ofNat 7)
    let idle : Graph RoutingKey := ⟨.ofList [key 5], [⟨1, 10, 0, 1⟩], [1]⟩
    let full : Graph RoutingKey := .ofPairs [⟨key 3, ⟨1, 20, 0, 1⟩⟩]
    let graphs := [full, idle, .empty]
    (∀ g ∈ graphs, g.WellFormed) ∧ (merge graphs).links.length < 2 ^ 32 ∧ ¬ idle.Canonical ∧
      assembleMerge graphs = .ok full ∧ merge [idle, .empty, full, idle] = full ∧
      merge [full, merge [idle, .empty]] = full ∧
      idle.assembleKeys (fun _ => true) = .ok .empty := by
  intro key idle full graphs
  have hidle : idle.WellFormed := (ofOrderedParts_eq_ok_iff.1 rfl).1
  have hfull : full.Canonical := GraphBuilder.canonical_build (by decide)
  have hgraphs : ∀ g ∈ graphs, g.WellFormed := by
    simp [graphs, hidle, hfull.wellFormed, Canonical.empty.wellFormed]
  have hsize : (merge graphs).links.length < 2 ^ 32 := by decide
  have hmerge : merge graphs = full := by decide
  obtain ⟨hassemble, -, -, hkeys, -, hsame, hregroup, -, -⟩ := set_operations graphs hgraphs hsize
  have hnone : idle.pairs = [] := by decide
  have hempty : idle.filterKeys (fun _ => true) = .empty := by decide
  refine ⟨hgraphs, hsize, fun h => ?_, ?_, ?_, ?_, ?_⟩
  · obtain ⟨txn, hmem⟩ := h.tight.keys (key 5) (by decide)
    rw [hnone] at hmem
    exact List.not_mem_nil hmem
  · rw [hassemble, hmerge]
  · refine (hsame _ fun g => ?_).trans hmerge
    simp [graphs, or_comm, or_left_comm, or_assoc]
  · exact (hregroup [full] [idle, .empty] [] rfl).trans hmerge
  · rw [(hkeys idle hidle fun _ => true).1, hempty]

end Graph

end TxnDeps
