import TxnDeps.Proofs.Graph.Tight

namespace TxnDeps

open Std (TransOrd LawfulEqOrd)

/-- Links leave no choice beyond the runs that they hold. -/
theorem Links.Holds.eq_ofRuns {links : List UInt32} {runs : List (List UInt32)}
    (h : Holds links runs) : links = ofRuns runs := by
  have hbound : runs.length + runs.flatten.length < 2 ^ 32 := h.length ▸ h.length_lt
  have hends : links.take runs.length = runEnds runs.length runs := by
    rw [← List.map_inj_right fun _ _ => UInt32.toNat_inj.1, h.ends, map_runEnds _ _ hbound]
  rw [ofRuns, ← hends, ← h.indexes, List.take_append_drop]

variable {α : Type} [Ord α]

namespace Graph

/-- The arrays are in order, and list nothing in vain. -/
structure Canonical (g : Graph α) : Prop where
  wellFormed : g.WellFormed
  tight : g.Tight

theorem Canonical.empty : (Graph.empty : Graph α).Canonical :=
  ⟨.empty, ⟨nofun, nofun⟩⟩

variable [TransOrd α] [LawfulEqOrd α] {g g' : Graph α} {runs : List (List UInt32)}

theorem HasRuns.map_txnAt (h : g.HasRuns runs) :
    runs.map (·.map g.txnAt) = g.keys.toList.map g.txnsOf := by
  have hlen : runs.length = g.keys.toList.length := h.length
  apply List.ext_getElem (by simpa using hlen)
  intro i hi hi'
  rw [List.length_map] at hi hi'
  have hindex : g.keys.indexOf? g.keys.toList[i] = some i :=
    SortedList.indexOf?_eq_some_iff.2 (List.getElem?_eq_getElem hi')
  rw [List.getElem_map, List.getElem_map, txnsOf, hindex]
  dsimp only
  rw [h.txnsAt?_eq_some hi, Option.getD_some]

theorem WellFormed.ascending_txnsOf (h : g.WellFormed) (key : α) : Ascending (g.txnsOf key) := by
  obtain ⟨runs, hruns, horder⟩ := h.runs
  rw [txnsOf]
  split
  · next i hi =>
    have hlt : i < runs.length := by
      rw [hruns.length]
      exact (List.getElem?_eq_some_iff.1 (SortedList.indexOf?_eq_some_iff.1 hi)).1
    have hmem := List.getElem_mem hlt
    rw [hruns.txnsAt?_eq_some hlt, Option.getD_some,
      ascending_map_txnAt_iff h.txns (hruns.indexes _ hmem)]
    exact horder _ hmem
  · exact List.Pairwise.nil

theorem WellFormed.txnsOf_ofList (h : g.WellFormed) (key : α) :
    GraphBuilder.txnsOf (.ofList g.pairs) key = g.txnsOf key := by
  apply (GraphBuilder.ascending_txnsOf key).eq_of_mem_iff (h.ascending_txnsOf key)
  intro txn
  rw [GraphBuilder.mem_txnsOf, mem_txnsOf_iff]
  exact SortedList.mem_ofList

namespace Canonical

theorem keys_ofList (h : g.Canonical) : GraphBuilder.keys (.ofList g.pairs) = g.keys := by
  apply SortedList.ext_mem
  intro key
  simp only [GraphBuilder.mem_keys, SortedList.mem_ofList]
  constructor
  · rintro ⟨txn, hmem⟩
    exact key_mem_of_mem_pairs hmem
  · exact h.tight.keys key

theorem txnIds_ofList (h : g.Canonical) :
    (GraphBuilder.txnIds (.ofList g.pairs)).toList = g.txnIds := by
  apply (SortedList.ascending _).eq_of_mem_iff h.wellFormed.txns
  intro txn
  have hmem : txn ∈ (GraphBuilder.txnIds (.ofList g.pairs)).toList ↔ g.Names txn := by
    refine GraphBuilder.mem_txnIds.trans (exists_congr fun key => ?_)
    exact SortedList.mem_ofList
  rw [hmem]
  exact ⟨h.wellFormed.mem_txnIds_of_names, h.tight.txns txn⟩

theorem indexOf_txnAt (h : g.Canonical) {i : UInt32} (hi : i.toNat < g.txnIds.length) :
    GraphBuilder.indexOf (.ofList g.pairs) (g.txnAt i) = i := by
  have hplace := h.wellFormed.txns.nodup.idxOf_getElem i.toNat hi
  rw [GraphBuilder.indexOf, h.txnIds_ofList, txnAt, List.getElem?_eq_getElem hi,
    Option.getD_some, hplace, UInt32.ofNat_toNat]

theorem runs_ofList (h : g.Canonical) (hruns : g.HasRuns runs) :
    GraphBuilder.runs (.ofList g.pairs) = runs := by
  let index := GraphBuilder.indexOf (.ofList g.pairs)
  have hback : ∀ run ∈ runs, (run.map g.txnAt).map index = run := by
    intro run hrun
    rw [List.map_map]
    refine (List.map_congr_left fun i hi => ?_).trans (List.map_id _)
    exact h.indexOf_txnAt (hruns.indexes run hrun i hi)
  calc GraphBuilder.runs (.ofList g.pairs)
      = (g.keys.toList.map g.txnsOf).map (·.map index) := by
        rw [GraphBuilder.runs, h.keys_ofList, List.map_map]
        exact List.map_congr_left fun key _ =>
          congrArg (List.map index) (h.wellFormed.txnsOf_ofList key)
    _ = runs.map fun run => (run.map g.txnAt).map index := by
        rw [← hruns.map_txnAt, List.map_map]
        rfl
    _ = runs := (List.map_congr_left hback).trans (List.map_id _)

theorem ofPairs_pairs (h : g.Canonical) : ofPairs g.pairs = g := by
  obtain ⟨runs, hruns, -⟩ := h.wellFormed.runs
  let b : GraphBuilder α := .ofList g.pairs
  have hbuild : ofPairs g.pairs = ⟨b.keys, b.txnIds.toList, Links.ofRuns b.runs⟩ := rfl
  rw [hbuild, h.keys_ofList, h.txnIds_ofList, h.runs_ofList hruns, ← hruns.holds.eq_ofRuns]

theorem eq_iff (h : g.Canonical) (h' : g'.Canonical) :
    g = g' ↔ ∀ a, a ∈ g.pairs ↔ a ∈ g'.pairs := by
  constructor
  · rintro rfl a
    rfl
  · intro hpairs
    rw [← h.ofPairs_pairs, ← h'.ofPairs_pairs, ofPairs_congr hpairs]

end Canonical

end Graph

namespace GraphBuilder

variable [TransOrd α] [LawfulEqOrd α] {b : GraphBuilder α}

theorem canonical_build (h : b.Fits) : b.build.Canonical :=
  ⟨wellFormed_build h, tight_build h⟩

theorem length_links_build (b : GraphBuilder α) :
    b.build.links.length = b.keys.size + b.size := by
  change (Links.runEnds b.runs.length b.runs ++ b.runs.flatten).length = _
  rw [List.length_append, Links.length_runEnds, length_runs, length_flatten_runs]

theorem fits_iff : b.Fits ↔ b.build.links.length < 2 ^ 32 := by
  rw [length_links_build, Fits]

end GraphBuilder

end TxnDeps
