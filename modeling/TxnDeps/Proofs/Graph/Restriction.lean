import TxnDeps.Proofs.Graph.Canonical

namespace TxnDeps

open Std (TransOrd LawfulEqOrd)

variable {α : Type} [Ord α]

namespace Graph

theorem mem_pairs_iff {g : Graph α} {key : α} {txn : TxnId} :
    ⟨key, txn⟩ ∈ g.pairs ↔ ∃ txns, (key, txns) ∈ g.entries ∧ txn ∈ txns := by
  refine Association.mem_flatMap.trans ⟨?_, ?_⟩
  · rintro ⟨⟨_, txns⟩, hentry, rfl, hmem⟩
    exact ⟨txns, hentry, hmem⟩
  · rintro ⟨txns, hentry, hmem⟩
    exact ⟨(key, txns), hentry, rfl, hmem⟩

theorem mem_entries_iff {g : Graph α} {key : α} {txns : List TxnId} :
    (key, txns) ∈ g.entries ↔
      ∃ i, g.keys.toList[i]? = some key ∧ (g.txnsAt? i).getD [] = txns := by
  rw [entries, List.mem_map]
  constructor
  · rintro ⟨⟨k, i⟩, hmem, he⟩
    cases he
    exact ⟨i, List.mk_mem_zipIdx_iff_getElem?.1 hmem, rfl⟩
  · rintro ⟨i, hkey, rfl⟩
    exact ⟨(key, i), List.mk_mem_zipIdx_iff_getElem?.2 hkey, rfl⟩

theorem key_mem_of_mem_pairs {g : Graph α} {a : Association α} (h : a ∈ g.pairs) :
    a.key ∈ g.keys := by
  obtain ⟨txns, hentry, -⟩ := mem_pairs_iff.1 h
  obtain ⟨i, hkey, -⟩ := mem_entries_iff.1 hentry
  exact List.mem_of_getElem? hkey

variable [TransOrd α] [LawfulEqOrd α]

theorem mem_txnsOf_iff {g : Graph α} {key : α} {txn : TxnId} :
    txn ∈ g.txnsOf key ↔ ⟨key, txn⟩ ∈ g.pairs := by
  simp only [mem_pairs_iff, mem_entries_iff, txnsOf]
  constructor
  · intro h
    split at h
    · next i hi => exact ⟨_, ⟨i, SortedList.indexOf?_eq_some_iff.1 hi, rfl⟩, h⟩
    · cases h
  · rintro ⟨_, ⟨i, hkey, rfl⟩, h⟩
    rw [SortedList.indexOf?_eq_some_iff.2 hkey]
    exact h

omit [TransOrd α] [LawfulEqOrd α] in
theorem HasRuns.length_pairs {g : Graph α} {runs : List (List UInt32)} (h : g.HasRuns runs) :
    g.pairs.length = runs.flatten.length := by
  have hlen : g.keys.toList.length = (runs.map (·.map g.txnAt)).length :=
    h.length.symm.trans (List.length_map _).symm
  have hsnd : (g.keys.toList.zip (runs.map (·.map g.txnAt))).map Prod.snd =
      runs.map (·.map g.txnAt) :=
    List.map_snd_zip (Nat.le_of_eq hlen.symm)
  have hcount : g.entries.map (fun entry => (entry.2.map fun txn =>
      (⟨entry.1, txn⟩ : Association α)).length) = runs.map List.length := by
    rw [h.entries_eq]
    calc _ = ((g.keys.toList.zip (runs.map (·.map g.txnAt))).map Prod.snd).map List.length := by
          simp
      _ = runs.map List.length := by
          rw [hsnd, List.map_map]
          exact List.map_congr_left fun run _ => by simp
  rw [pairs, List.length_flatMap, List.length_flatten]
  exact congrArg List.sum hcount

/-- The links of a graph can count the keys and associations of each of its parts. -/
theorem HasRuns.fits {g : Graph α} {runs : List (List UInt32)} (h : g.HasRuns runs)
    {part : List (Association α)} (hpart : ∀ a ∈ part, a ∈ g.pairs) :
    GraphBuilder.Fits (.ofList part) := by
  let b : GraphBuilder α := .ofList part
  have hsize : SortedList.size b ≤ runs.flatten.length := by
    rw [← h.length_pairs]
    exact List.Nodup.length_le_of_subset b.ascending.nodup fun a ha =>
      hpart a (SortedList.mem_ofList.1 ha)
  have hkeys : b.keys.size ≤ runs.length := by
    rw [h.length]
    apply List.Nodup.length_le_of_subset b.keys.ascending.nodup
    intro key hkey
    obtain ⟨txn, hmem⟩ := GraphBuilder.mem_keys.1 hkey
    exact key_mem_of_mem_pairs (hpart _ (SortedList.mem_ofList.1 hmem))
  have hlen := h.holds.length
  have hlt := h.holds.length_lt
  change b.keys.size + SortedList.size b < 2 ^ 32
  omega

theorem ofPairs_congr {xs ys : List (Association α)} (h : ∀ a, a ∈ xs ↔ a ∈ ys) :
    ofPairs xs = ofPairs ys := by
  rw [ofPairs, ofPairs, SortedList.ofList_eq_of_mem_iff h]

variable {g : Graph α} {runs : List (List UInt32)}

theorem HasRuns.fits_filter (h : g.HasRuns runs) (keep : Association α → Bool) :
    GraphBuilder.Fits (.ofList (g.pairs.filter keep)) :=
  h.fits fun _ ha => (List.mem_filter.1 ha).1

theorem HasRuns.mem_pairs_filter (h : g.HasRuns runs) (keep : Association α → Bool)
    {a : Association α} :
    a ∈ (ofPairs (g.pairs.filter keep)).pairs ↔ a ∈ g.pairs ∧ keep a = true := by
  rw [ofPairs, GraphBuilder.pairs_build (h.fits_filter keep)]
  exact SortedList.mem_ofList.trans List.mem_filter

theorem mem_pairs_filterKeys (h : g.HasRuns runs) {keep : α → Bool} {a : Association α} :
    a ∈ (g.filterKeys keep).pairs ↔ a ∈ g.pairs ∧ keep a.key = true :=
  h.mem_pairs_filter _

theorem mem_keys_filterKeys {keep : α → Bool} {key : α} :
    key ∈ (g.filterKeys keep).keys ↔ (∃ txn, ⟨key, txn⟩ ∈ g.pairs) ∧ keep key = true := by
  have hmem : key ∈ (g.filterKeys keep).keys ↔
      ∃ txn, ⟨key, txn⟩ ∈ SortedList.ofList (g.pairs.filter fun a => keep a.key) :=
    GraphBuilder.mem_keys
  simp only [hmem, SortedList.mem_ofList, List.mem_filter, exists_and_right]

theorem wellFormed_filterKeys (h : g.HasRuns runs) (keep : α → Bool) :
    (g.filterKeys keep).WellFormed :=
  GraphBuilder.wellFormed_build (h.fits_filter _)

theorem merge_filterKeys (h : g.HasRuns runs) (keep keep' : α → Bool) :
    merge [g.filterKeys keep, g.filterKeys keep'] =
      g.filterKeys fun key => keep key || keep' key := by
  apply ofPairs_congr
  intro a
  simp only [List.flatMap_cons, List.flatMap_nil, List.append_nil, List.mem_append,
    mem_pairs_filterKeys h, List.mem_filter, Bool.or_eq_true]
  exact and_or_left.symm

end Graph

end TxnDeps
