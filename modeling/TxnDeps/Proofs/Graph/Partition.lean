import TxnDeps.Graph.Access
import TxnDeps.Proofs.Graph.WellFormed

namespace TxnDeps

namespace RawGraph

variable {α : Type} {raw : RawGraph α}

/-- Where the run of the key at place `i` starts, which is where the run before it ends. -/
def bound (raw : RawGraph α) : (i : Nat) → Nat
  | 0 => raw.keys.length
  | i + 1 => (raw.links[i]?.getD 0).toNat

def run (raw : RawGraph α) (i : Nat) : List UInt32 :=
  (raw.links.take (raw.bound (i + 1))).drop (raw.bound i)

theorem slice?_bounds {i : Nat} (hle : raw.bound i ≤ raw.bound (i + 1))
    (hlength : raw.bound (i + 1) ≤ raw.links.length) :
    Links.slice? raw.links (raw.bound i) (raw.bound (i + 1)) = some (raw.run i) := by
  rw [Links.slice?_eq_some hle hlength, run, List.drop_take]

/-- The runs lie end to end behind the run ends up to the end of the array, and hold indexes of
transactions only. -/
structure Partitioned (raw : RawGraph α) : Prop where
  header : raw.keys.length ≤ raw.links.length
  ordered : ∀ i < raw.keys.length, raw.bound i ≤ raw.bound (i + 1)
  last : raw.bound raw.keys.length = raw.links.length
  indexes : ∀ i < raw.keys.length, ∀ index ∈ raw.run i, index.toNat < raw.txnIds.length

namespace Partitioned

theorem bound_le (h : raw.Partitioned) {i j : Nat} (hij : i ≤ j) (hj : j ≤ raw.keys.length) :
    raw.bound i ≤ raw.bound j := by
  induction j with
  | zero => exact Nat.le_zero.1 hij ▸ Nat.le_refl _
  | succ j ih =>
    obtain rfl | hlt := Nat.eq_or_lt_of_le hij
    · exact Nat.le_refl _
    · exact Nat.le_trans (ih (by omega) (by omega)) (h.ordered j (by omega))

theorem keys_le_bound (h : raw.Partitioned) {i : Nat} (hi : i ≤ raw.keys.length) :
    raw.keys.length ≤ raw.bound i :=
  h.bound_le (Nat.zero_le i) hi

theorem bound_le_length (h : raw.Partitioned) {i : Nat} (hi : i ≤ raw.keys.length) :
    raw.bound i ≤ raw.links.length :=
  h.last ▸ h.bound_le hi (Nat.le_refl _)

/-- The first runs are what stands between the run ends and the next bound. -/
theorem flatten_runs (h : raw.Partitioned) {i : Nat} (hi : i ≤ raw.keys.length) :
    ((List.range i).map raw.run).flatten =
      (raw.links.take (raw.bound i)).drop raw.keys.length := by
  induction i with
  | zero => exact (List.drop_eq_nil_of_le (List.length_take_le _ _)).symm
  | succ i ih =>
    have hle := h.ordered i hi
    have hkeys := h.keys_le_bound (Nat.le_of_lt hi)
    have hlength := h.bound_le_length hi
    -- The runs so far stand in the part before the next bound, too.
    have hearlier : raw.links.take (raw.bound i) =
        (raw.links.take (raw.bound (i + 1))).take (raw.bound i) := by
      rw [List.take_take, Nat.min_eq_left hle]
    have hinside : raw.keys.length ≤
        ((raw.links.take (raw.bound (i + 1))).take (raw.bound i)).length := by
      rw [← hearlier, List.length_take]
      omega
    rw [List.range_succ, List.map_append, List.flatten_append, ih (Nat.le_of_lt hi),
      List.map_singleton, List.flatten_singleton, run, hearlier,
      ← List.drop_append_of_le_length hinside, List.take_append_drop]

theorem flatten_all_runs (h : raw.Partitioned) :
    ((List.range raw.keys.length).map raw.run).flatten = raw.links.drop raw.keys.length := by
  rw [h.flatten_runs (Nat.le_refl _), h.last, List.take_length]

theorem holds (h : raw.Partitioned) :
    Links.Holds raw.links ((List.range raw.keys.length).map raw.run) := by
  have hlen : ((List.range raw.keys.length).map raw.run).length = raw.keys.length := by
    rw [List.length_map, List.length_range]
  refine ⟨List.ext_getElem? fun i => ?_, ?_⟩
  · by_cases hi : i < raw.keys.length
    · have hfirst : ((List.range raw.keys.length).map raw.run).take (i + 1) =
          (List.range (i + 1)).map raw.run := by
        rw [← List.map_take, List.take_range, Nat.min_eq_left hi]
      have hbound := h.bound_le_length (i := i + 1) hi
      have hkeys := h.keys_le_bound (i := i + 1) hi
      have hplace : i < raw.links.length := Nat.lt_of_lt_of_le hi h.header
      have hi' : i < ((List.range raw.keys.length).map raw.run).length := hlen.symm ▸ hi
      rw [Links.getElem?_stops _ _ i hi', hfirst, h.flatten_runs (i := i + 1) hi, hlen,
        List.getElem?_map, List.getElem?_take_of_lt hi, List.length_drop, List.length_take,
        Nat.min_eq_left hbound, Nat.add_sub_cancel' hkeys, bound,
        List.getElem?_eq_getElem hplace]
      rfl
    · have hstops : (Links.stops ((List.range raw.keys.length).map raw.run).length
          ((List.range raw.keys.length).map raw.run)).length ≤ i := by
        rw [Links.length_stops, hlen]
        exact Nat.not_lt.1 hi
      rw [List.getElem?_eq_none hstops, List.getElem?_eq_none]
      rw [List.length_map, List.length_take, hlen]
      omega
  · rw [hlen, h.flatten_all_runs]

end Partitioned

theorem partitioned_of_holds {runs : List (List UInt32)} (hlen : runs.length = raw.keys.length)
    (h : Links.Holds raw.links runs)
    (hindexes : ∀ run ∈ runs, ∀ index ∈ run, index.toNat < raw.txnIds.length) :
    raw.Partitioned := by
  -- A bound has the run ends and all earlier runs before it.
  have hbound : ∀ i ≤ runs.length, raw.bound i = runs.length + (runs.take i).flatten.length := by
    rintro (_ | i) hi
    · exact hlen.symm
    · obtain ⟨stop, hstop, hplace⟩ := Option.map_eq_some_iff.1 (h.stop hi)
      rw [bound, hstop]
      exact hplace
  have hsucc : ∀ i (hi : i < runs.length), raw.bound (i + 1) = raw.bound i + runs[i].length := by
    intro i hi
    rw [hbound (i + 1) hi, hbound i (Nat.le_of_lt hi), Links.length_flatten_take_succ runs i hi,
      Nat.add_assoc]
  refine ⟨hlen ▸ h.length_runs_le, ?_, ?_, ?_⟩
  · intro i hi
    rw [hsucc i (hlen ▸ hi)]
    exact Nat.le_add_right _ _
  · rw [← hlen, hbound _ (Nat.le_refl _), List.take_length, h.length]
  · intro i hi
    have hi' : i < runs.length := hlen ▸ hi
    have hrun : raw.run i = runs[i] := by
      rw [run, hsucc i hi', hbound i (Nat.le_of_lt hi'), List.drop_take, Nat.add_sub_cancel_left,
        ← List.drop_drop, h.indexes, Links.flatten_eq_append runs i hi', List.drop_left,
        List.take_left]
    rw [hrun]
    exact hindexes _ (List.getElem_mem hi')

theorem safe_ofParts (keys : List α) (txnIds : List TxnId) (links : List UInt32) :
    Halt.Safe (ofParts keys txnIds links) fun raw =>
      raw = ⟨keys, txnIds, links⟩ ∧ raw.Partitioned := by
  have hsafe := Links.safe_checkShape keys.length txnIds.length links
  rw [ofParts]
  cases hshape : Links.checkShape keys.length txnIds.length links with
  | error halt =>
    rw [hshape] at hsafe
    cases halt <;> exact hsafe
  | ok _ =>
    obtain ⟨runs, hlen, hholds, hindexes⟩ := hsafe.of_ok hshape
    exact ⟨rfl, partitioned_of_holds hlen hholds hindexes⟩

theorem Partitioned.ofParts_eq_ok (h : raw.Partitioned) :
    ofParts raw.keys raw.txnIds raw.links = .ok raw := by
  have hindexes : ∀ run ∈ (List.range raw.keys.length).map raw.run, ∀ index ∈ run,
      index.toNat < raw.txnIds.length := by
    intro run hrun
    obtain ⟨i, hi, rfl⟩ := List.mem_map.1 hrun
    exact h.indexes i (List.mem_range.1 hi)
  have hshape := Links.checkShape_of_holds h.holds hindexes
  rw [List.length_map, List.length_range] at hshape
  rw [ofParts, hshape]

theorem lt_length_of_mem_zipIdx {place : α × Nat} (h : place ∈ raw.keys.zipIdx) :
    place.2 < raw.keys.length := by
  simpa using List.snd_lt_of_mem_zipIdx h

theorem fetchStart_eq_ok {i : Nat} (hi : i < raw.links.length) :
    raw.fetchStart i = .ok (raw.bound i) := by
  cases i with
  | zero => rfl
  | succ i =>
    rw [fetchStart, if_neg (Nat.succ_ne_zero i), Nat.add_sub_cancel, fetchLink, bound,
      List.getElem?_eq_getElem (Nat.lt_of_succ_lt hi)]
    rfl

namespace Partitioned

theorem fetchRun_eq_ok (h : raw.Partitioned) {i : Nat} (hi : i < raw.keys.length) :
    raw.fetchRun i = .ok (raw.run i) := by
  have hplace : i < raw.links.length := Nat.lt_of_lt_of_le hi h.header
  have hslice := slice?_bounds (h.ordered i hi) (h.bound_le_length hi)
  rw [bound, List.getElem?_eq_getElem hplace] at hslice
  rw [fetchRun, fetchStart_eq_ok hplace, fetchLink, List.getElem?_eq_getElem hplace]
  change Halt.expect .slice (Links.slice? raw.links (raw.bound i) raw.links[i].toNat) = _
  exact Halt.expect_eq_ok_iff.2 hslice

theorem safe_fetchTxnsAt (h : raw.Partitioned) {i : Nat} (hi : i < raw.keys.length) :
    Halt.Safe (raw.fetchTxnsAt i) fun _ => True := by
  rw [fetchTxnsAt, h.fetchRun_eq_ok hi]
  refine (Halt.Safe.mapM (p := fun _ => True) fun index hindex => ?_).mono fun _ _ => trivial
  rw [fetchTxn, fetchTxnId, List.getElem?_eq_getElem (h.indexes i hi index hindex)]
  exact trivial

theorem safe_fetchTxnsOf [Ord α] (h : raw.Partitioned) (key : α) :
    Halt.Safe (raw.fetchTxnsOf key) fun _ => True := by
  rw [fetchTxnsOf]
  split
  · next i hi => exact h.safe_fetchTxnsAt (lt_length_of_bisect? hi)
  · exact trivial

theorem safe_fetchEntries (h : raw.Partitioned) :
    Halt.Safe raw.fetchEntries fun _ => True := by
  refine (Halt.Safe.mapM (p := fun _ => True) fun place hplace => ?_).mono fun _ _ => trivial
  exact (h.safe_fetchTxnsAt (lt_length_of_mem_zipIdx hplace)).bind fun _ _ => trivial

theorem safe_fetchPairs (h : raw.Partitioned) : Halt.Safe raw.fetchPairs fun _ => True :=
  h.safe_fetchEntries.bind fun _ _ => trivial

theorem safe_fetchByTxn (h : raw.Partitioned) : Halt.Safe raw.fetchByTxn fun _ => True := by
  have hfound : Halt.Safe (raw.keys.zipIdx.foldlM (fun found (place : α × Nat) => do
      let run ← raw.fetchRun place.2
      run.foldlM (fileUnder place.1) found) (raw.txnIds.map fun _ => []))
      fun found => found.length = raw.txnIds.length := by
    refine Halt.Safe.foldlM (fun found hfound place hplace => ?_) (List.length_map _)
    rw [h.fetchRun_eq_ok (lt_length_of_mem_zipIdx hplace)]
    refine Halt.Safe.foldlM (fun found hfound index hindex => ?_) hfound
    have hlt := h.indexes _ (lt_length_of_mem_zipIdx hplace) index hindex
    rw [fileUnder, List.getElem?_eq_getElem (hfound.symm ▸ hlt)]
    exact (List.length_set ..).trans hfound
  exact hfound.bind fun _ _ => trivial

theorem safe_fetchKeysOf (h : raw.Partitioned) (txn : TxnId) :
    Halt.Safe (raw.fetchKeysOf txn) fun _ => True := by
  rw [fetchKeysOf]
  split
  · exact trivial
  · next index _ =>
    have hnamed : (raw.keys.zipIdx.filterM fun place => do
        let run ← raw.fetchRun place.2
        pure (bisect? run (UInt32.ofNat index)).isSome : Access (List (α × Nat))) =
        .ok (raw.keys.zipIdx.filter fun place =>
          (bisect? (raw.run place.2) (UInt32.ofNat index)).isSome) := by
      refine Halt.filterM_eq_ok fun place hplace => ?_
      rw [h.fetchRun_eq_ok (lt_length_of_mem_zipIdx hplace)]
      rfl
    exact Halt.Safe.bind (p := fun _ => True) (hnamed ▸ trivial) fun _ _ => trivial

end Partitioned

variable [Ord α]

structure Accessible (raw : RawGraph α) : Prop where
  keyAt : ∀ i (h : i < raw.keys.length), raw.fetchKey i = .ok raw.keys[i]
  txnIdAt : ∀ i (h : i < raw.txnIds.length), raw.fetchTxnId i = .ok raw.txnIds[i]
  linkAt : ∀ i (h : i < raw.links.length), raw.fetchLink i = .ok raw.links[i]
  size : raw.fetchSize = .ok (raw.links.length - raw.keys.length)
  txnsAt : ∀ i < raw.keys.length, ∃ txns, raw.fetchTxnsAt i = .ok txns
  txnsOf : ∀ key, ∃ txns, raw.fetchTxnsOf key = .ok txns
  entries : ∃ entries, raw.fetchEntries = .ok entries
  pairs : ∃ pairs, raw.fetchPairs = .ok pairs
  byTxn : ∃ byTxn, raw.fetchByTxn = .ok byTxn
  keysOf : ∀ txn, ∃ keys, raw.fetchKeysOf txn = .ok keys

theorem Partitioned.accessible (h : raw.Partitioned) : raw.Accessible := by
  have hanswers : ∀ {β : Type} {e : Access β}, Halt.Safe e (fun _ => True) → ∃ b, e = .ok b :=
    fun hsafe => hsafe.exists_eq_ok.imp fun _ hok => hok.1
  exact {
    keyAt := fun i hi => Halt.expect_eq_ok_iff.2 (List.getElem?_eq_getElem hi)
    txnIdAt := fun i hi => Halt.expect_eq_ok_iff.2 (List.getElem?_eq_getElem hi)
    linkAt := fun i hi => Halt.expect_eq_ok_iff.2 (List.getElem?_eq_getElem hi)
    size := Halt.minus_eq_ok h.header
    txnsAt := fun i hi => hanswers (h.safe_fetchTxnsAt hi)
    txnsOf := fun key => hanswers (h.safe_fetchTxnsOf key)
    entries := hanswers h.safe_fetchEntries
    pairs := hanswers h.safe_fetchPairs
    byTxn := hanswers h.safe_fetchByTxn
    keysOf := fun txn => hanswers (h.safe_fetchKeysOf txn) }

theorem ofParts_toList (keys : SortedList α) (txnIds : List TxnId) (links : List UInt32) :
    ofParts keys.toList txnIds links = (Graph.ofParts keys txnIds links).map Graph.raw := by
  have hsize : keys.toList.length = keys.size := rfl
  rw [ofParts, Graph.ofParts, hsize]
  cases Links.checkShape keys.size txnIds.length links <;> rfl

/-- Arrays are taken if the bounds cut what follows them into runs, and else they are a defect, and
the taking never traps. The keys need not be in order, and where they are it is the taking of a
graph. In arrays that are taken each run is a slice, the runs in the order of the keys make up what
follows the run ends, and no walk leaves the arrays. -/
theorem ofParts_partition (keys : List α) (txnIds : List TxnId) (links : List UInt32) :
    let raw : RawGraph α := ⟨keys, txnIds, links⟩
    (ofParts keys txnIds links = .ok raw ↔ raw.Partitioned) ∧
      (¬raw.Partitioned → ∃ defect, ofParts keys txnIds links = .error (.failed defect)) ∧
      (∀ sorted : SortedList α, sorted.toList = keys →
        ofParts keys txnIds links = (Graph.ofParts sorted txnIds links).map Graph.raw) ∧
      (raw.Partitioned →
        (∀ i < keys.length, raw.bound i ≤ raw.bound (i + 1) ∧
          raw.bound (i + 1) ≤ links.length ∧ raw.fetchRun i = .ok (raw.run i)) ∧
        ((List.range keys.length).map raw.run).flatten = links.drop keys.length ∧
        raw.Accessible) := by
  intro raw
  have hsafe := safe_ofParts keys txnIds links
  refine ⟨⟨fun hok => (hsafe.of_ok hok).2, fun h => h.ofParts_eq_ok⟩, ?_, ?_, fun h =>
    ⟨fun i hi => ⟨h.ordered i hi, h.bound_le_length hi, h.fetchRun_eq_ok hi⟩,
      h.flatten_all_runs, h.accessible⟩⟩
  · intro hno
    rcases hparts : ofParts keys txnIds links with (defect | trap) | built
    · exact ⟨defect, rfl⟩
    · rw [hparts] at hsafe
      exact absurd hsafe id
    · obtain ⟨rfl, h⟩ := hsafe.of_ok hparts
      exact absurd h hno
  · rintro sorted rfl
    exact ofParts_toList sorted txnIds links

/-- Two keys out of order, of which the second has an empty run. -/
theorem ofParts_partition_unsorted :
    let raw : RawGraph Nat := ⟨[2, 1], [⟨2, 0, 0, 0⟩, ⟨1, 0, 0, 0⟩], [4, 4, 1, 0]⟩
    ofParts raw.keys raw.txnIds raw.links = .ok raw ∧ raw.Partitioned ∧ raw.Accessible ∧
      [raw.run 0, raw.run 1] = [[1, 0], []] := by
  intro raw
  obtain ⟨htaken, -, -, haccess⟩ := ofParts_partition raw.keys raw.txnIds raw.links
  have hparts : ofParts raw.keys raw.txnIds raw.links = .ok raw := rfl
  have hpartitioned := htaken.1 hparts
  exact ⟨hparts, hpartitioned, (haccess hpartitioned).2.2, by decide⟩

end RawGraph

end TxnDeps
