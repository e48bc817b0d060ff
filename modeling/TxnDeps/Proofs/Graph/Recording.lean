import TxnDeps.Key
import TxnDeps.Proofs.Graph.Assembly
import TxnDeps.Proofs.Graph.Unique
import TxnDeps.Proofs.Sorted.Inclusion

namespace TxnDeps

open Std (TransOrd LawfulEqOrd)

variable {α : Type}

inductive Recording (α : Type) where
  | one (key : α) (txn : TxnId)
  | several (key : α) (txns : List TxnId)

namespace Recording

def associations : Recording α → List (Association α)
  | one key txn => [⟨key, txn⟩]
  | several key txns => txns.map fun txn => ⟨key, txn⟩

def recorded (calls : List (Recording α)) : Set (Association α) :=
  {a | ∃ call ∈ calls, a ∈ call.associations}

def recordedKeys (calls : List (Recording α)) : Set α :=
  {key | ∃ txn, ⟨key, txn⟩ ∈ recorded calls}

theorem mem_recorded_cons {call : Recording α} {calls : List (Recording α)} {a : Association α} :
    a ∈ recorded (call :: calls) ↔ a ∈ call.associations ∨ a ∈ recorded calls := by
  simp [recorded]

end Recording

open Recording (recorded recordedKeys)

variable [Ord α] [TransOrd α] [LawfulEqOrd α]

namespace GraphBuilder

def record (b : GraphBuilder α) : Recording α → GraphBuilder α
  | .one key txn => b.add key txn
  | .several key txns => b.addAll key txns

def recordAll (calls : List (Recording α)) : GraphBuilder α := calls.foldl record .empty

variable {b : GraphBuilder α} {a : Association α}

theorem mem_add {key : α} {txn : TxnId} : a ∈ b.add key txn ↔ a = ⟨key, txn⟩ ∨ a ∈ b :=
  SortedList.mem_insert

theorem mem_addAll {key : α} {txns : List TxnId} :
    a ∈ b.addAll key txns ↔ (∃ txn ∈ txns, ⟨key, txn⟩ = a) ∨ a ∈ b := by
  rw [addAll]
  induction txns generalizing b with
  | nil => simp
  | cons txn txns ih =>
    rw [List.foldl_cons, ih, mem_add]
    simp only [List.exists_mem_cons_iff, eq_comm (a := a), or_left_comm, or_assoc]

theorem mem_record {call : Recording α} : a ∈ b.record call ↔ a ∈ call.associations ∨ a ∈ b := by
  cases call with
  | one key txn => simp [record, mem_add, Recording.associations]
  | several key txns => simp [record, mem_addAll, Recording.associations]

theorem mem_foldl_record {calls : List (Recording α)} :
    a ∈ calls.foldl record b ↔ a ∈ recorded calls ∨ a ∈ b := by
  induction calls generalizing b with
  | nil => simp [recorded]
  | cons call calls ih =>
    rw [List.foldl_cons, ih, mem_record, Recording.mem_recorded_cons, or_assoc]
    exact or_left_comm

theorem mem_recordAll {calls : List (Recording α)} : a ∈ recordAll calls ↔ a ∈ recorded calls :=
  mem_foldl_record.trans (or_iff_left List.not_mem_nil)

theorem size_recordAll (calls : List (Recording α)) :
    SortedList.size (recordAll calls) = (recorded calls).ncard := by
  rw [SortedList.size_eq_ncard]
  congr 1
  ext a
  exact mem_recordAll

theorem size_keys_recordAll (calls : List (Recording α)) :
    (recordAll calls).keys.size = (recordedKeys calls).ncard := by
  rw [SortedList.size_eq_ncard]
  congr 1
  ext key
  exact mem_keys.trans (exists_congr fun _ => mem_recordAll)

theorem fits_recordAll {calls : List (Recording α)}
    (h : (recordedKeys calls).ncard + (recorded calls).ncard < 2 ^ 32) :
    (recordAll calls).Fits := by
  rw [Fits, size_keys_recordAll, size_recordAll]
  exact h

theorem recordAll_congr {calls calls' : List (Recording α)} (h : recorded calls = recorded calls') :
    recordAll calls = recordAll calls' :=
  SortedList.ext_mem fun a => by rw [mem_recordAll, mem_recordAll, h]

end GraphBuilder

namespace GraphTable

def enter (t : GraphTable α) : Recording α → GraphTable α
  | .one key txn => t.add key txn
  | .several key txns => t.addAll key txns

def enterAll (calls : List (Recording α)) : GraphTable α := calls.foldl enter .empty

theorem recorded_enter (t : GraphTable α) (call : Recording α) :
    (t.enter call).recorded = t.recorded.record call := by
  apply SortedList.ext_mem
  rintro ⟨k, x⟩
  rw [GraphBuilder.mem_record]
  cases call with
  | one key txn => simp [enter, mem_recorded_add, Recording.associations]
  | several key txns =>
    simp [enter, mem_recorded_addAll, Recording.associations, and_comm, eq_comm]

/-- The rows and the set of associations go through the calls together. -/
theorem recorded_enterAll (calls : List (Recording α)) :
    (enterAll calls).recorded = GraphBuilder.recordAll calls := by
  have hfold : ∀ t : GraphTable α,
      (calls.foldl enter t).recorded = calls.foldl GraphBuilder.record t.recorded := by
    induction calls with
    | nil => exact fun _ => rfl
    | cons call calls ih =>
      intro t
      rw [List.foldl_cons, List.foldl_cons, ih, recorded_enter]
  exact hfold .empty

end GraphTable

namespace GraphBuilder

/-- Calls whose keys and associations the links can count build the graph of what they record, in
canonical form. It is filled in without a trap, it lists each association once and in order, and no
other graph in canonical form has the same associations. -/
theorem build_canonical (calls : List (Recording α))
    (h : (recordedKeys calls).ncard + (recorded calls).ncard < 2 ^ 32) :
    let t := GraphTable.enterAll calls
    let g := (recordAll calls).build
    t.recorded = recordAll calls ∧ t.assemble = .ok g ∧ g.Canonical ∧
      g.fetchPairs = .ok g.pairs ∧ Ascending g.pairs ∧ (∀ a, a ∈ g.pairs ↔ a ∈ recorded calls) ∧
      (∀ done, done <+: calls → (recordAll done).keys.size = (recordedKeys done).ncard ∧
        (GraphTable.enterAll done).keyCount = (recordedKeys done).ncard) ∧
      (∀ calls', recorded calls' = recorded calls → (recordAll calls').build = g) ∧
      ∀ g g' : Graph α, g.Canonical → g'.Canonical →
        (g = g' ↔ ∀ a, a ∈ g.pairs ↔ a ∈ g'.pairs) := by
  intro t g
  have htable : t.recorded = recordAll calls := GraphTable.recorded_enterAll calls
  have hassemble : t.assemble = .ok g := by
    rw [GraphTable.assemble_eq_ok, htable]
  have hfits : (recordAll calls).Fits := fits_recordAll h
  have hcanonical : g.Canonical := canonical_build hfits
  have hpairs : g.pairs = (recordAll calls).toList := pairs_build hfits
  refine ⟨htable, hassemble, hcanonical, hcanonical.wellFormed.fetchPairs_eq_ok, ?_, fun a => ?_,
    fun done _ => ⟨size_keys_recordAll done, ?_⟩, fun calls' hsame => ?_,
    fun _ _ hg hg' => hg.eq_iff hg'⟩
  · rw [hpairs]
    exact SortedList.ascending _
  · rw [hpairs]
    exact mem_recordAll
  · rw [GraphTable.keyCount_eq, GraphTable.recorded_enterAll, size_keys_recordAll]
  · rw [recordAll_congr hsame]

/-- Two keys, one of them in two calls that record a transaction twice, and a key under which
nothing is recorded. -/
theorem build_canonical_sample :
    let key := RoutingKey.token (.ofNat 7)
    let early : TxnId := ⟨1, 10, 0, 1⟩
    let late : TxnId := ⟨1, 20, 0, 1⟩
    let calls : List (Recording RoutingKey) :=
      [.several (key 5) [late, early], .several (key 3) [], .one (key 1) late, .one (key 5) early]
    let t := GraphTable.enterAll calls
    let g := (recordAll calls).build
    (recordedKeys calls).ncard + (recorded calls).ncard < 2 ^ 32 ∧
      g = ⟨.ofList [key 1, key 5], [early, late], [3, 5, 1, 0, 1]⟩ ∧ g.Canonical ∧
      t.assemble = .ok g ∧ t.keyCount = 2 ∧ ⟨key 5, early⟩ ∈ recorded calls ∧
      (recordAll calls.reverse).build = g := by
  intro key early late calls t g
  have hsize : (recordedKeys calls).ncard + (recorded calls).ncard < 2 ^ 32 := by
    rw [← size_keys_recordAll, ← size_recordAll]
    decide
  have hsame : recorded calls.reverse = recorded calls := by
    ext a
    simp [recorded]
  obtain ⟨-, hassemble, hcanonical, -, -, hpairs, -, hbuild, -⟩ := build_canonical calls hsize
  exact ⟨hsize, by decide, hcanonical, hassemble, by decide, (hpairs _).1 (by decide),
    hbuild _ hsame⟩

end GraphBuilder

end TxnDeps
