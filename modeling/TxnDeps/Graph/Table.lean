import TxnDeps.Graph.Basic

namespace TxnDeps

open Std (TransOrd LawfulEqOrd)

variable {α : Type} [Ord α]

def SortedList.insertAll [TransOrd α] [LawfulEqOrd α] (s : SortedList α) (xs : List α) :
    SortedList α :=
  xs.foldl insert s

theorem SortedList.mem_insertAll [TransOrd α] [LawfulEqOrd α] {s : SortedList α} {xs : List α}
    {x : α} : x ∈ s.insertAll xs ↔ x ∈ xs ∨ x ∈ s := by
  rw [insertAll]
  induction xs generalizing s with
  | nil => simp
  | cons y ys ih =>
    have hinsert : x ∈ s.insert y ↔ x = y ∨ x ∈ s := mem_insertOrdered
    rw [List.foldl_cons, ih, hinsert, List.mem_cons, ← or_assoc, or_comm (a := x ∈ ys)]

/-- Adds transactions to the row of a key. Where there is none a row is made in its place. -/
def upsertRow (key : α) (txns : List TxnId) :
    List (α × SortedList TxnId) → List (α × SortedList TxnId)
  | [] => [(key, SortedList.empty.insertAll txns)]
  | (k, row) :: rows =>
    match compare key k with
    | .lt => (key, SortedList.empty.insertAll txns) :: (k, row) :: rows
    | .eq => (k, row.insertAll txns) :: rows
    | .gt => (k, row) :: upsertRow key txns rows

theorem map_fst_upsertRow (key : α) (txns : List TxnId) (rows : List (α × SortedList TxnId)) :
    (upsertRow key txns rows).map Prod.fst = insertOrdered key (rows.map Prod.fst) := by
  induction rows with
  | nil => rfl
  | cons row rows ih =>
    rw [upsertRow, List.map_cons, insertOrdered]
    cases compare key row.1 with
    | lt => rfl
    | eq => rfl
    | gt => exact congrArg (row.1 :: ·) ih

theorem ne_nil_of_mem_upsertRow {key : α} {txns : List TxnId} (htxns : txns ≠ [])
    {rows : List (α × SortedList TxnId)} (h : ∀ row ∈ rows, row.2.toList ≠ []) :
    ∀ row ∈ upsertRow key txns rows, row.2.toList ≠ [] := by
  have hadded (row : SortedList TxnId) : (row.insertAll txns).toList ≠ [] := by
    obtain ⟨txn, hmem⟩ := List.exists_mem_of_ne_nil txns htxns
    exact List.ne_nil_of_mem (SortedList.mem_insertAll.2 (.inl hmem))
  induction rows with
  | nil => simpa [upsertRow] using hadded .empty
  | cons row rows ih =>
    obtain ⟨hrow, hrows⟩ := List.forall_mem_cons.1 h
    rw [upsertRow]
    cases compare key row.1 with
    | lt => exact List.forall_mem_cons.2 ⟨hadded .empty, h⟩
    | eq => exact List.forall_mem_cons.2 ⟨hadded row.2, hrows⟩
    | gt => exact List.forall_mem_cons.2 ⟨hrow, ih hrows⟩

/-- The transactions recorded under each key. A key under which none is recorded has no row. -/
structure GraphTable (α : Type) [Ord α] where
  rows : List (α × SortedList TxnId)
  ascending : Ascending (rows.map Prod.fst)
  filled : ∀ row ∈ rows, row.2.toList ≠ []

namespace GraphTable

def empty : GraphTable α := ⟨[], SortedList.empty.ascending, List.forall_mem_nil _⟩

def keys (t : GraphTable α) : SortedList α := ⟨t.rows.map Prod.fst, t.ascending⟩

def keyCount (t : GraphTable α) : Nat := t.rows.length

def txnIds (t : GraphTable α) : SortedList TxnId := .ofList (t.rows.flatMap (·.2.toList))

def pairs (t : GraphTable α) : List (Association α) :=
  t.rows.flatMap fun (key, txns) => txns.toList.map fun txn => ⟨key, txn⟩

variable [TransOrd α] [LawfulEqOrd α]

def record (t : GraphTable α) (key : α) (txns : List TxnId) (h : txns ≠ []) : GraphTable α where
  rows := upsertRow key txns t.rows
  ascending := by
    rw [map_fst_upsertRow]
    exact ascending_insertOrdered key t.ascending
  filled := ne_nil_of_mem_upsertRow h t.filled

def add (t : GraphTable α) (key : α) (txn : TxnId) : GraphTable α :=
  t.record key [txn] (List.cons_ne_nil txn [])

/-- Before the row of the key is looked for, it is looked whether there is a first transaction. -/
def addAll (t : GraphTable α) (key : α) (txns : List TxnId) : GraphTable α :=
  if h : txns = [] then t else t.record key txns h

def ofPairs (pairs : List (Association α)) : GraphTable α :=
  pairs.foldl (fun t a => t.add a.key a.txn) .empty

def ofEntries (entries : List (α × List TxnId)) : GraphTable α :=
  entries.foldl (fun t entry => t.addAll entry.1 entry.2) .empty

end GraphTable

end TxnDeps
