import TxnDeps.Proofs.Deps.WellFormed
import TxnDeps.Proofs.MessagePack.Soundness
import TxnDeps.Proofs.Wire.Soundness

namespace TxnDeps

namespace Deps

def Names (d : Deps) (txn : TxnId) : Prop :=
  d.byKey.Names txn ∨ d.byRange.Names txn ∨ d.direct.Names txn

structure Tight (d : Deps) : Prop where
  byKey : d.byKey.Tight
  byRange : d.byRange.Tight
  direct : d.direct.Tight

variable {d : Deps}

theorem isEmpty_eq_true_iff :
    d.isEmpty = true ↔
      d.byKey.isEmpty = true ∧ d.byRange.isEmpty = true ∧ d.direct.isEmpty = true := by
  simp only [isEmpty, Bool.and_eq_true, and_assoc]

theorem not_names_of_isEmpty (h : d.isEmpty = true) (txn : TxnId) : ¬d.Names txn := by
  obtain ⟨hkey, hrange, hdirect⟩ := isEmpty_eq_true_iff.1 h
  rintro (hname | hname | hname)
  · exact Graph.not_names_of_isEmpty hkey txn hname
  · exact Graph.not_names_of_isEmpty hrange txn hname
  · exact Graph.not_names_of_isEmpty hdirect txn hname

theorem WellFormed.mem_txnIds_of_names (h : d.WellFormed) {txn : TxnId} (hname : d.Names txn) :
    txn ∈ d.txnIds :=
  mem_txnIds_iff.2 <| hname.imp h.byKey.mem_txnIds_of_names <|
    Or.imp h.byRange.mem_txnIds_of_names h.direct.mem_txnIds_of_names

theorem Tight.names_of_mem_txnIds (h : d.Tight) {txn : TxnId} (hmem : txn ∈ d.txnIds) :
    d.Names txn :=
  (mem_txnIds_iff.1 hmem).imp (h.byKey.txns txn) <|
    Or.imp (h.byRange.txns txn) (h.direct.txns txn)

theorem Tight.isEmpty_iff (h : d.Tight) : d.isEmpty = true ↔ ∀ txn, ¬d.Names txn := by
  rw [isEmpty_eq_true_iff, h.byKey.isEmpty_iff, h.byRange.isEmpty_iff, h.direct.isEmpty_iff]
  simp only [Names, not_or, forall_and]

structure Exact (d : Deps) : Prop where
  contains : ∀ txn, d.contains txn = true ↔ d.Names txn
  txnIds : ∀ txn, txn ∈ d.txnIds ↔ d.Names txn
  isEmpty : d.isEmpty = true ↔ ∀ txn, ¬d.Names txn

theorem Tight.exact (h : d.Tight) (hd : d.WellFormed) : d.Exact := by
  have htxns : ∀ txn, txn ∈ d.txnIds ↔ d.Names txn := fun _ =>
    ⟨h.names_of_mem_txnIds, hd.mem_txnIds_of_names⟩
  exact ⟨fun txn => hd.contains_iff.trans (htxns txn), htxns, h.isEmpty_iff⟩

theorem WellFormed.exact_merge_empty (h : d.WellFormed) : (merge [d, .empty]).Exact := by
  obtain ⟨hkey, hkeyTight⟩ := h.byKey.merge_empty
  obtain ⟨hrange, hrangeTight⟩ := h.byRange.merge_empty
  obtain ⟨hdirect, hdirectTight⟩ := h.direct.merge_empty
  exact Tight.exact ⟨hkeyTight, hrangeTight, hdirectTight⟩ ⟨hkey, hrange, hdirect⟩

theorem WellFormed.names_merge_empty_iff (h : d.WellFormed) {txn : TxnId} :
    (merge [d, .empty]).Names txn ↔ d.Names txn :=
  or_congr h.byKey.names_merge_empty_iff
    (or_congr h.byRange.names_merge_empty_iff h.direct.names_merge_empty_iff)

theorem WellFormed.txnIds_merge_empty_iff (h : d.WellFormed) :
    (merge [d, .empty]).txnIds = d.txnIds ↔ ∀ txn ∈ d.txnIds, d.Names txn := by
  have hmem : ∀ txn, txn ∈ (merge [d, .empty]).txnIds ↔ d.Names txn := fun txn =>
    (h.exact_merge_empty.txnIds txn).trans h.names_merge_empty_iff
  constructor
  · intro he txn htxn
    exact (hmem txn).1 (he ▸ htxn)
  · intro hnames
    apply (ascending_sortDistinct _).eq_of_mem_iff (ascending_sortDistinct _)
    intro txn
    exact (hmem txn).trans ⟨h.mem_txnIds_of_names, hnames txn⟩

/-- One of the readers has answered the dependencies, wherever it stood in whatever bytes. -/
inductive Received (d : Deps) : Prop where
  | wire (c : DepsCodec) (superset? : Option RoutingKeys) (v : WireVersion) (cursor : Cursor)
    (h : ((WireForm.decode c superset? v).run cursor).1 = .ok d)
  | record (level : Nat) (bytes : Bytes) (h : ((unpack level).run bytes).1 = .ok d)

theorem Received.wellFormed (h : d.Received) : d.WellFormed := by
  cases h with
  | wire c superset? v cursor h =>
    have hsafe := c.safe_checked (c.safe_readDeps superset? v) v cursor
    have hsound := hsafe.of_ok h
    exact ⟨hsound.byKey.wellFormed, hsound.byRange.wellFormed, hsound.direct.wellFormed⟩
  | record level bytes h => exact ((Packed.checked_deps level bytes).of_ok h).1

/-- Received dependencies list all transactions of their keys and ranges, and maybe others: these
are the ones that are lost when they are put together with no dependencies. -/
theorem Received.names_listed (h : d.Received) :
    (∀ txn, (d.contains txn = true ↔ txn ∈ d.txnIds) ∧
      (d.Names txn → d.contains txn = true) ∧ (d.isEmpty = true → ¬d.Names txn)) ∧
    (merge [d, .empty]).Exact ∧
    (∀ txn, (merge [d, .empty]).Names txn ↔ d.Names txn) ∧
    ((merge [d, .empty]).txnIds = d.txnIds ↔ ∀ txn, d.contains txn = true → d.Names txn) := by
  have hd := h.wellFormed
  refine ⟨fun txn => ⟨hd.contains_iff, ?_, ?_⟩, hd.exact_merge_empty, ?_, ?_⟩
  · exact fun hname => hd.contains_iff.2 (hd.mem_txnIds_of_names hname)
  · exact fun hempty => not_names_of_isEmpty hempty txn
  · exact fun txn => hd.names_merge_empty_iff
  · rw [hd.txnIds_merge_empty_iff]
    simp only [hd.contains_iff]

/-- The one key has no run, so that no run has the transaction. -/
def idleDeps : Deps :=
  ⟨⟨.ofList [.token (.ofNat 7) 5], [⟨1, 1, 0, 1⟩], [1]⟩, .empty, .empty⟩

def idleBytes : Bytes :=
  [1] ++ List.replicate 15 0 ++ [7, 1] ++ List.replicate 7 0 ++ [5] ++
    [1, 1, 1, 0, 1, 1, 1] ++ [0, 0, 0] ++ [1, 1, 0, 0]

def idleRecord : Bytes :=
  [0x93, 0x93, 0x91, 0x92, 0xc4, 16] ++ List.replicate 15 0 ++ [7] ++
    [0x81, 0xa5, 84, 111, 107, 101, 110, 5] ++ [0x91, 0x94, 1, 1, 0, 1, 0x91, 1] ++
    [0x93, 0x90, 0x90, 0x90] ++ [0x93, 0x90, 0x90, 0x90]

theorem not_names_idleDeps (txn : TxnId) : ¬idleDeps.Names txn := by
  rintro (⟨key, hmem⟩ | ⟨key, hmem⟩ | ⟨key, hmem⟩) <;> cases hmem

/-- Both readers answer the dependencies, which contain a transaction but name none. -/
theorem decode_idle :
    (WireForm.decode .default none .v2).run (.start idleBytes) = (.ok idleDeps, ⟨[], 40⟩) ∧
      Packed.ofBytes idleRecord = .ok idleDeps ∧
      idleDeps.contains ⟨1, 1, 0, 1⟩ = true ∧ idleDeps.txnIds = [⟨1, 1, 0, 1⟩] ∧
      idleDeps.isEmpty = false ∧ (∀ txn, ¬idleDeps.Names txn) ∧
      (merge [idleDeps, .empty]).txnIds = [] :=
  ⟨rfl, rfl, rfl, rfl, rfl, not_names_idleDeps, rfl⟩

theorem names_listed_idle :
    idleDeps.Received ∧
    (∀ txn, (idleDeps.contains txn = true ↔ txn ∈ idleDeps.txnIds) ∧
      (idleDeps.Names txn → idleDeps.contains txn = true) ∧
      (idleDeps.isEmpty = true → ¬idleDeps.Names txn)) ∧
    (merge [idleDeps, .empty]).Exact ∧
    (∀ txn, (merge [idleDeps, .empty]).Names txn ↔ idleDeps.Names txn) ∧
    ((merge [idleDeps, .empty]).txnIds = idleDeps.txnIds ↔
      ∀ txn, idleDeps.contains txn = true → idleDeps.Names txn) := by
  have h : idleDeps.Received := .wire .default none .v2 (.start idleBytes) rfl
  exact ⟨h, h.names_listed⟩

end Deps

end TxnDeps
