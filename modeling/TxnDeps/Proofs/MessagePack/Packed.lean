import TxnDeps.Command.Record
import TxnDeps.Proofs.Deps.WellFormed
import TxnDeps.Proofs.MessagePack.Head
import TxnDeps.Proofs.Range.Union

namespace TxnDeps

open Bytes (capacity)
open MessagePack
open Step (Reads ReadsIf Refuses)

namespace MessagePack

variable {α : Type}

theorem reads_record {fields : List (String × ((level : Nat) → Unpacker Unit))}
    {build : Row → Unpacker α} {level n : Nat} {bytes : Bytes} {a : α} (hn : n < capacity 4)
    (h : Reads (build (.inOrder (level + 1) n)) bytes a) :
    Reads (record fields build level) (arrayHead n ++ bytes) a :=
  (reads_arrayHead hn).bind h

theorem reads_field {level n i : Nat} {value : (level : Nat) → Unpacker α} {bytes : Bytes} {a : α}
    (hi : i < n) (h : Reads (value level) bytes a) :
    Reads ((Row.inOrder level n).field i value) bytes a := by
  rw [Row.field, if_pos hi]
  exact h

theorem reads_optionalField {level n i : Nat} {value : (level : Nat) → Unpacker α} {bytes : Bytes}
    {a? : Option α} (hi : i < n) (h : Reads (optional (value level)) bytes a?) :
    Reads ((Row.inOrder level n).optionalField i value) bytes a? := by
  have hfield : Reads ((Row.inOrder level n).field i fun level => optional (value level))
      bytes a? := reads_field hi h
  exact hfield

theorem reads_close {level n : Nat} : Reads ((Row.inOrder level n).close n) [] () := by
  rw [Row.close, if_pos rfl]
  exact Reads.pure ()

theorem reads_named {names : List String} {name : String} {i : Nat}
    (hi : (names.findIdx? fun other => utf8 other == utf8 name) = some i) :
    Reads (named names (.text (utf8 name).length)) (utf8 name) (some i) := by
  apply (reads_take (utf8 name)).last
  rw [hi]
  exact Reads.pure (some i)

theorem reads_case_bare {names : List String} {name : String} {i : Nat}
    (hname : (utf8 name).length < capacity 4)
    (hi : (names.findIdx? fun other => utf8 other == utf8 name) = some i) :
    Reads (case names) (text name) (i, false) := by
  rw [case]
  apply (reads_textHead hname).bind
  apply (Reads.pure (Head.text (utf8 name).length, false)).bind
  apply (reads_named hi).last
  exact Reads.pure (i, false)

theorem reads_case_valued {names : List String} {name : String} {i : Nat}
    (hname : (utf8 name).length < capacity 4)
    (hi : (names.findIdx? fun other => utf8 other == utf8 name) = some i) :
    Reads (case names) (0x81 :: text name) (i, true) := by
  have hmap : Reads head [0x81] (.map 1) := reads_head_of_short rfl
  rw [case]
  apply hmap.bind
  apply ((reads_textHead hname).map fun h => (h, true)).bind
  apply (reads_named hi).last
  exact Reads.pure (i, true)

end MessagePack

namespace Packed

variable {α : Type}

/-- At each level of nesting the value is read back from its bytes. -/
def ReadsBack [Packed α] (a : α) : Prop := ∀ level, Reads (unpack level) (pack a) a

def IsThere (bytes : Bytes) : Prop := ∃ tag rest, bytes = tag :: rest ∧ tag ≠ 0xc0

theorem isThere_array {items : List Bytes} (h : items.length < 16) : IsThere (array items) := by
  refine ⟨UInt8.ofNat (0x90 + items.length), items.flatten, ?_, fun he => ?_⟩
  · rw [array, arrayHead, if_pos h]
    rfl
  · have hn := congrArg UInt8.toNat he
    have htag : (UInt8.ofNat (0x90 + items.length)).toNat = 0x90 + items.length :=
      Nat.mod_eq_of_lt (by omega)
    rw [htag] at hn
    have hn' : 0x90 + items.length = 0xc0 := hn
    omega

theorem reads_optional [Packed α] {a? : Option α} {level : Nat}
    (h : ∀ a ∈ a?, ReadsBack a ∧ IsThere (pack a)) :
    Reads (optional (unpack level)) (pack a?) a? := by
  cases a? with
  | none => exact reads_optional_none
  | some a =>
    obtain ⟨hback, tag, rest, hbytes, htag⟩ := h a rfl
    have hread := hback level
    change Reads (optional (unpack level)) (pack a) (some a)
    rw [hbytes] at hread ⊢
    exact reads_optional_some htag hread

theorem readsBack_uint16 (n : UInt16) : ReadsBack n := by
  intro level
  have h := (reads_below n.toNat_lt (by decide : capacity 2 ≤ capacity 8)).map UInt16.ofNat
  rw [UInt16.ofNat_toNat] at h
  exact h

theorem readsBack_uint32 (n : UInt32) : ReadsBack n := by
  intro level
  have h := (reads_below n.toNat_lt (by decide : capacity 4 ≤ capacity 8)).map UInt32.ofNat
  rw [UInt32.ofNat_toNat] at h
  exact h

theorem readsBack_uint64 (n : UInt64) : ReadsBack n := by
  intro level
  have h := (reads_below n.toNat_lt (Nat.le_refl (capacity 8))).map UInt64.ofNat
  rw [UInt64.ofNat_toNat] at h
  exact h

theorem readsBack_list [Packed α] {xs : List α} (hlen : xs.length < 2 ^ 32)
    (h : ∀ x ∈ xs, ReadsBack x) : ReadsBack xs := by
  intro level
  have hhead : Reads head (arrayHead (xs.map pack).length) (.array xs.length) := by
    rw [List.length_map]
    exact reads_arrayHead hlen
  exact hhead.bind (Reads.times fun x hx => h x hx (level + 1))

theorem readsBack_sortedList [Ord α] [Std.TransOrd α] [Packed α] {s : SortedList α}
    (hlen : s.size < 2 ^ 32) (h : ∀ x ∈ s, ReadsBack x) : ReadsBack s := by
  intro level
  apply (readsBack_list hlen h level).last
  rw [SortedList.ofAscending?_eq_some_iff.2 rfl]
  exact Reads.pure s

theorem refuses_sortedList [Ord α] [Std.TransOrd α] [Packed α] {xs : List α}
    (hlen : xs.length < 2 ^ 32) (h : ∀ x ∈ xs, ReadsBack x) (horder : ¬Ascending xs)
    (level : Nat) : Refuses (unpack level : Unpacker (SortedList α)) (pack xs) := by
  apply Refuses.last (readsBack_list hlen h level)
  rw [SortedList.ofAscending?_eq_none_iff.2 horder]
  exact Refuses.fail _ []

theorem readsBack_txnId (t : TxnId) : ReadsBack t := by
  intro level
  apply reads_record (n := 4) (by decide)
  apply (reads_field (by decide) (readsBack_uint64 t.epoch _)).bind
  apply (reads_field (by decide) (readsBack_uint64 t.clock _)).bind
  apply (reads_field (by decide) (readsBack_uint16 t.flags _)).bind
  apply (reads_field (by decide) (readsBack_uint32 t.node _)).bind
  exact reads_close.last (Reads.pure t)

theorem readsBack_ballot (b : Ballot) : ReadsBack b := by
  intro level
  apply reads_record (n := 2) (by decide)
  apply (reads_field (by decide) (readsBack_uint64 b.counter _)).bind
  apply (reads_field (by decide) (readsBack_uint32 b.node _)).bind
  exact reads_close.last (Reads.pure b)

theorem readsBack_tableId (t : TableId) : ReadsBack t := by
  intro level
  have hlen : t.bytes.length = 16 := Bytes.length_bigEndian 16 _
  have hshort : t.bytes.length < capacity 4 := by
    rw [hlen]
    decide
  apply (reads_blob hshort).last
  rw [if_pos hlen, TableId.ofBytes_bytes]
  exact Reads.pure t

theorem readsBack_keyKind (k : KeyKind) : ReadsBack k := by
  intro level
  cases k with
  | min =>
    have hcase : Reads (case ["MinSentinel", "Token", "MaxSentinel"]) (text "MinSentinel")
        (0, false) := reads_case_bare (by decide) (by decide)
    exact hcase.last (Reads.pure KeyKind.min)
  | token v =>
    have hcase : Reads (case ["MinSentinel", "Token", "MaxSentinel"]) (0x81 :: text "Token")
        (1, true) := reads_case_valued (by decide) (by decide)
    exact hcase.bind ((reads_int64 v).map KeyKind.token)
  | max =>
    have hcase : Reads (case ["MinSentinel", "Token", "MaxSentinel"]) (text "MaxSentinel")
        (2, false) := reads_case_bare (by decide) (by decide)
    exact hcase.last (Reads.pure KeyKind.max)

theorem readsBack_routingKey (k : RoutingKey) : ReadsBack k := by
  intro level
  apply reads_record (n := 2) (by decide)
  apply (reads_field (by decide) (readsBack_tableId k.table _)).bind
  apply (reads_field (by decide) (readsBack_keyKind k.kind _)).bind
  exact reads_close.last (Reads.pure k)

theorem readsBack_tokenRange {r : TokenRange} (h : r.SingleTable) : ReadsBack r := by
  intro level
  have hcreate : TokenRange.create r.start r.stop = .ok r := if_pos h
  have hends : Reads (record [("start", probe RoutingKey), ("end", probe RoutingKey)]
      (fun row => do
        let start ← row.field 0 unpack
        let stop ← row.field 1 unpack
        row.close 2
        pure (start, stop)) level) (pack r) (r.start, r.stop) := by
    apply reads_record (n := 2) (by decide)
    apply (reads_field (by decide) (readsBack_routingKey r.start _)).bind
    apply (reads_field (by decide) (readsBack_routingKey r.stop _)).bind
    exact reads_close.last (Reads.pure (r.start, r.stop))
  apply hends.last
  simp only [hcreate]
  exact Reads.pure r

theorem readsBack_saveStatus (s : SaveStatus) : ReadsBack s := by
  intro level
  have hcase : Reads (case (SaveStatus.all.map (·.name))) (text s.name) (s.rank, false) :=
    reads_case_bare (by cases s <;> decide) (by cases s <;> decide)
  apply hcase.last
  cases s <;> exact Reads.pure _

end Packed

/-- The graph is well-formed, and its transactions can be counted. So can its keys and links. -/
structure Graph.Recordable {α : Type} [Ord α] (g : Graph α) : Prop where
  wellFormed : g.WellFormed
  txns : g.txnIds.length < 2 ^ 32

structure Deps.Recordable (d : Deps) : Prop where
  byKey : d.byKey.Recordable
  byRange : d.byRange.Recordable
  direct : d.direct.Recordable
  ranges : ∀ r ∈ d.byRange.keys, r.SingleTable

structure PartialDeps.Recordable (p : PartialDeps) : Prop where
  deps : p.deps.Recordable
  covering : p.covering.size < 2 ^ 32
  ranges : ∀ r ∈ p.covering.rangeSet, r.SingleTable

def Command.Recordable (c : Command) : Prop := ∀ deps ∈ c.deps, deps.Recordable

structure CommandUpdate.Recordable (u : CommandUpdate) : Prop where
  before : ∀ c ∈ u.before, c.Recordable
  after : ∀ c ∈ u.after, c.Recordable

theorem Command.recordable_uninitialised (txn : TxnId) : (uninitialised txn).Recordable := nofun

namespace Packed

variable {α : Type} [Ord α] [Std.TransOrd α] [Packed α]

/-- Arrays that can be counted are read if they are those of a well-formed graph. -/
theorem readsIf_graph {g : Graph α} (hkeys : g.keys.size < 2 ^ 32)
    (htxns : g.txnIds.length < 2 ^ 32) (hlinks : g.links.length < 2 ^ 32)
    (h : ∀ key ∈ g.keys, ReadsBack key) (level : Nat) :
    ReadsIf g.WellFormed (unpack level) (pack g) g := by
  have hparts : Reads (record [("keys", probe (SortedList α)), ("txn_ids", probe (List TxnId)),
        ("keys_to_txn_ids", probe (List UInt32))]
      (fun row => do
        let keys ← row.field 0 (unpack (α := SortedList α))
        let txnIds ← row.field 1 unpack
        let links ← row.field 2 unpack
        row.close 3
        pure (keys, txnIds, links)) level) (pack g) (g.keys, g.txnIds, g.links) := by
    apply reads_record (n := 3) (by decide)
    apply (reads_field (by decide) (readsBack_sortedList hkeys h _)).bind
    refine (reads_field (by decide)
      (readsBack_list htxns (fun t _ => readsBack_txnId t) _)).bind ?_
    refine (reads_field (by decide)
      (readsBack_list hlinks (fun link _ => readsBack_uint32 link) _)).bind ?_
    exact reads_close.last (Reads.pure (g.keys, g.txnIds, g.links))
  apply hparts.check
  have hsafe := Graph.safe_ofOrderedParts g.keys g.txnIds g.links
  rcases hcheck : Graph.ofOrderedParts g.keys g.txnIds g.links with (defect | _) | built
  · have hno : ¬g.WellFormed := by
      intro hwell
      rw [hwell.ofOrderedParts_eq_ok] at hcheck
      cases hcheck
    have hrefuses : Refuses (Step.fail (.failed (.graph defect)) : Unpacker (Graph α)) [] :=
      Refuses.fail _ []
    simp only [hcheck]
    exact ⟨fun hwell => absurd hwell hno, fun _ => hrefuses⟩
  · rw [hcheck] at hsafe
    exact absurd hsafe id
  · obtain ⟨hwell, rfl⟩ := hsafe.of_ok hcheck
    simp only [hcheck]
    exact (Reads.pure g).readsIf.of_iff (iff_of_true trivial hwell)

/-- Keys out of order are refused before the other arrays are looked at. -/
theorem refuses_graph {keys : List α} (hlen : keys.length < 2 ^ 32)
    (h : ∀ key ∈ keys, ReadsBack key) (horder : ¬Ascending keys) (others : List Bytes)
    (hothers : others.length = 2) (level : Nat) :
    Refuses (unpack level : Unpacker (Graph α)) (array (pack keys :: others)) := by
  have hthree : arrayHead (pack keys :: others).length = arrayHead 3 := by
    rw [List.length_cons, hothers]
  have hfield : Refuses ((Row.inOrder (level + 1) 3).field 0 (unpack (α := SortedList α)))
      (pack keys) := refuses_sortedList hlen h horder (level + 1)
  rw [array, hthree]
  refine Refuses.bind (Refuses.after (reads_arrayHead (by decide)) ?_) _
  exact (hfield.append _).bind _

theorem readsBack_graph {g : Graph α} (hg : g.Recordable) (h : ∀ key ∈ g.keys, ReadsBack key) :
    ReadsBack g := by
  intro level
  obtain ⟨runs, hruns, -⟩ := hg.wellFormed.runs
  have hlinks : g.links.length < 2 ^ 32 := hruns.holds.length_lt
  have hkeys : g.keys.size < 2 ^ 32 := Nat.lt_of_le_of_lt hg.wellFormed.size_keys_le hlinks
  exact (readsIf_graph hkeys hg.txns hlinks h level).reads hg.wellFormed

theorem readsBack_deps {d : Deps} (h : d.Recordable) : ReadsBack d := by
  intro level
  have hkey := readsBack_graph h.byKey fun k _ => readsBack_routingKey k
  have hrange := readsBack_graph h.byRange fun r hr => readsBack_tokenRange (h.ranges r hr)
  have hdirect := readsBack_graph h.direct fun k _ => readsBack_routingKey k
  apply reads_record (n := 3) (by decide)
  apply (reads_field (by decide) (hkey _)).bind
  apply (reads_field (by decide) (hrange _)).bind
  apply (reads_field (by decide) (hdirect _)).bind
  exact reads_close.last (Reads.pure d)

theorem readsBack_participants {p : Participants} (hsize : p.size < 2 ^ 32)
    (h : ∀ r ∈ p.rangeSet, r.SingleTable) : ReadsBack p := by
  intro level
  cases p with
  | keys ks =>
    have hcase : Reads (case ["Keys", "Ranges"]) (0x81 :: text "Keys") (0, true) :=
      reads_case_valued (by decide) (by decide)
    have hkeys := readsBack_sortedList hsize fun k _ => readsBack_routingKey k
    exact hcase.bind ((hkeys level).map Participants.keys)
  | ranges rs =>
    have hcase : Reads (case ["Keys", "Ranges"]) (0x81 :: text "Ranges") (1, true) :=
      reads_case_valued (by decide) (by decide)
    have hranges := readsBack_sortedList hsize fun r hr => readsBack_tokenRange (h r hr)
    exact hcase.bind ((hranges level).map Participants.ranges)

theorem readsBack_partialDeps {p : PartialDeps} (h : p.Recordable) : ReadsBack p := by
  intro level
  apply reads_record (n := 2) (by decide)
  apply (reads_field (by decide) (readsBack_participants h.covering h.ranges _)).bind
  apply (reads_field (by decide) (readsBack_deps h.deps _)).bind
  exact reads_close.last (Reads.pure p)

theorem readsBack_command {c : Command} (h : c.Recordable) : ReadsBack c := by
  intro level
  have htime : ∀ t ∈ c.executeAt, ReadsBack t ∧ IsThere (pack t) :=
    fun t _ => ⟨readsBack_txnId t, isThere_array (by simp)⟩
  have hdeps : ∀ p ∈ c.deps, ReadsBack p ∧ IsThere (pack p) :=
    fun p hp => ⟨readsBack_partialDeps (h p hp), isThere_array (by simp)⟩
  apply reads_record (n := 5) (by decide)
  apply (reads_field (by decide) (readsBack_txnId c.txn _)).bind
  apply (reads_field (by decide) (readsBack_saveStatus c.status _)).bind
  apply (reads_optionalField (by decide) (reads_optional htime)).bind
  apply (reads_field (by decide) (readsBack_ballot c.promised _)).bind
  apply (reads_optionalField (by decide) (reads_optional hdeps)).bind
  exact reads_close.last (Reads.pure c)

theorem readsBack_commandUpdate {u : CommandUpdate} (h : u.Recordable) : ReadsBack u := by
  intro level
  have hthere : ∀ c : Command, IsThere (pack c) := fun c => isThere_array (by simp)
  apply reads_record (n := 3) (by decide)
  apply (reads_field (by decide) (readsBack_txnId u.txn _)).bind
  refine (reads_optionalField (by decide)
    (reads_optional fun c hc => ⟨readsBack_command (h.before c hc), hthere c⟩)).bind ?_
  refine (reads_optionalField (by decide)
    (reads_optional fun c hc => ⟨readsBack_command (h.after c hc), hthere c⟩)).bind ?_
  exact reads_close.last (Reads.pure u)

end Packed

theorem CommandUpdate.ofBytes_toBytes {u : CommandUpdate} (h : u.Recordable) :
    ofBytes u.toBytes = .ok u := by
  have hrun := Packed.readsBack_commandUpdate h 0 u.toBytes [] (List.append_nil _).symm
  have hbytes : (Packed.ofBytes u.toBytes : Except (Halt RecordDefect) CommandUpdate) = .ok u :=
    congrArg Prod.fst hrun
  rw [ofBytes, hbytes]

end TxnDeps
