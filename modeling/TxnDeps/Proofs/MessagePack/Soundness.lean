import Mathlib.Data.List.Basic
import TxnDeps.MessagePack.Packed
import TxnDeps.Proofs.Deps.WellFormed
import TxnDeps.Proofs.MessagePack.Head

namespace TxnDeps

open Step (Safe)

namespace MessagePack

variable {α : Type} {p : α → Prop}

theorem safe_malformed : Safe (malformed : Unpacker α) p := Safe.fail _

theorem safe_take (n : Nat) : Safe (take n) fun _ => True := by
  intro rest
  change Halt.Safe (take n rest).1 _
  rw [take]
  split <;> exact trivial

theorem safe_number (width : Nat) : Safe (number width) fun _ => True :=
  (safe_take width).map

theorem safe_signedNumber (width : Nat) : Safe (signedNumber width) fun _ => True :=
  (safe_number width).bind fun _ _ => Safe.pure trivial

theorem safe_wideHead (tag : Nat) : Safe (wideHead tag) fun _ => True := by
  unfold wideHead
  split
  all_goals first
    | exact Safe.pure trivial
    | exact (safe_number _).map
    | exact (safe_signedNumber _).map
    | exact safe_malformed

theorem safe_shortHead (tag : Nat) : Safe (shortHead tag) fun _ => True := by
  unfold shortHead
  repeat' split
  all_goals first
    | exact Safe.pure trivial
    | exact safe_wideHead tag

theorem safe_head : Safe head fun _ => True := by
  rw [head_eq]
  exact (safe_number 1).bind fun tag _ => safe_shortHead tag

theorem safe_below (bound : Nat) : Safe (below bound) (· < bound) := by
  apply safe_head.bind
  intro h _
  cases h with
  | natural n =>
    change Safe (if n < bound then pure n else malformed) _
    split
    · next hn => exact Safe.pure hn
    · exact safe_malformed
  | signed v =>
    change Safe (if 0 ≤ v ∧ v < bound then pure v.toNat else malformed) _
    split
    · next hv => exact Safe.pure (by omega)
    · exact safe_malformed
  | _ => exact safe_malformed

theorem safe_int64 : Safe int64 fun _ => True := by
  apply safe_head.bind
  intro h _
  cases h with
  | natural n =>
    change Safe (if 2 * n < Bytes.capacity 8 then pure (Int64.ofNat n) else malformed) _
    split
    · exact Safe.pure trivial
    · exact safe_malformed
  | signed v => exact Safe.pure trivial
  | _ => exact safe_malformed

theorem safe_blob : Safe blob fun _ => True := by
  apply safe_head.bind
  intro h _
  cases h with
  | binary length => exact safe_take length
  | text length =>
    apply (safe_take length).bind
    intro taken _
    split
    · exact safe_malformed
    · exact Safe.pure trivial
  | _ => exact safe_malformed

theorem safe_list {item : (level : Nat) → Unpacker α} (h : ∀ level, Safe (item level) p)
    (level : Nat) : Safe (list item level) fun xs => ∀ x ∈ xs, p x := by
  apply safe_head.bind
  intro head _
  cases head with
  | array length => exact ((h (level + 1)).times length).mono fun _ hxs => hxs.2
  | binary length =>
    apply (safe_take length).bind
    intro taken _
    exact Safe.ofExcept (Halt.Safe.mapM fun form _ => h (level + 1) form)
  | _ => exact safe_malformed

theorem safe_skip (depth : Nat) : Safe (skip depth) fun _ => True := by
  induction depth with
  | zero =>
    rw [skip]
    apply safe_head.bind
    intro h _
    cases h with
    | natural | signed | nil => exact Safe.pure trivial
    | text length | binary length | payload length => exact (safe_take length).map
    | array | map | extension => exact safe_malformed
  | succ depth ih =>
    rw [skip]
    apply safe_head.bind
    intro h _
    cases h with
    | natural | signed | nil => exact Safe.pure trivial
    | text length | binary length | payload length | extension length =>
      exact (safe_take length).map
    | array length | map length => exact ((ih.times _).mono fun _ _ => trivial).map

theorem safe_named (names : List String) (h : Head) : Safe (named names h) fun _ => True := by
  cases h with
  | natural => exact Safe.pure trivial
  | text length | binary length => exact (safe_take length).bind fun _ _ => Safe.pure trivial
  | _ => exact safe_malformed

theorem safe_case_place (names : List String) (key : Head) (isValued : Bool) :
    Safe (do
      match ← named names key with
      | some i => pure (i, isValued)
      | none => malformed : Unpacker (Nat × Bool)) fun _ => True := by
  apply (safe_named names key).bind
  intro i? _
  cases i? with
  | none => exact safe_malformed
  | some i => exact Safe.pure trivial

theorem safe_case (names : List String) : Safe (case names) fun _ => True := by
  have hplace : ∀ place : Head × Bool, True → Safe _ _ := fun place _ =>
    safe_case_place names place.1 place.2
  apply safe_head.bind
  intro h _
  cases h with
  | map length =>
    change Safe (if length = 1 then _ else _) _
    split
    · exact (safe_head.map (r := fun _ => True)).bind hplace
    · exact (safe_malformed (p := fun _ => True)).bind hplace
  | _ => exact (Safe.pure (p := fun _ => True) trivial).bind hplace

theorem safe_bare {isValued : Bool} {a : α} (h : p a) : Safe (bare isValued a) p := by
  rw [bare]
  split
  · apply safe_head.bind
    intro head _
    cases head with
    | nil => exact Safe.pure h
    | _ => exact safe_malformed
  · exact Safe.pure h

theorem safe_valued {isValued : Bool} {value : Unpacker α} (h : Safe value p) :
    Safe (valued isValued value) p := by
  rw [valued]
  split
  · exact h
  · exact safe_malformed

theorem safe_field {row : Row} {i : Nat} {value : (level : Nat) → Unpacker α}
    (h : ∀ level, Safe (value level) p) : Safe (row.field i value) p := by
  cases row with
  | inOrder level length =>
    rw [Row.field]
    split
    · exact h level
    · exact safe_malformed
  | apart level starts =>
    intro rest
    change Halt.Safe ((Row.apart level starts).field i value rest).1 p
    rw [Row.field]
    split
    · next start _ => exact h level start
    · exact trivial

theorem safe_close {row : Row} {count : Nat} : Safe (row.close count) fun _ => True := by
  cases row with
  | inOrder level length =>
    rw [Row.close]
    split
    · exact Safe.pure trivial
    · exact safe_malformed
  | apart => exact Safe.pure trivial

theorem safe_fieldStarts {fields : List (String × ((level : Nat) → Unpacker Unit))}
    (h : ∀ field ∈ fields, ∀ level, Safe (field.2 level) fun _ => True) (level entries : Nat)
    (starts : List (Option Bytes)) :
    Safe (fieldStarts fields level entries starts) fun _ => True := by
  induction entries generalizing starts with
  | zero => exact Safe.pure trivial
  | succ entries ih =>
    apply safe_head.bind
    intro key _
    apply (safe_named (fields.map (·.1)) key).bind
    intro i? _
    cases i? with
    | none => exact (safe_skip _).bind fun _ _ => ih starts
    | some i =>
      dsimp only
      split
      · next name value _ hfield =>
        have hget : Safe (Step.get : Unpacker Bytes) fun _ => True := fun _ => trivial
        have hvalue := h _ (List.mem_of_getElem? hfield) level
        exact hget.bind fun start _ => hvalue.bind fun _ _ => ih _
      · exact safe_malformed

/-- However a structure is laid out, its fields are read by the same readers. -/
theorem safe_record {fields : List (String × ((level : Nat) → Unpacker Unit))}
    {build : Row → Unpacker α}
    (hfields : fields.Forall fun field => ∀ level, Safe (field.2 level) fun _ => True)
    (hbuild : ∀ row, Safe (build row) p) (level : Nat) : Safe (record fields build level) p := by
  apply safe_head.bind
  intro h _
  cases h with
  | array length => exact hbuild _
  | map length =>
    have hstarts := safe_fieldStarts (List.forall_iff_forall_mem.1 hfields) (level + 1) length
    exact (hstarts _).bind fun _ _ => hbuild _
  | binary length => exact (safe_take length).bind fun _ _ => hbuild _
  | _ => exact safe_malformed

end MessagePack

open MessagePack

namespace Packed

variable {α : Type} {p : α → Prop}

/-- Whatever the bytes and the level of nesting, reading does not trap, and the values that are
read have the property. -/
def Checked [Packed α] (p : α → Prop) : Prop := ∀ level, Safe (unpack level) p

theorem Checked.probe [Packed α] (h : Checked p) (level : Nat) :
    Safe (probe α level) fun _ => True :=
  ((h level).mono fun _ _ => trivial).map

theorem checked_uint16 : Checked fun _ : UInt16 => True := fun _ =>
  ((safe_below _).mono fun _ _ => trivial).map

theorem checked_uint32 : Checked fun _ : UInt32 => True := fun _ =>
  ((safe_below _).mono fun _ _ => trivial).map

theorem checked_uint64 : Checked fun _ : UInt64 => True := fun _ =>
  ((safe_below _).mono fun _ _ => trivial).map

theorem checked_list [Packed α] (h : Checked p) : Checked fun xs : List α => ∀ x ∈ xs, p x :=
  safe_list h

theorem checked_sortedList [Ord α] [Std.TransOrd α] [Packed α] (h : Checked p) :
    Checked fun s : SortedList α => ∀ x ∈ s, p x := by
  intro level
  apply (checked_list h level).bind
  intro xs hxs
  split
  · next s hs =>
    have hlist : s.toList = xs := SortedList.ofAscending?_eq_some_iff.1 hs
    exact Safe.pure fun x hx => hxs x (hlist ▸ hx)
  · exact Safe.fail _

theorem checked_txnId : Checked fun _ : TxnId => True := by
  apply safe_record
  · exact ⟨checked_uint64.probe, checked_uint64.probe, checked_uint16.probe, checked_uint32.probe⟩
  · intro row
    apply (safe_field checked_uint64).bind
    intro epoch _
    apply (safe_field checked_uint64).bind
    intro clock _
    apply (safe_field checked_uint16).bind
    intro flags _
    apply (safe_field checked_uint32).bind
    intro node _
    exact safe_close.bind fun _ _ => Safe.pure trivial

theorem checked_tableId : Checked fun _ : TableId => True := by
  intro level
  apply safe_blob.bind
  intro taken _
  split
  · exact Safe.pure trivial
  · exact safe_malformed

theorem checked_keyKind : Checked fun _ : KeyKind => True := by
  intro level
  apply (safe_case _).bind
  rintro ⟨i, isValued⟩ _
  change Safe (if i = 0 then bare isValued KeyKind.min
    else if i = 1 then valued isValued (KeyKind.token <$> unpack level)
    else bare isValued KeyKind.max) _
  split
  · exact safe_bare trivial
  · split
    · exact safe_valued safe_int64.map
    · exact safe_bare trivial

theorem checked_routingKey : Checked fun _ : RoutingKey => True := by
  apply safe_record
  · exact ⟨checked_tableId.probe, checked_keyKind.probe⟩
  · intro row
    apply (safe_field checked_tableId).bind
    intro table _
    apply (safe_field checked_keyKind).bind
    intro kind _
    exact safe_close.bind fun _ _ => Safe.pure trivial

theorem checked_tokenRange : Checked TokenRange.SingleTable := by
  intro level
  refine Safe.bind (p := fun _ => True) (safe_record ?_ (fun row => ?_) level) ?_
  · exact ⟨checked_routingKey.probe, checked_routingKey.probe⟩
  · apply (safe_field checked_routingKey).bind
    intro start _
    apply (safe_field checked_routingKey).bind
    intro stop _
    exact safe_close.bind fun _ _ => Safe.pure trivial
  · rintro ⟨start, stop⟩ _
    by_cases h : start.table = stop.table
    · have hcreate : TokenRange.create start stop = .ok ⟨start, stop⟩ := if_pos h
      simp only [hcreate]
      exact Safe.pure h
    · have hcreate : TokenRange.create start stop = .error (.tables start stop) := if_neg h
      simp only [hcreate]
      exact Safe.fail _

theorem checked_graph [Ord α] [Std.TransOrd α] [Packed α] (h : Checked p) :
    Checked fun g : Graph α => g.WellFormed ∧ ∀ key ∈ g.keys, p key := by
  intro level
  have hkeys := checked_sortedList h
  have htxns := checked_list checked_txnId
  have hlinks := checked_list checked_uint32
  refine Safe.bind (p := fun parts => ∀ key ∈ parts.1, p key)
    (safe_record ?_ (fun row => ?_) level) ?_
  · exact ⟨hkeys.probe, htxns.probe, hlinks.probe⟩
  · apply (safe_field hkeys).bind
    intro keys hk
    apply (safe_field htxns).bind
    intro txnIds _
    apply (safe_field hlinks).bind
    intro links _
    exact safe_close.bind fun _ _ => Safe.pure hk
  · rintro ⟨keys, txnIds, links⟩ hk
    have hsafe := Graph.safe_ofOrderedParts keys txnIds links
    rcases hparts : Graph.ofOrderedParts keys txnIds links with (_ | _) | g
    · simp only [hparts]
      exact Safe.fail _
    · rw [hparts] at hsafe
      exact absurd hsafe id
    · obtain ⟨hwell, rfl⟩ := hsafe.of_ok hparts
      simp only [hparts]
      exact Safe.pure ⟨hwell, hk⟩

theorem checked_deps :
    Checked fun d : Deps => d.WellFormed ∧ ∀ r ∈ d.byRange.keys, r.SingleTable := by
  have hkeys := checked_graph checked_routingKey
  have hranges := checked_graph checked_tokenRange
  apply safe_record
  · exact ⟨hkeys.probe, hranges.probe, hkeys.probe⟩
  · intro row
    apply (safe_field hkeys).bind
    intro byKey hkey
    apply (safe_field hranges).bind
    intro byRange hrange
    apply (safe_field hkeys).bind
    intro direct hdirect
    exact safe_close.bind fun _ _ => Safe.pure ⟨⟨hkey.1, hrange.1, hdirect.1⟩, hrange.2⟩

end Packed

end TxnDeps
