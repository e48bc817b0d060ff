import TxnDeps.Proofs.Wire.RoundTrip
import TxnDeps.Proofs.Wire.Soundness

namespace TxnDeps

namespace Step

variable {ε α β : Type}

/-- At the position the bytes are read as the value, whatever follows them, and what is left of them
when they are cut short is refused. -/
structure Delimits (step : Step Cursor (Halt ε) α) (position : Nat) (bytes : Bytes) (a : α) :
    Prop where
  reads : ∀ left, step.run ⟨bytes ++ left, position⟩ = (.ok a, ⟨left, position + bytes.length⟩)
  refuses : ∀ cut, cut <+: bytes → cut.length < bytes.length →
    ∃ e c, step.run ⟨cut, position⟩ = (.error (.failed e), c)

def Delimited (step : Step Cursor (Halt ε) α) : Prop :=
  ∀ c a c', step.run c = (.ok a, c') →
    ∃ bytes, c.rest = bytes ++ c'.rest ∧ step.Delimits c.position bytes a

theorem Delimits.position_eq {step : Step Cursor (Halt ε) α} {bytes : Bytes} {a : α} {c c' : Cursor}
    (h : step.Delimits c.position bytes a) (hrest : c.rest = bytes ++ c'.rest)
    (hrun : step.run c = (.ok a, c')) : c' = ⟨c'.rest, c.position + bytes.length⟩ := by
  have hread := h.reads c'.rest
  rw [← hrest] at hread
  exact congrArg Prod.snd (hrun.symm.trans hread)

namespace Delimited

theorem pure (a : α) : Delimited (pure a : Step Cursor (Halt ε) α) := by
  intro c b c' hrun
  cases hrun
  exact ⟨[], rfl, fun left => rfl, fun cut _ hlen => absurd hlen (Nat.not_lt_zero _)⟩

theorem fail (halt : Halt ε) : Delimited (fail halt : Step Cursor (Halt ε) α) := by
  intro c a c' hrun
  cases hrun

theorem ofExcept (e : Except (Halt ε) α) : Delimited (ofExcept e) := by
  cases e with
  | error halt => exact fail halt
  | ok a => exact pure a

theorem bind {step : Step Cursor (Halt ε) α} {next : α → Step Cursor (Halt ε) β}
    (h : Delimited step) (hnext : ∀ a, Delimited (next a)) : Delimited (step >>= next) := by
  intro c b c' hrun
  obtain ⟨a, c₁, hfirst, hsecond⟩ := exists_of_run_bind hrun
  obtain ⟨bytes, hrest, hbytes⟩ := h c a c₁ hfirst
  obtain ⟨bytes', hrest', hbytes'⟩ := hnext a c₁ b c' hsecond
  rw [hbytes.position_eq hrest hfirst] at hrest' hbytes'
  refine ⟨bytes ++ bytes', ?_, fun left => ?_, fun cut hcut hlen => ?_⟩
  · rw [hrest, hrest', List.append_assoc]
  · rw [List.append_assoc, run_bind_of_ok (hbytes.reads _), hbytes'.reads, List.length_append,
      Nat.add_assoc]
  · by_cases hlong : bytes.length ≤ cut.length
    · obtain ⟨cut', rfl⟩ := List.prefix_of_prefix_length_le (List.prefix_append _ _) hcut hlong
      rw [List.length_append, List.length_append, Nat.add_lt_add_iff_left] at hlen
      rw [run_bind_of_ok (hbytes.reads cut')]
      exact hbytes'.refuses cut' ((List.prefix_append_right_inj bytes).1 hcut) hlen
    · have hshort := Nat.lt_of_not_le hlong
      have hcut' : cut <+: bytes :=
        List.prefix_of_prefix_length_le hcut (List.prefix_append _ _) (Nat.le_of_lt hshort)
      obtain ⟨e, c₂, hrefused⟩ := hbytes.refuses cut hcut' hshort
      exact ⟨e, c₂, run_bind_of_error hrefused⟩

theorem mapError {δ : Type} (f : ε → δ) {step : Step Cursor (Halt ε) α} (h : Delimited step) :
    Delimited (step.mapError (Halt.map f)) := by
  intro c a c' hrun
  have hstep := run_of_run_mapError hrun
  obtain ⟨bytes, hrest, hbytes⟩ := h c a c' hstep
  refine ⟨bytes, hrest, fun left => run_mapError_of_ok _ (hbytes.reads left), ?_⟩
  intro cut hcut hlen
  obtain ⟨e, c₁, hrefused⟩ := hbytes.refuses cut hcut hlen
  exact ⟨f e, c₁, run_mapError_of_error (Halt.map f) hrefused⟩

theorem times {step : Step Cursor (Halt ε) α} (h : Delimited step) (n : Nat) :
    Delimited (step.times n) := by
  induction n with
  | zero => exact pure []
  | succ n ih => exact h.bind fun a => ih.bind fun rest => pure (a :: rest)

end Delimited

end Step

theorem Bytes.split?_eq_some {n : Nat} {bytes taken rest : Bytes}
    (h : Bytes.split? n bytes = some (taken, rest)) : bytes = taken ++ rest ∧ taken.length = n := by
  induction n generalizing bytes taken with
  | zero =>
    cases h
    exact ⟨rfl, rfl⟩
  | succ n ih =>
    cases bytes with
    | nil => cases h
    | cons b bytes =>
      rw [Bytes.split?] at h
      obtain ⟨⟨taken', rest'⟩, hsplit, heq⟩ := Option.map_eq_some_iff.1 h
      cases heq
      obtain ⟨rfl, rfl⟩ := ih hsplit
      exact ⟨rfl, rfl⟩

theorem Bytes.split?_eq_none {n : Nat} {bytes : Bytes} (h : bytes.length < n) :
    Bytes.split? n bytes = none := by
  cases hsplit : Bytes.split? n bytes with
  | none => rfl
  | some parts =>
    obtain ⟨rfl, hlen⟩ := Bytes.split?_eq_some hsplit
    rw [List.length_append] at h
    omega

namespace Reader

open Step (Delimited)

variable {α : Type}

theorem delimited_position {next : Nat → Reader α} (h : ∀ start, Delimited (next start)) :
    Delimited (position >>= next) := by
  intro c a c' hrun
  obtain ⟨bytes, hrest, hbytes⟩ := h c.position c a c' hrun
  exact ⟨bytes, hrest, hbytes.reads, hbytes.refuses⟩

theorem delimited_failAt (offset : Nat) (defect : Defect) :
    Delimited (failAt offset defect : Reader α) :=
  Delimited.fail _

theorem delimited_byte : Delimited byte := by
  intro c b c' hrun
  obtain ⟨_ | ⟨b, rest⟩, position⟩ := c
  · cases hrun
  · cases hrun
    refine ⟨[b], rfl, fun left => rfl, fun cut _ hlen => ?_⟩
    have hnil : cut = [] := List.length_eq_zero_iff.1 (Nat.lt_one_iff.1 hlen)
    subst hnil
    exact ⟨_, _, rfl⟩

theorem delimited_bytes (n : Nat) : Delimited (bytes n) := by
  intro c taken c' hrun
  change Cursor.take n c = _ at hrun
  rw [Cursor.take] at hrun
  cases hsplit : Bytes.split? n c.rest with
  | none =>
    rw [hsplit] at hrun
    cases hrun
  | some parts =>
    obtain ⟨taken', rest⟩ := parts
    rw [hsplit] at hrun
    cases hrun
    obtain ⟨hrest, rfl⟩ := Bytes.split?_eq_some hsplit
    refine ⟨taken, hrest, fun left => ?_, fun cut _ hlen => ?_⟩
    · change Cursor.take taken.length ⟨taken ++ left, c.position⟩ = _
      rw [Cursor.take, Bytes.split?_append]
    · change ∃ e c₁, Cursor.take taken.length ⟨cut, c.position⟩ = _
      rw [Cursor.take, Bytes.split?_eq_none hlen]
      exact ⟨_, _, rfl⟩

theorem delimited_bool : Delimited bool := by
  rw [bool_eq]
  apply delimited_position
  intro start
  apply delimited_byte.bind
  intro b
  split
  · exact Delimited.pure false
  · split
    · exact Delimited.pure true
    · exact delimited_failAt _ _

theorem delimited_int64 : Delimited int64 :=
  (delimited_bytes 8).bind fun _ => Delimited.pure _

theorem delimited_uvarintFrom (start groups shift value : Nat) :
    Delimited (uvarintFrom start groups shift value) := by
  induction groups generalizing shift value with
  | zero => exact delimited_failAt _ _
  | succ groups ih =>
    apply delimited_byte.bind
    intro b
    split
    · exact delimited_failAt _ _
    · apply (Delimited.ofExcept _).bind
      intro bits
      split
      · exact Delimited.pure _
      · exact ih _ _

theorem delimited_uvarint : Delimited uvarint :=
  delimited_position fun start => delimited_uvarintFrom start 10 0 0

theorem delimited_uvarint32 : Delimited uvarint32 := by
  apply delimited_position
  intro start
  apply delimited_uvarint.bind
  intro n
  split
  · exact Delimited.pure _
  · exact delimited_failAt _ _

theorem delimited_count (limit : Nat) : Delimited (count limit) := by
  apply delimited_position
  intro start
  apply delimited_uvarint.bind
  intro n
  split
  · exact delimited_failAt _ _
  · exact Delimited.pure n

theorem delimited_txnId : Delimited txnId := by
  apply delimited_uvarint.bind
  intro epoch
  apply delimited_uvarint.bind
  intro clock
  apply delimited_position
  intro start
  apply delimited_uvarint.bind
  intro flags
  split
  · exact delimited_uvarint32.bind fun node => Delimited.pure _
  · exact delimited_failAt _ _

theorem delimited_routingKey : Delimited routingKey := by
  rw [routingKey_eq]
  apply (delimited_bytes 16).bind
  intro table
  apply delimited_position
  intro start
  apply delimited_byte.bind
  intro tag
  split
  · exact Delimited.pure _
  · split
    · exact delimited_int64.bind fun v => Delimited.pure _
    · split
      · exact Delimited.pure _
      · exact delimited_failAt _ _

theorem delimited_routingKeys (limit : Nat) : Delimited (routingKeys limit) := by
  apply delimited_position
  intro start
  apply (delimited_count limit).bind
  intro count
  apply (delimited_routingKey.times count).bind
  intro keys
  split
  · exact Delimited.pure _
  · exact delimited_failAt _ _

end Reader

namespace RangeCodec

open Step (Delimited)

theorem delimited_readEnd : Delimited readEnd := by
  apply Reader.delimited_position
  intro start
  apply Reader.delimited_byte.bind
  intro tag
  split
  · exact Delimited.pure _
  · split
    · exact Reader.delimited_uvarint.bind fun n => Delimited.pure _
    · split
      · exact Delimited.pure _
      · exact Reader.delimited_failAt _ _

theorem delimited_read (c : RangeCodec) : Delimited c.read := by
  cases c with
  | token =>
    apply Reader.delimited_position
    intro offset
    apply Reader.delimited_routingKey.bind
    intro start
    apply Reader.delimited_routingKey.bind
    intro stop
    split
    · exact Delimited.pure _
    · exact Reader.delimited_failAt _ _
  | simple table =>
    exact delimited_readEnd.bind fun start => delimited_readEnd.bind fun stop => Delimited.pure _

end RangeCodec

namespace Reader

open Step (Delimited)

theorem delimited_increasing (size count : Nat) (previous : Option Nat) :
    Delimited (increasing size count previous) := by
  induction count generalizing previous with
  | zero => exact Delimited.pure []
  | succ count ih =>
    apply delimited_position
    intro start
    apply delimited_uvarint.bind
    intro p
    split
    · exact delimited_failAt _ _
    · split
      · exact delimited_failAt _ _
      · exact (ih (some p)).bind fun rest => Delimited.pure (p :: rest)

theorem delimited_marks (size : Nat) : Delimited (marks size) := by
  apply delimited_position
  intro start
  split
  · apply delimited_uvarint.bind
    intro bits
    apply (Delimited.ofExcept _).bind
    intro beyond
    split
    · exact delimited_failAt _ _
    · exact Delimited.ofExcept _
  · apply ((delimited_count size).mapError _).bind
    intro missing
    apply (Delimited.ofExcept _).bind
    intro present
    exact (delimited_increasing size _ none).bind fun listed => Delimited.ofExcept _

theorem delimited_readIn {α : Type} [Ord α] (superset : SortedList α) :
    Delimited superset.readIn :=
  (delimited_marks superset.size).bind fun _ => Delimited.pure _

theorem delimited_txnIds (limit : Nat) : Delimited (txnIds limit) := by
  apply delimited_position
  intro start
  apply (delimited_count limit).bind
  intro count
  apply (delimited_txnId.times count).bind
  intro txns
  split
  · exact Delimited.pure txns
  · exact delimited_failAt _ _

theorem delimited_body {α : Type} [Ord α] (limit : Nat) (keys : SortedList α) :
    Delimited (body limit keys) := by
  apply (delimited_txnIds limit).bind
  intro txns
  apply delimited_position
  intro start
  apply (delimited_count limit).bind
  intro count
  apply (delimited_uvarint32.times count).bind
  intro links
  split
  · exact Delimited.fail _
  · exact (Delimited.ofExcept _).bind fun _ => Delimited.pure _

end Reader

namespace DepsCodec

open Step (Delimited)

variable (c : DepsCodec)

theorem delimited_readRanges (start : Nat) (disorder : Defect) :
    Delimited (c.readRanges start disorder) := by
  apply (Reader.delimited_count c.config.limit).bind
  intro count
  apply (c.ranges.delimited_read.times count).bind
  intro ranges
  split
  · exact Delimited.pure _
  · exact Reader.delimited_failAt _ _

theorem delimited_readKeys (relative : Bool) (superset : RoutingKeys) :
    Delimited (c.readKeys relative superset) := by
  cases relative
  · exact Reader.delimited_routingKeys c.config.limit
  · exact Reader.delimited_readIn superset

theorem delimited_readKeySet (v : WireVersion) (superset? : Option RoutingKeys) :
    Delimited (c.readKeySet v superset?) := by
  cases superset? with
  | none => exact Reader.delimited_routingKeys c.config.limit
  | some superset =>
    rw [readKeySet]
    split
    · exact Reader.delimited_bool.bind fun relative => c.delimited_readKeys relative superset
    · exact Reader.delimited_readIn superset

theorem delimited_readDeps (superset? : Option RoutingKeys) (v : WireVersion) :
    Delimited (c.readDeps superset? v) := by
  apply (c.delimited_readKeySet v superset?).bind
  intro keys
  apply (Reader.delimited_body c.config.limit keys).bind
  intro byKey
  apply Reader.delimited_position
  intro start
  apply (c.delimited_readRanges start .rangeOrder).bind
  intro ranges
  apply (Reader.delimited_body c.config.limit ranges).bind
  intro byRange
  apply Reader.delimited_bool.bind
  intro relative
  apply (c.delimited_readKeys relative byKey.keys).bind
  intro directKeys
  exact (Reader.delimited_body c.config.limit directKeys).bind fun direct => Delimited.pure _

theorem delimited_readParticipants : Delimited c.readParticipants := by
  apply Reader.delimited_position
  intro start
  apply Reader.delimited_byte.bind
  intro tag
  split
  · exact (Reader.delimited_routingKeys c.config.limit).bind fun keys => Delimited.pure _
  · split
    · exact (c.delimited_readRanges start .coveringOrder).bind fun ranges => Delimited.pure _
    · exact Reader.delimited_failAt _ _

theorem delimited_readPartial (superset? : Option RoutingKeys) (v : WireVersion) :
    Delimited (c.readPartial superset? v) :=
  (c.delimited_readDeps superset? v).bind fun _ =>
    c.delimited_readParticipants.bind fun _ => Delimited.pure _

theorem delimited_readMarker : Delimited readMarker := by
  apply Reader.delimited_position
  intro start
  apply Reader.delimited_byte.bind
  intro tag
  split
  · exact Delimited.pure false
  · split
    · exact Delimited.pure true
    · exact Reader.delimited_failAt _ _

theorem delimited_readNullable {α : Type} {read : Reader α} (h : Delimited read) :
    Delimited (readNullable read) := by
  apply delimited_readMarker.bind
  intro present
  split
  · exact h.bind fun a => Delimited.pure (some a)
  · exact Delimited.pure none

end DepsCodec

namespace WireForm

open Step (Delimited)
open DepsCodec (Recovers)

/-- Of bytes from which a value is decoded, those that were taken are all that matters. With
anything else behind them the same value is decoded and the same place reached, and cut short they
are reported as corrupt. -/
def SelfDelimiting (α : Type) [WireForm α] (c : DepsCodec) (superset? : Option RoutingKeys)
    (v : WireVersion) : Prop :=
  ∀ bytes start (a : α) cursor, (decode c superset? v).run ⟨bytes, start⟩ = (.ok a, cursor) →
    ∃ p ≤ bytes.length, cursor = ⟨bytes.drop p, start + p⟩ ∧
      (∀ bytes', bytes'.take p = bytes.take p →
        (decode c superset? v).run ⟨bytes', start⟩ = (.ok a, ⟨bytes'.drop p, start + p⟩)) ∧
      ∀ k < p, ∃ fault cursor', (decode (α := α) c superset? v).run ⟨bytes.take k, start⟩ =
        (.error (.failed (.ofFault fault)), cursor')

variable {α : Type} [WireForm α] {c : DepsCodec} {superset? : Option RoutingKeys} {v : WireVersion}

theorem selfDelimiting_of_delimited {read : Reader α}
    (hdecode : decode (α := α) c superset? v = c.checked v read) (h : Delimited read) :
    SelfDelimiting α c superset? v := by
  intro bytes start a cursor hrun
  cases hcheck : c.config.check v with
  | error refusal =>
    have hrefused : (c.checked v read).run ⟨bytes, start⟩ =
        (.error (.failed (.ofRefusal refusal)), ⟨bytes, start⟩) := by
      change c.checked v read _ = _
      rw [DepsCodec.checked, hcheck]
    rw [hdecode, hrefused] at hrun
    cases hrun
  | ok _ =>
    have hchecked : ∀ cursor, (decode (α := α) c superset? v).run cursor =
        (read.mapError (Halt.map Error.ofFault)).run cursor := by
      rw [hdecode]
      exact DepsCodec.run_checked hcheck read
    rw [hchecked] at hrun
    have hread := Step.run_of_run_mapError hrun
    obtain ⟨taken, hrest, htaken⟩ := h _ a cursor hread
    have hbytes : bytes = taken ++ cursor.rest := hrest
    have htake : bytes.take taken.length = taken := by rw [hbytes, List.take_left]
    -- Then other bytes follow what was taken, and then it is cut short.
    refine ⟨taken.length, ?_, ?_, fun bytes' hsame => ?_, fun k hk => ?_⟩
    · rw [hbytes, List.length_append]
      exact Nat.le_add_right _ _
    · rw [hbytes, List.drop_left]
      exact htaken.position_eq hrest hread
    · have hsplit : taken ++ bytes'.drop taken.length = bytes' := by
        have hstart : bytes'.take taken.length = taken := hsame.trans htake
        nth_rewrite 1 [← hstart]
        exact List.take_append_drop taken.length bytes'
      have hreads := htaken.reads (bytes'.drop taken.length)
      rw [hsplit] at hreads
      rw [hchecked]
      exact Step.run_mapError_of_ok _ hreads
    · have hcut : bytes.take k <+: taken := by
        rw [← htake]
        exact List.take_prefix_take_left (Nat.le_of_lt hk)
      have hshort : (bytes.take k).length < taken.length :=
        Nat.lt_of_le_of_lt (List.length_take_le k bytes) hk
      obtain ⟨fault, cursor', hfault⟩ := htaken.refuses _ hcut hshort
      rw [hchecked]
      exact ⟨fault, cursor', Step.run_mapError_of_error _ hfault⟩

end WireForm

end TxnDeps
