import TxnDeps.Proofs.Wire.Delimiting
import TxnDeps.Proofs.Wire.Spelling
import TxnDeps.Proofs.Wire.SubsetWalk
import TxnDeps.Wire.InPlace

namespace TxnDeps

def Fault.shift (origin : Nat) (f : Fault) : Fault := ⟨f.offset + origin, f.defect⟩

namespace Halt

variable {ε α β : Type}

def TrapsOnly (e : Except (Halt ε) α) : Prop := ∀ error, e ≠ .error (.failed error)

theorem TrapsOnly.elim {e : Except (Halt ε) α} (h : TrapsOnly e) {p : ε → Prop} (error : ε)
    (he : e = .error (.failed error)) : p error :=
  absurd he (h error)

theorem trapsOnly_ok (a : α) : TrapsOnly (.ok a : Except (Halt ε) α) := by
  rintro error ⟨⟩

theorem trapsOnly_trapped (trap : Trap) :
    TrapsOnly (.error (.trapped trap) : Except (Halt ε) α) := by
  rintro error ⟨⟩

theorem trapsOnly_expect (trap : Trap) (a? : Option α) :
    TrapsOnly (expect trap a? : Except (Halt ε) α) := by
  cases a? with
  | none => exact trapsOnly_trapped trap
  | some a => exact trapsOnly_ok a

theorem trapsOnly_minus (m n : Nat) : TrapsOnly (minus m n : Except (Halt ε) Nat) := by
  rw [minus]
  split
  · exact trapsOnly_ok _
  · exact trapsOnly_trapped _

theorem trapsOnly_shiftLeft (n k : Nat) : TrapsOnly (shiftLeft n k : Except (Halt ε) Nat) := by
  rw [shiftLeft]
  split
  · exact trapsOnly_ok _
  · exact trapsOnly_trapped _

theorem trapsOnly_shiftRight (n k : Nat) : TrapsOnly (shiftRight n k : Except (Halt ε) Nat) := by
  rw [shiftRight]
  split
  · exact trapsOnly_ok _
  · exact trapsOnly_trapped _

theorem TrapsOnly.mapM {step : β → Except (Halt ε) α} (h : ∀ b, TrapsOnly (step b))
    (bs : List β) : TrapsOnly (bs.mapM step) := by
  induction bs with
  | nil => exact trapsOnly_ok []
  | cons b bs ih =>
    intro error
    rw [List.mapM_cons]
    cases hb : step b with
    | error halt =>
      rintro ⟨⟩
      exact h b error hb
    | ok a =>
      cases hbs : bs.mapM step with
      | error halt =>
        rintro ⟨⟩
        exact ih error hbs
      | ok as => exact trapsOnly_ok (a :: as) error

end Halt

theorem Buffer.slice_eq_ok {bytes : Bytes} {here n : Nat} (h : here + n ≤ bytes.length) :
    Buffer.slice ⟨bytes, here⟩ here (here + n) = .ok ((bytes.drop here).take n) := by
  rw [slice, if_pos ⟨Nat.le_add_right here n, h⟩, Nat.add_sub_cancel_left]

namespace InPlace

variable {α β : Type} {origin lower here : Nat}

theorem run_remaining {bytes : Bytes} (h : here ≤ bytes.length) :
    (Reader.remaining : InPlace Nat).run ⟨bytes, here⟩ =
      (.ok (bytes.length - here), ⟨bytes, here⟩) :=
  congrArg (Prod.mk · _) (Halt.minus_eq_ok h)

/-- Both readings end, and the second one counts its places from `origin` on. -/
structure Arrives (origin lower : Nat) (step : InPlace α) (read : Reader α) (bytes : Bytes)
    (here : Nat) (answer : Except (Halt Fault) α) (stop : Nat) : Prop where
  inPlace : step.run ⟨bytes, here⟩ = (answer, ⟨bytes, stop⟩)
  left : read.run ⟨bytes.drop here, here + origin⟩ =
    (answer.mapError (Halt.map (Fault.shift origin)), ⟨bytes.drop stop, stop + origin⟩)
  forward : here ≤ stop
  within : stop ≤ bytes.length
  located : ∀ fault, answer = .error (.failed fault) → lower ≤ fault.offset ∧ fault.offset ≤ stop

/-- From the place `here` of every buffer both readings arrive together. -/
def FollowsAt (origin lower here : Nat) (step : InPlace α) (read : Reader α) : Prop :=
  ∀ bytes : Bytes, here ≤ bytes.length →
    ∃ answer stop, Arrives origin lower step read bytes here answer stop

def Follows (origin lower : Nat) (step : InPlace α) (read : Reader α) : Prop :=
  ∀ here, lower ≤ here → FollowsAt origin lower here step read

variable {step : InPlace α} {read : Reader α} {next : α → InPlace β} {next' : α → Reader β}

namespace Arrives

variable {bytes : Bytes} {middle stop : Nat}

theorem bind_error {halt : Halt Fault}
    (h : Arrives origin lower step read bytes here (.error halt) stop) :
    Arrives origin lower (step >>= next) (read >>= next') bytes here (.error halt) stop where
  inPlace := Step.run_bind_of_error h.inPlace
  left := Step.run_bind_of_error h.left
  forward := h.forward
  within := h.within
  located fault hfault := h.located fault (by cases hfault; rfl)

theorem bind_ok {a : α} {answer : Except (Halt Fault) β}
    (h : Arrives origin lower step read bytes here (.ok a) middle)
    (hnext : Arrives origin lower (next a) (next' a) bytes middle answer stop) :
    Arrives origin lower (step >>= next) (read >>= next') bytes here answer stop where
  inPlace := (Step.run_bind_of_ok h.inPlace).trans hnext.inPlace
  left := (Step.run_bind_of_ok h.left).trans hnext.left
  forward := Nat.le_trans h.forward hnext.forward
  within := hnext.within
  located := hnext.located

theorem mono {lower' : Nat} {answer : Except (Halt Fault) α} (hle : lower' ≤ lower)
    (h : Arrives origin lower step read bytes here answer stop) :
    Arrives origin lower' step read bytes here answer stop :=
  { h with located := fun fault hfault => (h.located fault hfault).imp_left (Nat.le_trans hle) }

end Arrives

namespace Follows

theorem ofExcept {e : Except (Halt Fault) α} (h : Halt.TrapsOnly e) :
    Follows origin lower (Step.ofExcept e) (Step.ofExcept e) := by
  intro here _ bytes hwithin
  obtain (fault | trap) | a := e
  · exact absurd rfl (h fault)
  · exact ⟨_, here, rfl, rfl, Nat.le_refl _, hwithin, h.elim⟩
  · exact ⟨_, here, rfl, rfl, Nat.le_refl _, hwithin, h.elim⟩

theorem pure (a : α) : Follows origin lower (pure a) (pure a) :=
  ofExcept (Halt.trapsOnly_ok a)

theorem failAt (defect : Defect) :
    Follows origin lower (Reader.failAt lower defect : InPlace α)
      (Reader.failAt (lower + origin) defect) := by
  intro here hlower bytes hwithin
  refine ⟨_, here, rfl, rfl, Nat.le_refl _, hwithin, ?_⟩
  rintro _ ⟨⟩
  exact ⟨Nat.le_refl _, hlower⟩

theorem bind (h : Follows origin lower step read)
    (hnext : ∀ a, Follows origin lower (next a) (next' a)) :
    Follows origin lower (step >>= next) (read >>= next') := by
  intro here hlower bytes hwithin
  obtain ⟨halt | a, middle, hfirst⟩ := h here hlower bytes hwithin
  · exact ⟨_, middle, hfirst.bind_error⟩
  · obtain ⟨answer, stop, hsecond⟩ :=
      hnext a middle (Nat.le_trans hlower hfirst.forward) bytes hfirst.within
    exact ⟨answer, stop, hfirst.bind_ok hsecond⟩

theorem position {next : Nat → InPlace α} {next' : Nat → Reader α}
    (h : ∀ here, Follows origin here (next here) (next' (here + origin))) :
    Follows origin lower (Reader.position >>= next) (Reader.position >>= next') := by
  intro here hlower bytes hwithin
  obtain ⟨answer, stop, hrun⟩ := h here here (Nat.le_refl _) bytes hwithin
  exact ⟨answer, stop, { hrun.mono hlower with inPlace := hrun.inPlace, left := hrun.left }⟩

theorem remaining {next : InPlace α} (h : Follows origin lower next read) :
    Follows origin lower (Reader.remaining >>= fun _ => next)
      (Reader.remaining >>= fun _ => read) := by
  intro here hlower bytes hwithin
  obtain ⟨answer, stop, hrun⟩ := h here hlower bytes hwithin
  have hleft : (Reader.remaining >>= fun _ => next).run ⟨bytes, here⟩ = next.run ⟨bytes, here⟩ :=
    Step.run_bind_of_ok (run_remaining hwithin)
  exact ⟨answer, stop, { hrun with inPlace := hleft.trans hrun.inPlace, left := hrun.left }⟩

theorem mapError (h : Follows origin lower step read) (defect : Defect) :
    Follows origin lower (step.mapError (Halt.map fun _ => ⟨lower, defect⟩))
      (read.mapError (Halt.map fun _ => ⟨lower + origin, defect⟩)) := by
  intro here hlower bytes hwithin
  obtain ⟨(fault | trap) | a, stop, hrun⟩ := h here hlower bytes hwithin
  · refine ⟨.error (.failed ⟨lower, defect⟩), stop, Step.run_mapError_of_error _ hrun.inPlace,
      Step.run_mapError_of_error _ hrun.left, hrun.forward, hrun.within, ?_⟩
    rintro _ ⟨⟩
    exact ⟨Nat.le_refl _, Nat.le_trans hlower hrun.forward⟩
  · exact ⟨.error (.trapped trap), stop, Step.run_mapError_of_error _ hrun.inPlace,
      Step.run_mapError_of_error _ hrun.left, hrun.forward, hrun.within,
      (Halt.trapsOnly_trapped trap).elim⟩
  · exact ⟨.ok a, stop, Step.run_mapError_of_ok _ hrun.inPlace,
      Step.run_mapError_of_ok _ hrun.left, hrun.forward, hrun.within,
      (Halt.trapsOnly_ok a).elim⟩

theorem times (h : Follows origin lower step read) (n : Nat) :
    Follows origin lower (step.times n) (read.times n) := by
  induction n with
  | zero => exact pure []
  | succ n ih => exact h.bind fun a => ih.bind fun rest => pure (a :: rest)

end Follows

end InPlace

theorem Bytes.split?_of_le {n : Nat} {bytes : Bytes} (h : n ≤ bytes.length) :
    Bytes.split? n bytes = some (bytes.take n, bytes.drop n) := by
  have hsplit := Bytes.split?_append (bytes.take n) (bytes.drop n)
  rwa [List.take_append_drop, List.length_take_of_le h] at hsplit

namespace InPlace

variable {α : Type} {origin lower : Nat}

theorem follows_bytes (n : Nat) : Follows origin lower (Reader.bytes n) (Reader.bytes n) := by
  intro here hlower bytes hwithin
  have hget : (Step.get : InPlace Buffer).run ⟨bytes, here⟩ = (.ok ⟨bytes, here⟩, ⟨bytes, here⟩) :=
    rfl
  have hleft : Buffer.remaining ⟨bytes, here⟩ = .ok (bytes.length - here) :=
    Halt.minus_eq_ok hwithin
  by_cases hn : bytes.length - here < n
  · refine ⟨.error (.failed ⟨here, .endOfBuffer n (bytes.length - here)⟩), here, ?_, ?_,
      Nat.le_refl _, hwithin, ?_⟩
    · change (Buffer.take n).run _ = _
      rw [Buffer.take, Step.run_bind_of_ok hget, hleft, Step.ofExcept]
      change (if _ then _ else _ : InPlace Bytes).run _ = _
      rw [if_pos hn]
      rfl
    · change Cursor.take n _ = _
      rw [Cursor.take, Bytes.split?_eq_none (by simpa using hn), Cursor.remaining,
        List.length_drop]
      rfl
    · rintro _ ⟨⟩
      exact ⟨hlower, Nat.le_refl _⟩
  · have hfits : here + n ≤ bytes.length := by omega
    refine ⟨.ok ((bytes.drop here).take n), here + n, ?_, ?_, Nat.le_add_right _ _, hfits,
      (Halt.trapsOnly_ok _).elim⟩
    · change (Buffer.take n).run _ = _
      rw [Buffer.take, Step.run_bind_of_ok hget, hleft, Step.ofExcept]
      change (if _ then _ else _ : InPlace Bytes).run _ = _
      rw [if_neg hn, Buffer.slice_eq_ok hfits]
      rfl
    · change Cursor.take n _ = _
      rw [Cursor.take, Bytes.split?_of_le (by simpa using Nat.not_lt.1 hn), List.drop_drop]
      dsimp only
      rw [Nat.add_right_comm]
      rfl

theorem follows_byte : Follows origin lower Reader.byte Reader.byte :=
  (follows_bytes 1).bind fun _ => Follows.ofExcept (Halt.trapsOnly_expect _ _)

/-- A reading that begins with a byte may locate its faults by the place behind it. -/
theorem follows_byte_bind {next : UInt8 → InPlace α} {next' : UInt8 → Reader α}
    (h : ∀ here b, FollowsAt origin here (here + 1) (next b) (next' b)) :
    Follows origin lower (Reader.byte >>= next) (Reader.byte >>= next') := by
  intro here hlower bytes hwithin
  have hbyte : Follows origin here Reader.byte Reader.byte := follows_byte
  obtain ⟨halt | b, middle, hfirst⟩ := hbyte here (Nat.le_refl _) bytes hwithin
  · have hrun : Arrives origin here (Reader.byte >>= next) (Reader.byte >>= next') bytes here
        (.error halt) middle := hfirst.bind_error
    exact ⟨_, middle, hrun.mono hlower⟩
  · have hmiddle : middle = here + 1 := by
      have hpasses := (Reader.passes_byte hfirst.left).position
      simp only [List.length_singleton] at hpasses
      omega
    subst hmiddle
    obtain ⟨answer, stop, hsecond⟩ := h here b bytes hfirst.within
    have hrun : Arrives origin here (Reader.byte >>= next) (Reader.byte >>= next') bytes here
        answer stop := hfirst.bind_ok hsecond
    exact ⟨answer, stop, hrun.mono hlower⟩

theorem followsAt_failBefore (here : Nat) (defect : Defect) :
    FollowsAt origin here (here + 1) (Reader.failBefore defect : InPlace α)
      (Reader.failBefore defect) := by
  have hfail : Follows origin here (Reader.failAt here defect : InPlace α)
      (Reader.failAt (here + origin) defect) := Follows.failAt defect
  intro bytes hwithin
  obtain ⟨answer, stop, hrun⟩ := hfail (here + 1) (Nat.le_succ here) bytes hwithin
  have hplace : here + 1 + origin = here + origin + 1 := Nat.add_right_comm here 1 origin
  refine ⟨answer, stop, { hrun with inPlace := hrun.inPlace, left := ?_ }⟩
  rw [hplace]
  exact (Reader.failBefore_succ defect _ _).trans (hplace ▸ hrun.left)

theorem Follows.behind {here : Nat} {step : InPlace α} {read : Reader α}
    (h : Follows origin here step read) : FollowsAt origin here (here + 1) step read :=
  h (here + 1) (Nat.le_succ here)

theorem follows_bool : Follows origin lower Reader.bool Reader.bool := by
  apply follows_byte_bind
  intro here b
  split
  · exact (Follows.pure false).behind
  · split
    · exact (Follows.pure true).behind
    · exact followsAt_failBefore here _

theorem follows_int64 : Follows origin lower Reader.int64 Reader.int64 :=
  (follows_bytes 8).bind fun _ => Follows.pure _

theorem follows_uvarintFrom (groups shift value : Nat) :
    Follows origin lower (Reader.uvarintFrom lower groups shift value)
      (Reader.uvarintFrom (lower + origin) groups shift value) := by
  induction groups generalizing shift value with
  | zero => exact Follows.failAt _
  | succ groups ih =>
    apply follows_byte.bind
    intro b
    split
    · exact Follows.failAt _
    · apply (Follows.ofExcept (Halt.trapsOnly_shiftLeft _ _)).bind
      intro bits
      split
      · exact Follows.pure _
      · exact ih _ _

theorem follows_uvarint : Follows origin lower Reader.uvarint Reader.uvarint :=
  Follows.position fun _ => follows_uvarintFrom 10 0 0

theorem follows_uvarint32 : Follows origin lower Reader.uvarint32 Reader.uvarint32 := by
  apply Follows.position
  intro here
  apply follows_uvarint.bind
  intro value
  split
  · exact Follows.pure _
  · exact Follows.failAt _

theorem follows_count (limit : Nat) :
    Follows origin lower (Reader.count limit) (Reader.count limit) := by
  apply Follows.position
  intro here
  apply follows_uvarint.bind
  intro n
  split
  · exact Follows.failAt _
  · exact Follows.pure n

theorem follows_txnId : Follows origin lower Reader.txnId Reader.txnId := by
  apply follows_uvarint.bind
  intro epoch
  apply follows_uvarint.bind
  intro clock
  apply Follows.position
  intro here
  apply follows_uvarint.bind
  intro flags
  split
  · exact follows_uvarint32.bind fun node => Follows.pure _
  · exact Follows.failAt _

theorem follows_routingKey : Follows origin lower Reader.routingKey Reader.routingKey := by
  apply (follows_bytes 16).bind
  intro table
  apply follows_byte_bind
  intro here tag
  split
  · exact (Follows.pure _).behind
  · split
    · exact (follows_int64.bind fun v => Follows.pure _).behind
    · split
      · exact (Follows.pure _).behind
      · exact followsAt_failBefore here _

theorem follows_routingKeys (limit : Nat) :
    Follows origin lower (Reader.routingKeys limit) (Reader.routingKeys limit) := by
  apply Follows.position
  intro here
  apply (follows_count limit).bind
  intro count
  apply Follows.remaining
  apply (follows_routingKey.times count).bind
  intro keys
  cases SortedList.ofAscending? keys with
  | some keys => exact Follows.pure keys
  | none => exact Follows.failAt _

theorem follows_increasing (size count : Nat) (previous : Option Nat) :
    Follows origin lower (Reader.increasing size count previous)
      (Reader.increasing size count previous) := by
  induction count generalizing lower previous with
  | zero => exact Follows.pure []
  | succ count ih =>
    apply Follows.position
    intro here
    apply follows_uvarint.bind
    intro p
    split
    · exact Follows.failAt _
    · split
      · exact Follows.failAt _
      · exact (ih (some p)).bind fun rest => Follows.pure (p :: rest)

theorem follows_subset (ys : List α) :
    Follows origin lower (Walk.readSubset ys) (Walk.readSubset ys) := by
  apply Follows.position
  intro here
  split
  · next hsmall =>
    have hlt : ys.length < 64 := hsmall
    apply follows_uvarint.bind
    intro bits
    apply (Follows.ofExcept (Halt.trapsOnly_shiftRight _ _)).bind
    intro beyond
    split
    · exact Follows.failAt _
    · rw [Walk.keepUnset_eq (by omega), Marks.ofAbsentBits_eq_map bits (by omega)]
      exact Follows.ofExcept (Halt.trapsOnly_ok _)
  · apply ((follows_count ys.length).mapError _).bind
    intro missing
    apply (Follows.ofExcept (Halt.trapsOnly_minus _ _)).bind
    intro present
    apply (follows_increasing _ _ none).bind
    intro places
    split
    · exact Follows.ofExcept (Halt.TrapsOnly.mapM (fun _ => Halt.trapsOnly_expect _ _) places)
    · exact Follows.pure _

end InPlace

namespace Reading

open InPlace (Follows)
open Step (Safe Delimited)

variable {α : Type}

theorem follows (origin lower : Nat) (reading : Reading α) :
    Follows origin lower reading.inPlace reading.reader := by
  cases reading with
  | byte => exact InPlace.follows_byte
  | bool => exact InPlace.follows_bool
  | int64 => exact InPlace.follows_int64
  | bytes n => exact InPlace.follows_bytes n
  | uvarint => exact InPlace.follows_uvarint
  | uvarint32 => exact InPlace.follows_uvarint32
  | count limit => exact InPlace.follows_count limit
  | txnId => exact InPlace.follows_txnId
  | routingKey => exact InPlace.follows_routingKey
  | routingKeys limit => exact InPlace.follows_routingKeys limit
  | subset superset => exact InPlace.follows_subset superset

theorem safe (reading : Reading α) : Safe reading.reader fun _ => True := by
  cases reading with
  | byte => exact Reader.safe_byte
  | bool => exact Reader.safe_bool
  | int64 => exact Reader.safe_int64
  | bytes n => exact Reader.safe_bytes n
  | uvarint => exact Reader.safe_uvarint.mono fun _ _ => trivial
  | uvarint32 => exact Reader.safe_uvarint32
  | count limit => exact (Reader.safe_count limit).mono fun _ _ => trivial
  | txnId => exact Reader.safe_txnId
  | routingKey => exact Reader.safe_routingKey
  | routingKeys limit => exact (Reader.safe_routingKeys limit).mono fun _ _ => trivial
  | subset superset =>
    rw [reader, read, Walk.readSubset_eq_map]
    exact ((Reader.safe_marks superset.length).mono fun _ _ => trivial).map

theorem delimited (reading : Reading α) : Delimited reading.reader := by
  cases reading with
  | byte => exact Reader.delimited_byte
  | bool => exact Reader.delimited_bool
  | int64 => exact Reader.delimited_int64
  | bytes n => exact Reader.delimited_bytes n
  | uvarint => exact Reader.delimited_uvarint
  | uvarint32 => exact Reader.delimited_uvarint32
  | count limit => exact Reader.delimited_count limit
  | txnId => exact Reader.delimited_txnId
  | routingKey => exact Reader.delimited_routingKey
  | routingKeys limit => exact Reader.delimited_routingKeys limit
  | subset superset =>
    rw [reader, read, Walk.readSubset_eq_map]
    exact (Reader.delimited_marks superset.length).bind fun _ => Delimited.pure _

end Reading

end TxnDeps
