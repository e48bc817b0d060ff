import TxnDeps.Error
import TxnDeps.Proofs.Wire.InPlace

namespace TxnDeps

theorem mapError_shift_zero {α : Type} (answer : Except (Halt Fault) α) :
    answer.mapError (Halt.map (Fault.shift 0)) = answer := by
  obtain (fault | trap) | a := answer <;> rfl

namespace Buffer

theorem exists_remaining {bytes : Bytes} {place : Nat} (h : place ≤ bytes.length) :
    ∃ left, remaining ⟨bytes, place⟩ = .ok left ∧ place + left = bytes.length :=
  ⟨_, Halt.minus_eq_ok h, Nat.add_sub_of_le h⟩

end Buffer

namespace Reading

variable {α : Type}

/-- What a reading does from a place of the buffer on: it ends at `stop` with the answer. -/
structure Sound (reading : Reading α) (bytes : Bytes) (here : Nat)
    (answer : Except (Halt Fault) α) (stop : Nat) : Prop where
  inPlace : reading.inPlace.run ⟨bytes, here⟩ = (answer, ⟨bytes, stop⟩)
  reader : reading.reader.run ⟨bytes.drop here, here⟩ = (answer, ⟨bytes.drop stop, stop⟩)
  forward : here ≤ stop
  within : stop ≤ bytes.length
  remaining : ∀ place ∈ [here, stop], ∃ left,
    Buffer.remaining ⟨bytes, place⟩ = .ok left ∧ place + left = bytes.length
  corrupt : ∀ halt, answer = .error halt → ∃ fault, halt = .failed fault ∧
    (Error.ofFault fault).isCorruption = true ∧ (Error.ofFault fault).message =
      "Data corruption: " ++ (s!"offset {fault.offset}: " ++ fault.defect.detail) ∧
    here ≤ fault.offset ∧ fault.offset ≤ stop
  window : ∀ a, answer = .ok a → ∀ bytes' here', here' ≤ bytes'.length →
    (bytes'.drop here').take (stop - here) = (bytes.drop here).take (stop - here) →
    reading.inPlace.run ⟨bytes', here'⟩ = (.ok a, ⟨bytes', here' + (stop - here)⟩)

theorem exists_taken (reading : Reading α) {bytes : Bytes} {here stop : Nat} {a : α} (origin : Nat)
    (h : here ≤ bytes.length)
    (hrun : reading.inPlace.run ⟨bytes, here⟩ = (.ok a, ⟨bytes, stop⟩)) :
    ∃ taken, (bytes.drop here).take (stop - here) = taken ∧ taken.length = stop - here ∧
      ∀ suffix, reading.reader.run ⟨taken ++ suffix, here + origin⟩ =
        (.ok a, ⟨suffix, here + origin + taken.length⟩) := by
  obtain ⟨answer, middle, hfirst⟩ := reading.follows origin here here (Nat.le_refl _) bytes h
  have hends := hfirst.inPlace.symm.trans hrun
  cases hends
  obtain ⟨taken, htaken, hdelimits⟩ := reading.delimited _ a _ hfirst.left
  change bytes.drop here = taken ++ bytes.drop stop at htaken
  have hlen : taken.length = stop - here := by
    have hlengths := congrArg List.length htaken
    rw [List.length_append, List.length_drop, List.length_drop] at hlengths
    have hforward := hfirst.forward
    have hwithin := hfirst.within
    omega
  refine ⟨taken, ?_, hlen, hdelimits.reads⟩
  rw [htaken, ← hlen, List.take_left]

/-- Both buffers are compared at one place of the cursor, which is as far behind the one reading as
the other reading is from its start. -/
theorem run_of_window (reading : Reading α) {bytes bytes' : Bytes} {here here' stop : Nat} {a : α}
    (h : here ≤ bytes.length) (h' : here' ≤ bytes'.length)
    (hrun : reading.inPlace.run ⟨bytes, here⟩ = (.ok a, ⟨bytes, stop⟩))
    (hwindow : (bytes'.drop here').take (stop - here) = (bytes.drop here).take (stop - here)) :
    reading.inPlace.run ⟨bytes', here'⟩ = (.ok a, ⟨bytes', here' + (stop - here)⟩) := by
  obtain ⟨taken, htaken, hlen, hreads⟩ := reading.exists_taken here' h hrun
  obtain ⟨answer, stop', hsecond⟩ := reading.follows here here' here' (Nat.le_refl _) bytes' h'
  have hfront : bytes'.drop here' = taken ++ (bytes'.drop here').drop (stop - here) := by
    nth_rewrite 1 [← List.take_append_drop (stop - here) (bytes'.drop here')]
    rw [hwindow, htaken]
  have hread := hreads ((bytes'.drop here').drop (stop - here))
  rw [← hfront, Nat.add_comm here, hsecond.left] at hread
  obtain ⟨hanswer, hcursor⟩ := Prod.mk.inj hread
  have hstop : stop' = here' + (stop - here) := by
    have hposition := congrArg Cursor.position hcursor
    simp only at hposition
    omega
  obtain halt | b := answer
  · cases hanswer
  · cases hanswer
    rw [hsecond.inPlace, hstop]

theorem exists_sound (reading : Reading α) {bytes : Bytes} {here : Nat} (h : here ≤ bytes.length) :
    ∃ answer stop, reading.Sound bytes here answer stop := by
  obtain ⟨answer, stop, hrun⟩ := reading.follows 0 here here (Nat.le_refl _) bytes h
  have hreader : reading.reader.run ⟨bytes.drop here, here⟩ =
      (answer, ⟨bytes.drop stop, stop⟩) := by
    have hleft := hrun.left
    rwa [mapError_shift_zero] at hleft
  refine ⟨answer, stop, hrun.inPlace, hreader, hrun.forward, hrun.within, ?_, ?_, ?_⟩
  · intro place hplace
    apply Buffer.exists_remaining
    obtain rfl | hstop := List.mem_cons.1 hplace
    · exact h
    · rw [List.mem_singleton.1 hstop]
      exact hrun.within
  · rintro halt rfl
    have hsafe := reading.safe ⟨bytes.drop here, here⟩
    rw [hreader] at hsafe
    obtain fault | trap := halt
    · exact ⟨fault, rfl, rfl, rfl, hrun.located fault rfl⟩
    · exact absurd hsafe id
  · rintro a rfl bytes' here' h' hwindow
    exact reading.run_of_window h h' hrun.inPlace hwindow

end Reading

theorem Buffer.exists_after {bytes : Bytes} {here : Nat} (h : here ≤ bytes.length)
    (readings : List ((α : Type) × Reading α)) :
    ∃ stop, (⟨bytes, here⟩ : Buffer).after readings = ⟨bytes, stop⟩ ∧ here ≤ stop ∧
      stop ≤ bytes.length := by
  induction readings generalizing here with
  | nil => exact ⟨here, rfl, Nat.le_refl _, h⟩
  | cons reading readings ih =>
    obtain ⟨answer, middle, hsound⟩ := reading.2.exists_sound h
    obtain ⟨stop, hafter, hforward, hwithin⟩ := ih hsound.within
    refine ⟨stop, ?_, Nat.le_trans hsound.forward hforward, hwithin⟩
    rw [Buffer.after, List.foldl_cons, hsound.inPlace]
    exact hafter

/-- Each of any readings one after the other is sound, those before it having failed or not. -/
theorem Reading.sound_after (bytes : Bytes) (earlier : List ((β : Type) × Reading β)) {α : Type}
    (reading : Reading α) :
    ∃ here answer stop, (Buffer.start bytes).after earlier = ⟨bytes, here⟩ ∧
      reading.Sound bytes here answer stop := by
  obtain ⟨here, hafter, -, hwithin⟩ := Buffer.exists_after (Nat.zero_le bytes.length) earlier
  obtain ⟨answer, stop, hsound⟩ := reading.exists_sound hwithin
  exact ⟨here, answer, stop, hafter, hsound⟩

/-- A boolean that is none and a count above its limit are passed by, and the number behind them is
read as it would be by itself. -/
theorem Reading.sound_after_failures :
    let bytes : Bytes := [2, 7, 0x80, 1, 9]
    (Buffer.start bytes).after [⟨Bool, .bool⟩, ⟨Nat, .count 5⟩] = ⟨bytes, 2⟩ ∧
      (Reading.bool.inPlace.run ⟨bytes, 0⟩).1 = .error (.failed ⟨0, .boolean 2⟩) ∧
      ((Reading.count 5).inPlace.run ⟨bytes, 1⟩).1 = .error (.failed ⟨1, .tooMany 7 5⟩) ∧
      Reading.uvarint.inPlace.run ⟨bytes, 2⟩ = (.ok 128, ⟨bytes, 4⟩) ∧
      Reading.uvarint.inPlace.run ⟨[0x80, 1], 0⟩ = (.ok 128, ⟨[0x80, 1], 2⟩) := by
  intro bytes
  obtain ⟨here, answer, stop, hafter, hsound⟩ :=
    Reading.sound_after bytes [⟨Bool, .bool⟩, ⟨Nat, .count 5⟩] .uvarint
  have hplace : (Buffer.start bytes).after [⟨Bool, .bool⟩, ⟨Nat, .count 5⟩] = ⟨bytes, 2⟩ := rfl
  have hnumber : Reading.uvarint.inPlace.run ⟨bytes, 2⟩ = (.ok 128, ⟨bytes, 4⟩) := rfl
  rw [hplace] at hafter
  cases hafter
  have hanswer := hsound.inPlace.symm.trans hnumber
  cases hanswer
  exact ⟨hplace, rfl, rfl, hnumber, hsound.window 128 rfl [0x80, 1] 0 (Nat.zero_le _) rfl⟩

end TxnDeps
