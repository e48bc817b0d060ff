import TxnDeps.Proofs.Wire.Subset
import TxnDeps.Wire.DepsCodec.Form

namespace TxnDeps

namespace Writer

def Puts (write : Writer) (bytes : Bytes) : Prop :=
  ∀ buffer, write.run buffer = (.ok (), buffer ++ bytes)

theorem puts_put (bytes : Bytes) : Puts (put bytes) bytes := fun _ => rfl

theorem Puts.bind {write : Writer} {next : Unit → Writer} {bytes bytes' : Bytes}
    (h : Puts write bytes) (hnext : Puts (next ()) bytes') :
    Puts (write >>= next) (bytes ++ bytes') := by
  intro buffer
  rw [Step.run_bind, h buffer, ← List.append_assoc]
  exact hnext (buffer ++ bytes)

theorem puts_subset {keys superset : RoutingKeys} (h : ∀ k ∈ keys, k ∈ superset) :
    Puts (subset keys superset) (Marks.encode (keys.marks superset)) := by
  rw [subset, SortedList.encodeIn_eq_ok h]
  exact puts_put _

theorem run_of_orNothing {write : Writer} {buffer written : Bytes}
    (h : (orNothing write).run buffer = (.ok (), written)) :
    write.run buffer = (.ok (), written) := by
  change orNothing write buffer = _ at h
  rw [orNothing] at h
  split at h
  · next hrun => exact hrun.trans h
  · cases h

/-- Whatever the buffer, the bytes of the outcome are appended to it, or it is left as it was. -/
def Ends (write : Writer) (outcome : Except Refusal Bytes) : Prop :=
  ∀ buffer, write.run buffer =
    match outcome with
    | .ok bytes => (.ok (), buffer ++ bytes)
    | .error refusal => (.error refusal, buffer)

theorem Puts.ends {write : Writer} {bytes : Bytes} (h : Puts write bytes) :
    Ends write (.ok bytes) := h

namespace Ends

variable {write : Writer} {outcome : Except Refusal Bytes}

theorem puts {bytes : Bytes} (h : Ends write outcome) (hok : outcome = .ok bytes) :
    Puts write bytes := by
  subst hok
  exact h

theorem exists_of_run (h : Ends write outcome) {buffer written : Bytes}
    (hrun : write.run buffer = (.ok (), written)) :
    ∃ bytes, outcome = .ok bytes ∧ written = buffer ++ bytes := by
  rw [h buffer] at hrun
  cases outcome with
  | error refusal => cases hrun
  | ok bytes =>
    cases hrun
    exact ⟨bytes, rfl, rfl⟩

theorem run_eq_error_iff (h : Ends write outcome) {buffer rest : Bytes} {refusal : Refusal} :
    write.run buffer = (.error refusal, rest) ↔ outcome = .error refusal ∧ rest = buffer := by
  rw [h buffer]
  cases outcome with
  | ok bytes => exact ⟨nofun, fun hrefused => nomatch hrefused.1⟩
  | error refusal' =>
    constructor
    · intro he
      cases he
      exact ⟨rfl, rfl⟩
    · rintro ⟨he, rfl⟩
      cases he
      rfl

theorem append (h : Ends write outcome) (bytes : Bytes) :
    Ends (write >>= fun _ => put bytes) (outcome.map (· ++ bytes)) := by
  intro buffer
  rw [Step.run_bind, h buffer]
  cases outcome with
  | error refusal => rfl
  | ok written => exact congrArg (Prod.mk _) (List.append_assoc buffer written bytes)

/-- Bytes that are written in front of what may be refused, and are taken back if it is. -/
theorem orNothing (h : Ends write outcome) (bytes : Bytes) :
    Ends (orNothing (put bytes >>= fun _ => write)) (outcome.map (bytes ++ ·)) := by
  intro buffer
  have hwrite : (put bytes >>= fun _ => write) buffer = write.run (buffer ++ bytes) := rfl
  change Writer.orNothing (put bytes >>= fun _ => write) buffer = _
  rw [Writer.orNothing, hwrite, h (buffer ++ bytes)]
  cases outcome with
  | error refusal => exact congrArg (Prod.mk _) List.take_left
  | ok written => exact congrArg (Prod.mk _) (List.append_assoc buffer bytes written)

end Ends

end Writer

theorem CodecConfig.check_eq_ok_iff {c : CodecConfig} {v : WireVersion} :
    c.check v = .ok () ↔ c.accepts v = true := by
  simp [check]

namespace DepsCodec

open Writer (Ends Puts puts_put)

inductive HasMode (keys : RoutingKeys) (v : WireVersion) : Option RoutingKeys → KeySetMode → Prop
  | full : HasMode keys v none .full
  | relative {superset : RoutingKeys} (subset : ∀ k ∈ keys, k ∈ superset) :
      HasMode keys v (some superset) (.relative superset v.flagsKeySet)
  | flaggedFull {superset : RoutingKeys} (flags : v.flagsKeySet = true) :
      HasMode keys v (some superset) .flaggedFull

theorem keySetMode_eq_ok {c : DepsCodec} {keys : RoutingKeys} {superset? : Option RoutingKeys}
    {v : WireVersion} {mode : KeySetMode} (h : c.keySetMode keys superset? v = .ok mode) :
    c.config.check v = .ok () ∧ HasMode keys v superset? mode := by
  rw [keySetMode.eq_def] at h
  cases hcheck : c.config.check v with
  | error refusal =>
    rw [hcheck] at h
    cases h
  | ok _ =>
    rw [hcheck] at h
    refine ⟨rfl, ?_⟩
    cases superset? with
    | none =>
      cases h
      exact .full
    | some superset =>
      by_cases hsubset : keys.isSubsetOf superset = true
      · have hok : keys.checkSubset superset = .ok () := if_pos hsubset
        simp only [hok] at h
        cases h
        exact .relative (SortedList.isSubsetOf_eq_true_iff.1 hsubset)
      · have herror : ∃ violation, keys.checkSubset superset = .error violation :=
          ⟨_, if_neg hsubset⟩
        obtain ⟨violation, herror⟩ := herror
        by_cases hflags : v.flagsKeySet = true
        · simp only [herror, hflags, if_true] at h
          cases h
          exact .flaggedFull hflags
        · simp only [herror, if_neg hflags] at h
          cases h

def keySetBytes (keys : RoutingKeys) : KeySetMode → Bytes
  | .full => keys.encode
  | .relative superset flagged =>
    (if flagged then Bytes.ofBool true else []) ++ Marks.encode (keys.marks superset)
  | .flaggedFull => Bytes.ofBool false ++ keys.encode

theorem puts_writeKeySet {keys : RoutingKeys} {v : WireVersion} {superset? : Option RoutingKeys}
    {mode : KeySetMode} (h : HasMode keys v superset? mode) :
    Puts (writeKeySet keys mode) (keySetBytes keys mode) := by
  cases h with
  | full => exact puts_put _
  | flaggedFull _ => exact puts_put _
  | relative subset =>
    rw [writeKeySet, keySetBytes]
    cases v.flagsKeySet
    · exact Writer.puts_subset subset
    · exact (puts_put _).bind (Writer.puts_subset subset)

def directBytes (direct keys : RoutingKeys) : Bytes :=
  Bytes.ofBool (direct.isSubsetOf keys) ++
    if direct.isSubsetOf keys then Marks.encode (direct.marks keys) else direct.encode

theorem puts_writeDirectKeys (direct keys : RoutingKeys) :
    Puts (writeDirectKeys direct keys) (directBytes direct keys) := by
  apply (puts_put _).bind
  split
  · next h => exact Writer.puts_subset (SortedList.isSubsetOf_eq_true_iff.1 h)
  · exact puts_put _

def bytes (c : DepsCodec) (d : Deps) (mode : KeySetMode) : Bytes :=
  keySetBytes d.byKey.keys mode ++ (d.byKey.encodeBody ++ (c.encodeRanges d.byRange.keys ++
    (d.byRange.encodeBody ++ (directBytes d.direct.keys d.byKey.keys ++ d.direct.encodeBody))))

theorem puts_write {c : DepsCodec} {d : Deps} {superset? : Option RoutingKeys} {v : WireVersion}
    {mode : KeySetMode} (h : c.keySetMode d.byKey.keys superset? v = .ok mode) :
    Puts (c.write d superset? v) (c.bytes d mode) := by
  have hmode := (keySetMode_eq_ok h).2
  rw [write, h]
  refine (puts_writeKeySet hmode).bind ((puts_put _).bind ((puts_put _).bind ?_))
  exact (puts_put _).bind ((puts_writeDirectKeys _ _).bind (puts_put _))

/-- The bytes that are appended for dependencies, or the reason why they are refused. -/
def outcome (c : DepsCodec) (d : Deps) (superset? : Option RoutingKeys) (v : WireVersion) :
    Except Refusal Bytes :=
  (c.keySetMode d.byKey.keys superset? v).map (c.bytes d)

def outcomePartial (c : DepsCodec) (p : PartialDeps) (superset? : Option RoutingKeys)
    (v : WireVersion) : Except Refusal Bytes :=
  (c.outcome p.deps superset? v).map (· ++ c.encodeParticipants p.covering)

def outcomeNullable {α : Type} (c : DepsCodec) (outcome : α → Except Refusal Bytes)
    (v : WireVersion) : Option α → Except Refusal Bytes
  | none => (c.config.check v).map fun _ => [0]
  | some a => (outcome a).map ([1] ++ ·)

variable {c : DepsCodec} {superset? : Option RoutingKeys} {v : WireVersion}

theorem ends_write (d : Deps) : Ends (c.write d superset? v) (c.outcome d superset? v) := by
  rw [outcome]
  cases h : c.keySetMode d.byKey.keys superset? v with
  | error refusal =>
    intro buffer
    rw [write, h]
    rfl
  | ok mode => exact (puts_write h).ends

theorem outcome_eq_ok {d : Deps} {bytes : Bytes} (h : c.outcome d superset? v = .ok bytes) :
    c.config.check v = .ok () ∧
      ∃ mode, HasMode d.byKey.keys v superset? mode ∧ c.bytes d mode = bytes := by
  obtain ⟨mode, hmode, hbytes⟩ := Halt.map_eq_ok_iff.1 h
  obtain ⟨hcheck, hmode⟩ := keySetMode_eq_ok hmode
  exact ⟨hcheck, mode, hmode, hbytes⟩

theorem ends_writePartial (p : PartialDeps) :
    Ends (c.writePartial p superset? v) (c.outcomePartial p superset? v) :=
  (ends_write p.deps).append (c.encodeParticipants p.covering)

theorem outcomePartial_eq_ok {p : PartialDeps} {bytes : Bytes}
    (h : c.outcomePartial p superset? v = .ok bytes) :
    c.config.check v = .ok () ∧ ∃ mode, HasMode p.deps.byKey.keys v superset? mode ∧
      c.bytes p.deps mode ++ c.encodeParticipants p.covering = bytes := by
  obtain ⟨written, hdeps, hbytes⟩ := Halt.map_eq_ok_iff.1 h
  obtain ⟨hcheck, mode, hmode, rfl⟩ := outcome_eq_ok hdeps
  exact ⟨hcheck, mode, hmode, hbytes⟩

theorem ends_writeNullable {α : Type} {write : α → Writer} {outcome : α → Except Refusal Bytes}
    (h : ∀ a, Ends (write a) (outcome a)) (a? : Option α) :
    Ends (c.writeNullable write v a?) (c.outcomeNullable outcome v a?) := by
  cases a? with
  | none =>
    rw [writeNullable, outcomeNullable]
    cases c.config.check v with
    | error refusal => exact fun _ => rfl
    | ok _ => exact (puts_put [0]).ends
  | some a => exact (h a).orNothing [1]

theorem writeNullable_cases {α : Type} {write : α → Writer} {a? : Option α}
    {buffer written : Bytes}
    (h : (c.writeNullable write v a?).run buffer = (.ok (), written)) :
    (a? = none ∧ c.config.check v = .ok () ∧ written = buffer ++ [0]) ∨
      ∃ a, a? = some a ∧ (write a).run (buffer ++ [1]) = (.ok (), written) := by
  cases a? with
  | none =>
    rw [writeNullable] at h
    cases hcheck : c.config.check v with
    | error refusal =>
      rw [hcheck] at h
      cases h
    | ok _ =>
      rw [hcheck] at h
      cases h
      exact .inl ⟨rfl, rfl, rfl⟩
  | some a =>
    have hboth : (Writer.put [1] >>= fun _ => write a).run buffer = (.ok (), written) :=
      Writer.run_of_orNothing h
    exact .inr ⟨a, rfl, hboth⟩

end DepsCodec

end TxnDeps
