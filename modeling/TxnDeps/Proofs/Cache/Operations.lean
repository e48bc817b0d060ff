import TxnDeps.Proofs.Cache.Custody

namespace TxnDeps

def Node.ended (n : Node) (w : SafeCommand) : Node :=
  { n.putSafe (w.spent .invalidated) with tracker := n.tracker.release w.ref }

namespace Action

variable {α β : Type} {n : Node} {ref : RefId} {w : SafeCommand} {token : Token}

theorem run_safe (h : n.safe? ref = some w) : (safe ref).run n = (.ok w, n) := by
  rw [safe, Step.run_bind_of_ok (Step.run_get n), h]
  rfl

theorem run_safe_none (h : n.safe? ref = none) :
    (safe ref).run n = (.error (.misused (.unknownRef ref)), n) := by
  rw [safe, Step.run_bind_of_ok (Step.run_get n), h]
  rfl

theorem run_checked {check : SafeCommand → Except Stop Unit} {next : SafeCommand → Unit → Action α}
    (h : n.safe? ref = some w) (hcheck : check w = .ok ()) :
    (safe ref >>= fun v => Step.ofExcept (check v) >>= next v).run n = (next w ()).run n := by
  rw [Step.run_bind_of_ok (run_safe h), hcheck]
  rfl

theorem run_checked_refused {check : SafeCommand → Except Stop Unit}
    {next : SafeCommand → Unit → Action α} {s : Stop} (h : n.safe? ref = some w)
    (hcheck : check w = .error s) :
    (safe ref >>= fun v => Step.ofExcept (check v) >>= next v).run n = (.error s, n) := by
  rw [Step.run_bind_of_ok (run_safe h), hcheck]
  rfl

theorem run_look (n : Node) (ref : RefId) (check : SafeCommand → Except Stop Unit)
    (answer : SafeCommand → α) :
    ((safe ref >>= fun w => Step.ofExcept (check w) >>= fun _ => pure (answer w)).run n).2 = n := by
  cases hw : n.safe? ref with
  | none => rw [Step.run_bind_of_error (run_safe_none hw)]
  | some w =>
    rw [Step.run_bind_of_ok (run_safe hw)]
    cases check w <;> rfl

theorem run_attempt {ε : Type} (step : Step Node ε α) :
    (attempt step).run n = (.ok (step.run n).1, (step.run n).2) := rfl

theorem run_onJournal {ε : Type} {step : Step Journal ε α} {result : Except ε α} {j : Journal}
    (h : step.run n.journal = (result, j)) :
    (onJournal step).run n = (result, { n with journal := j }) := by
  have hstep : step n.journal = (result, j) := h
  change onJournal step n = _
  rw [onJournal, hstep]

theorem run_onEntry {id : EntryId} {e : CommandEntry} (he : n.entryAt? id = some e)
    (step : Step CommandEntry Stop α) :
    (onEntry id step).run n = ((step.run e).1, n.putEntry (step.run e).2) := by
  change onEntry id step n = _
  rw [onEntry, he]
  rfl

theorem run_onEntry_none {id : EntryId} (he : n.entryAt? id = none)
    (step : Step CommandEntry Stop α) :
    (onEntry id step).run n = (.error (.misused (.unknownEntry id)), n) := by
  change onEntry id step n = _
  rw [onEntry, he]

section Entry

variable {id : EntryId} {e : CommandEntry}

theorem run_abandon (he : n.entryAt? id = some e) (ht : e.accepts token = true) :
    (abandon id token).run n = (.ok (), n.putEntry (e.freed e.value)) := by
  rw [abandon, run_onEntry he, CacheEntry.run_abandon_of_accepts ht]

theorem run_release {value : Option Command} (he : n.entryAt? id = some e)
    (ht : e.accepts token = true) :
    (release id token value).run n = (.ok (), n.putEntry (e.freed value)) := by
  rw [release, run_onEntry he, CacheEntry.run_release_of_accepts ht]

theorem run_getExclusive_held {holder : Nat} (policy : AcquirePolicy) (he : n.entryAt? id = some e)
    (hid : e.id = id) (hheld : e.holder = some holder) :
    (getExclusive id policy).run n = (.error (e.refusal holder policy), n) := by
  rw [getExclusive, run_onEntry he, CacheEntry.run_getExclusive_of_held policy hheld,
    Node.putEntry_self he hid]

theorem run_getExclusive_free (policy : AcquirePolicy) (he : n.entryAt? id = some e)
    (hfree : e.holder = none) :
    (getExclusive id policy).run n = (.ok (e.value, e.nextToken), n.putEntry e.granted) := by
  rw [getExclusive, run_onEntry he, CacheEntry.run_getExclusive_of_free policy hfree]

end Entry

theorem run_entryOf_some {txn : TxnId} {id : EntryId} (h : n.entryIdOf? txn = some id) :
    (entryOf txn).run n = (.ok id, n) := by
  rw [entryOf, Step.run_bind_of_ok (Step.run_get n), h]
  rfl

theorem run_entryOf_none {txn : TxnId} (h : n.entryIdOf? txn = none) :
    (entryOf txn).run n = (.ok n.nextEntry, n.addEntry txn) := by
  rw [entryOf, Step.run_bind_of_ok (Step.run_get n), h]
  rfl

theorem run_createSafe {txn : TxnId} {id : EntryId} {n' : Node}
    (h : (entryOf txn).run n = (.ok id, n')) :
    (createSafe txn).run n = (.ok (n'.tracker.register txn.text).1, n'.addSafe id txn) := by
  rw [createSafe, Step.run_bind_of_ok h]
  rfl

theorem run_bindSafe {id : EntryId} {e : CommandEntry} (he : n.entryAt? id = some e) :
    (bindSafe id).run n = (.ok (n.tracker.register e.key.text).1, n.addSafe id e.key) := by
  rw [bindSafe, Step.run_bind_of_ok (Step.run_get n), he]
  rfl

theorem run_bindSafe_none {id : EntryId} (he : n.entryAt? id = none) :
    (bindSafe id).run n = (.error (.misused (.unknownEntry id)), n) := by
  rw [bindSafe, Step.run_bind_of_ok (Step.run_get n), he]
  rfl

section PreExecute

variable {e : CommandEntry}

theorem run_preExecute_held {holder : Nat} (policy : AcquirePolicy) (hw : n.safe? ref = some w)
    (hunused : w.state = .unacquired) (he : n.entryAt? w.entry = some e) (hid : e.id = w.entry)
    (hheld : e.holder = some holder) :
    (preExecute ref policy).run n = (.error (e.refusal holder policy), n) := by
  have hcheck := SafeCommand.checkUnused_eq_ok_iff.2 hunused
  exact (run_checked hw hcheck).trans
    (Step.run_bind_of_error (run_getExclusive_held policy he hid hheld))

theorem run_preExecute_free (policy : AcquirePolicy) (hw : n.safe? ref = some w)
    (hunused : w.state = .unacquired) (he : n.entryAt? w.entry = some e) (hfree : e.holder = none) :
    (preExecute ref policy).run n = (.ok (),
      { (n.putEntry e.granted).putSafe (w.acquired e.value e.nextToken) with
        tracker := n.tracker.trace ref "acquired" }) := by
  have hcheck := SafeCommand.checkUnused_eq_ok_iff.2 hunused
  have hgrant := run_getExclusive_free policy he hfree
  rw [preExecute, run_checked hw hcheck, Step.run_bind_of_ok hgrant]
  rfl

end PreExecute

theorem run_giveBack_none (ht : w.token = none) : (giveBack w).run n = (.ok (), n) := by
  rw [giveBack, ht]
  rfl

theorem run_giveBack_some {e : CommandEntry} (he : n.entryAt? w.entry = some e)
    (ht : w.token = some token) (haccepts : e.accepts token = true) :
    (giveBack w).run n = (.ok (), n.putEntry (e.freed e.value)) := by
  have hrun : (attempt (abandon w.entry token)).run n =
      (.ok (.ok ()), n.putEntry (e.freed e.value)) := by
    rw [run_attempt, run_abandon he haccepts]
  rw [giveBack, ht]
  exact Step.run_bind_of_ok hrun

theorem run_invalidate_without_token (hw : n.safe? ref = some w) (ht : w.token = none) :
    (invalidate ref).run n = (.ok (), n.ended w) := by
  obtain ⟨-, rfl⟩ := Node.mem_of_safe? hw
  rw [invalidate, Step.run_bind_of_ok (run_safe hw), Step.run_bind_of_ok (run_giveBack_none ht)]
  rfl

theorem run_invalidate {e : CommandEntry} (hw : n.safe? ref = some w) (ht : w.token = some token)
    (he : n.entryAt? w.entry = some e) (haccepts : e.accepts token = true) :
    (invalidate ref).run n = (.ok (), (n.putEntry (e.freed e.value)).ended w) := by
  obtain ⟨-, rfl⟩ := Node.mem_of_safe? hw
  rw [invalidate, Step.run_bind_of_ok (run_safe hw),
    Step.run_bind_of_ok (run_giveBack_some he ht haccepts)]
  rfl

theorem run_invalidate_spent (hw : n.safe? ref = some w) (state : SafeState) :
    (invalidate ref).run (n.putSafe (w.spent state)) = (.ok (), n.ended w) := by
  obtain ⟨-, rfl⟩ := Node.mem_of_safe? hw
  have hw' := Node.safe?_putSafe hw (w.spent state) rfl
  have hput : (n.putSafe (w.spent state)).putSafe (w.spent .invalidated) =
      n.putSafe (w.spent .invalidated) := Node.putSafe_putSafe rfl
  rw [run_invalidate_without_token hw' rfl]
  exact congrArg
    (fun n' : Node => (Except.ok (), { n' with tracker := n.tracker.release w.ref })) hput

theorem run_drop_without_token (hw : n.safe? ref = some w) (ht : w.token = none) :
    (drop ref).run n = (.ok (), n.removeSafe ref) := by
  rw [drop, Step.run_bind_of_ok (run_safe hw), Step.run_bind_of_ok (run_giveBack_none ht)]
  rfl

def acquireAtOnce (txn : TxnId) (policy : AcquirePolicy) : Action RefId := do
  let ref ← createSafe txn
  match ← attempt (preExecute ref policy) with
  | .ok () => pure ref
  | .error s =>
    invalidate ref
    drop ref
    stop s

theorem run_acquire (txn : TxnId) (n : Node) :
    (acquire txn).run n = match (acquireAtOnce txn n.policy).run n with
      | (.error .blocked, _) => (.error .blocked, n)
      | result => result := rfl

theorem run_acquire_of_taken {txn : TxnId} {n₁ n₂ : Node}
    (hcreate : (createSafe txn).run n = (.ok ref, n₁))
    (htake : (preExecute ref n.policy).run n₁ = (.ok (), n₂)) :
    (acquire txn).run n = (.ok ref, n₂) := by
  have hattempt : (attempt (preExecute ref n.policy)).run n₁ = (.ok (.ok ()), n₂) := by
    rw [run_attempt, htake]
  have hrun : (acquireAtOnce txn n.policy).run n = (.ok ref, n₂) := by
    rw [acquireAtOnce, Step.run_bind_of_ok hcreate, Step.run_bind_of_ok hattempt]
    rfl
  rw [run_acquire, hrun]

/-- Who does not get the entry lets go of the safe command, which has no token then. -/
theorem run_acquire_of_refused {txn : TxnId} {n₁ : Node} {s : Stop}
    (hcreate : (createSafe txn).run n = (.ok ref, n₁))
    (htake : (preExecute ref n.policy).run n₁ = (.error s, n₁)) (hw : n₁.safe? ref = some w)
    (ht : w.token = none) : (acquire txn).run n =
      (.error s, if s = .blocked then n else (n₁.ended w).removeSafe w.ref) := by
  obtain ⟨-, rfl⟩ := Node.mem_of_safe? hw
  have hattempt : (attempt (preExecute w.ref n.policy)).run n₁ = (.ok (.error s), n₁) := by
    rw [run_attempt, htake]
  have hended : (n₁.ended w).safe? w.ref = some (w.spent .invalidated) :=
    Node.safe?_putSafe hw (w.spent .invalidated) rfl
  have hrun : (acquireAtOnce txn n.policy).run n =
      (.error s, (n₁.ended w).removeSafe w.ref) := by
    rw [acquireAtOnce, Step.run_bind_of_ok hcreate, Step.run_bind_of_ok hattempt]
    change (invalidate w.ref >>= fun _ => drop w.ref >>= fun _ => stop s).run n₁ = _
    rw [Step.run_bind_of_ok (run_invalidate_without_token hw ht),
      Step.run_bind_of_ok (run_drop_without_token hended rfl)]
    rfl
  rw [run_acquire, hrun]
  cases s <;> rfl

theorem run_global (hw : n.safe? ref = some w) (hvalid : w.state ≠ .invalidated) :
    (global ref).run n = (.ok w.entry, n) :=
  run_checked hw (SafeCommand.checkValid_eq_ok_iff.2 hvalid)

theorem run_takeToken (hw : n.safe? ref = some w) (hvalid : w.state ≠ .invalidated) :
    (takeToken ref).run n = (.ok w.token, n.putSafe (w.spent w.state)) :=
  run_checked hw (SafeCommand.checkValid_eq_ok_iff.2 hvalid)

theorem takeToken_refused_or (n : Node) (ref : RefId) :
    (∃ s, (takeToken ref).run n = (.error s, n)) ∨
      ∃ w, n.safe? ref = some w ∧ w.state ≠ .invalidated := by
  cases hw : n.safe? ref with
  | none =>
    left
    rw [takeToken, Step.run_bind_of_error (run_safe_none hw)]
    exact ⟨_, rfl⟩
  | some w =>
    by_cases hstate : w.state = .invalidated
    · left
      exact ⟨_, run_checked_refused hw (if_pos hstate)⟩
    · exact .inr ⟨w, rfl, hstate⟩

theorem run_releaseUnchanged_without_token (hw : n.safe? ref = some w)
    (hvalid : w.state ≠ .invalidated) (ht : w.token = none) :
    (releaseUnchanged ref).run n = (.ok (), n.ended w) := by
  rw [releaseUnchanged, Step.run_bind_of_ok (run_takeToken hw hvalid), ht]
  exact Step.run_bind_of_ok (run_invalidate_spent hw w.state)

/-- The token is out of the safe command for a while, but nobody else gets hold of it. -/
theorem run_releaseUnchanged {e : CommandEntry} (hw : n.safe? ref = some w)
    (hvalid : w.state ≠ .invalidated) (ht : w.token = some token)
    (he : n.entryAt? w.entry = some e) (haccepts : e.accepts token = true) :
    (releaseUnchanged ref).run n = (.ok (), (n.putEntry (e.freed e.value)).ended w) := by
  obtain ⟨-, href⟩ := Node.mem_of_safe? hw
  have hw₁ := Node.safe?_putSafe hw (w.spent w.state) href
  have he₁ : (n.putSafe (w.spent w.state)).entryAt? w.entry = some e := he
  have habandon : (attempt (abandon w.entry token)).run (n.putSafe (w.spent w.state)) =
      (.ok (.ok ()), (n.putEntry (e.freed e.value)).putSafe (w.spent w.state)) := by
    rw [run_attempt, run_abandon he₁ haccepts]
    rfl
  have hw₂ : (n.putEntry (e.freed e.value)).safe? ref = some w := hw
  rw [releaseUnchanged, Step.run_bind_of_ok (run_takeToken hw hvalid), ht]
  change (global ref >>= fun entry => attempt (abandon entry token) >>= fun abandoned =>
    invalidate ref >>= fun _ => Step.ofExcept abandoned).run _ = _
  rw [Step.run_bind_of_ok (run_global hw₁ hvalid)]
  change (attempt (abandon w.entry token) >>= _).run _ = _
  rw [Step.run_bind_of_ok habandon]
  exact Step.run_bind_of_ok (run_invalidate_spent hw₂ w.state)

theorem run_evict (n : Node) (txn : TxnId) :
    (∃ e, n.entryOf? txn = some e ∧ n.references e.id = 0 ∧ e.holder = none ∧
      (evict txn).run n = (.ok true, n.evicted txn)) ∨
    (∀ e, n.entryOf? txn = some e → n.references e.id = 0 → e.holder ≠ none) ∧
      (evict txn).run n = (.ok false, n) := by
  have hholder : ∀ e : CommandEntry, (!e.isHeld) = true ↔ e.holder = none := by
    intro e
    simp [CacheEntry.isHeld]
  cases he : n.entryOf? txn with
  | none =>
    refine .inr ⟨?_, ?_⟩
    · rintro _ ⟨⟩
    · rw [evict, Step.run_bind_of_ok (Step.run_get n), he]
      rfl
  | some e =>
    by_cases hidle : n.references e.id = 0 ∧ (!e.isHeld) = true
    · refine .inl ⟨e, rfl, hidle.1, (hholder e).1 hidle.2, ?_⟩
      rw [evict, Step.run_bind_of_ok (Step.run_get n), he]
      simp only [if_pos hidle]
      rfl
    · refine .inr ⟨?_, ?_⟩
      · rintro _ ⟨⟩ hnone hfree
        exact hidle ⟨hnone, (hholder e).2 hfree⟩
      · rw [evict, Step.run_bind_of_ok (Step.run_get n), he]
        simp only [if_neg hidle]
        rfl

theorem run_update (hw : n.safe? ref = some w) (hactive : w.state = .active) :
    (update ref).run n = (.ok w.toUpdate, n) :=
  run_checked hw (SafeCommand.checkActive_eq_ok_iff.2 hactive)

theorem run_update_refused (hw : n.safe? ref = some w) (hactive : w.state ≠ .active) :
    ∃ misuse, (update ref).run n = (.error (.misused misuse), n) := by
  rw [update, Step.run_bind_of_ok (run_safe hw), SafeCommand.checkActive]
  cases hstate : w.state with
  | active => exact absurd hstate hactive
  | invalidated => exact ⟨_, rfl⟩
  | unacquired => exact ⟨_, rfl⟩

section Commit

variable {record : CommandUpdate → Step Journal Error Unit} {e : CommandEntry} {j : Journal}

theorem run_commitTo_none (hw : n.safe? ref = none) :
    (commitTo ref record).run n = (.error (.misused (.unknownRef ref)), n) :=
  Step.run_bind_of_error (Step.run_bind_of_error (run_safe_none hw))

theorem run_commitTo_refused (hw : n.safe? ref = some w) (hactive : w.state ≠ .active)
    (record : CommandUpdate → Step Journal Error Unit) :
    ∃ misuse, (commitTo ref record).run n = (.error (.misused misuse), n) := by
  obtain ⟨misuse, hrun⟩ := run_update_refused hw hactive
  exact ⟨misuse, Step.run_bind_of_error hrun⟩

theorem run_commitTo_of_active (hw : n.safe? ref = some w) (hactive : w.state = .active) :
    (commitTo ref record).run n = ((match w.token with
      | none => do
        invalidate ref
        stop (.failed (.argument (.accessGone w.txn)))
      | some token => do
        match ← attempt (onJournal (record w.toUpdate)) with
        | .error e =>
          let abandoned ← attempt (abandon w.entry token)
          invalidate ref
          Step.ofExcept abandoned
          stop (.failed e)
        | .ok () =>
          let released ← attempt (release w.entry token w.current)
          invalidate ref
          Step.ofExcept released
          pure w.toUpdate : Action CommandUpdate)).run (n.putSafe (w.spent w.state)) := by
  have hvalid : w.state ≠ .invalidated := by
    rw [hactive]
    exact SafeState.noConfusion
  rw [commitTo, Step.run_bind_of_ok (run_update hw hactive),
    Step.run_bind_of_ok (run_global hw hvalid), Step.run_bind_of_ok (run_takeToken hw hvalid)]
  rfl

theorem run_commitTo_without_token (hw : n.safe? ref = some w) (hactive : w.state = .active)
    (ht : w.token = none) : (commitTo ref record).run n =
      (.error (.failed (.argument (.accessGone w.txn))), n.ended w) := by
  rw [run_commitTo_of_active hw hactive, ht]
  exact Step.run_bind_of_ok (run_invalidate_spent hw w.state)

theorem run_attempt_record {result : Except Error Unit}
    (hrecord : (record w.toUpdate).run n.journal = (result, j)) :
    (attempt (onJournal (record w.toUpdate))).run (n.putSafe (w.spent w.state)) =
      (.ok result, ({ n with journal := j } : Node).putSafe (w.spent w.state)) := by
  have hjournal : (record w.toUpdate).run (n.putSafe (w.spent w.state)).journal = (result, j) :=
    hrecord
  rw [run_attempt, run_onJournal hjournal]
  rfl

theorem run_commitTo_failed {error : Error} (hw : n.safe? ref = some w)
    (hactive : w.state = .active) (ht : w.token = some token) (he : n.entryAt? w.entry = some e)
    (haccepts : e.accepts token = true)
    (hrecord : (record w.toUpdate).run n.journal = (.error error, j)) :
    (commitTo ref record).run n = (.error (.failed error),
      (({ n with journal := j } : Node).putEntry (e.freed e.value)).ended w) := by
  let n₁ : Node := { n with journal := j }
  have he₁ : (n₁.putSafe (w.spent w.state)).entryAt? w.entry = some e := he
  have habandon : (attempt (abandon w.entry token)).run (n₁.putSafe (w.spent w.state)) =
      (.ok (.ok ()), (n₁.putEntry (e.freed e.value)).putSafe (w.spent w.state)) := by
    rw [run_attempt, run_abandon he₁ haccepts]
    rfl
  have hw₁ : (n₁.putEntry (e.freed e.value)).safe? ref = some w := hw
  rw [run_commitTo_of_active hw hactive, ht]
  change (attempt (onJournal (record w.toUpdate)) >>= _).run _ = _
  rw [Step.run_bind_of_ok (run_attempt_record hrecord)]
  change (attempt (abandon w.entry token) >>= _).run _ = _
  rw [Step.run_bind_of_ok habandon, Step.run_bind_of_ok (run_invalidate_spent hw₁ w.state)]
  rfl

theorem run_commitTo_recorded (hw : n.safe? ref = some w) (hactive : w.state = .active)
    (ht : w.token = some token) (he : n.entryAt? w.entry = some e)
    (haccepts : e.accepts token = true)
    (hrecord : (record w.toUpdate).run n.journal = (.ok (), j)) :
    (commitTo ref record).run n = (.ok w.toUpdate,
      (({ n with journal := j } : Node).putEntry (e.freed w.current)).ended w) := by
  let n₁ : Node := { n with journal := j }
  have he₁ : (n₁.putSafe (w.spent w.state)).entryAt? w.entry = some e := he
  have hrelease : (attempt (release w.entry token w.current)).run (n₁.putSafe (w.spent w.state)) =
      (.ok (.ok ()), (n₁.putEntry (e.freed w.current)).putSafe (w.spent w.state)) := by
    rw [run_attempt, run_release he₁ haccepts]
    rfl
  have hw₁ : (n₁.putEntry (e.freed w.current)).safe? ref = some w := hw
  rw [run_commitTo_of_active hw hactive, ht]
  change (attempt (onJournal (record w.toUpdate)) >>= _).run _ = _
  rw [Step.run_bind_of_ok (run_attempt_record hrecord)]
  change (attempt (release w.entry token w.current) >>= _).run _ = _
  rw [Step.run_bind_of_ok hrelease, Step.run_bind_of_ok (run_invalidate_spent hw₁ w.state)]
  rfl

theorem commitTo_cases {tokens : List Token} (h : n.Secure tokens) (ref : RefId)
    (record : CommandUpdate → Step Journal Error Unit) :
    (∃ misuse, (commitTo ref record).run n = (.error (.misused misuse), n)) ∨
    ∃ w ∈ n.safes, (w.token = none ∧ (commitTo ref record).run n =
        (.error (.failed (.argument (.accessGone w.txn))), n.ended w)) ∨
      ∃ token e j, w.token = some token ∧ n.entryAt? w.entry = some e ∧ e.key = w.txn ∧
        e.accepts token = true ∧
        ((∃ error, (record w.toUpdate).run n.journal = (.error error, j) ∧
          (commitTo ref record).run n = (.error (.failed error),
            (({ n with journal := j } : Node).putEntry (e.freed e.value)).ended w)) ∨
        (record w.toUpdate).run n.journal = (.ok (), j) ∧
          (commitTo ref record).run n = (.ok w.toUpdate,
            (({ n with journal := j } : Node).putEntry (e.freed w.current)).ended w)) := by
  cases hw : n.safe? ref with
  | none => exact .inl ⟨_, run_commitTo_none hw⟩
  | some w =>
    obtain ⟨hmem, -⟩ := Node.mem_of_safe? hw
    by_cases hactive : w.state = .active
    · refine .inr ⟨w, hmem, ?_⟩
      obtain ⟨e, he, -, hkey, htoken⟩ := h.exists_entry hmem
      cases ht : w.token with
      | none => exact .inl ⟨rfl, run_commitTo_without_token hw hactive ht⟩
      | some token =>
        have haccepts := htoken token ht
        rcases hrecord : (record w.toUpdate).run n.journal with ⟨error | _, j⟩
        · have hrun := run_commitTo_failed hw hactive ht he haccepts hrecord
          exact .inr ⟨token, e, j, rfl, he, hkey, haccepts, .inl ⟨error, rfl, hrun⟩⟩
        · have hrun := run_commitTo_recorded hw hactive ht he haccepts hrecord
          exact .inr ⟨token, e, j, rfl, he, hkey, haccepts, .inr ⟨rfl, hrun⟩⟩
    · exact .inl (run_commitTo_refused hw hactive record)

end Commit

/-- Whether or not the operation has an answer, what holds before it holds after it. -/
def Preserves (P : Node → Prop) (action : Action α) : Prop := ∀ n, P n → P (action.run n).2

namespace Preserves

variable {P : Node → Prop}

theorem pure (a : α) : Preserves P (pure a) := fun _ h => h

theorem stop (s : Stop) : Preserves P (stop s : Action α) := fun _ h => h

theorem bind {action : Action α} {next : α → Action β} (h : Preserves P action)
    (hnext : ∀ a, Preserves P (next a)) : Preserves P (action >>= next) := by
  intro n hn
  have hkept := h n hn
  rw [Step.run_bind]
  rcases hrun : action.run n with ⟨_ | a, n'⟩
  · rw [hrun] at hkept
    exact hkept
  · rw [hrun] at hkept
    exact hnext a n' hkept

theorem attempt {action : Action α} (h : Preserves P action) : Preserves P (attempt action) :=
  fun n hn => h n hn

theorem safe_bind {next : SafeCommand → Action α}
    (h : ∀ n w, P n → n.safe? ref = some w → P ((next w).run n).2) :
    Preserves P (safe ref >>= next) := by
  intro n hn
  cases hw : n.safe? ref with
  | none =>
    rw [Step.run_bind_of_error (run_safe_none hw)]
    exact hn
  | some w =>
    rw [Step.run_bind_of_ok (run_safe hw)]
    exact h n w hn hw

theorem check_bind {check : Except Stop α} {next : α → Action β} (h : P n)
    (hnext : ∀ a, check = .ok a → P ((next a).run n).2) :
    P ((Step.ofExcept check >>= next).run n).2 := by
  cases check with
  | error stop => exact h
  | ok a => exact hnext a rfl

end Preserves

end Action

/-- Survives each of the changes that the operations consist of. Safe commands may be set to any
command that is admitted. -/
structure Node.Invariant (P : Node → Prop) (admits : Command → Prop) : Prop where
  secure : ∀ n, P n → ∃ tokens, n.Secure tokens
  traced : ∀ n tracker, P n → tracker.next = n.tracker.next → P { n with tracker := tracker }
  entryAdded : ∀ n txn, P n → n.entryIdOf? txn = none → P (n.addEntry txn)
  safeAdded : ∀ n id e, P n → n.entryAt? id = some e → n.entryIdOf? e.key = some id →
    P (n.addSafe id e.key)
  safeRemoved : ∀ n ref, P n → P (n.removeSafe ref)
  edited : ∀ n w c, P n → w ∈ n.safes → w.state = .active → admits c →
    P (n.putSafe { w with current := some c })
  initialised : ∀ n w, P n → w ∈ n.safes → admits w.initialised
  granted : ∀ n w e, P n → w ∈ n.safes → w.state = .unacquired → n.entryAt? w.entry = some e →
    e.holder = none → P ((n.putEntry e.granted).putSafe (w.acquired e.value e.nextToken))
  spent : ∀ n w state, P n → w ∈ n.safes → w.token = none → w.state.Ends state →
    P (n.putSafe (w.spent state))
  freed : ∀ n w e token state, P n → w ∈ n.safes → n.entryAt? w.entry = some e →
    w.token = some token → e.accepts token = true → w.state.Ends state →
      P ((n.putEntry (e.freed e.value)).putSafe (w.spent state))

namespace Node.Invariant

open TxnDeps.Action

variable {P : Node → Prop} {admits : Command → Prop}

theorem exists_entry (inv : Node.Invariant P admits) {n : Node} (h : P n) {w : SafeCommand}
    (hw : w ∈ n.safes) : ∃ e, n.entryAt? w.entry = some e ∧ e.id = w.entry ∧ e.key = w.txn ∧
      ∀ token ∈ w.token, e.accepts token = true := by
  obtain ⟨tokens, hsecure⟩ := inv.secure n h
  exact hsecure.exists_entry hw

/-- Whether or not the safe command has a token, its entry is free of it afterwards. -/
theorem exists_run_giveBack (inv : Node.Invariant P admits) {n : Node} (h : P n) {w : SafeCommand}
    (hw : w ∈ n.safes) :
    ∃ n', (giveBack w).run n = (.ok (), n') ∧
      ∀ state, w.state.Ends state → P (n'.putSafe (w.spent state)) := by
  obtain ⟨e, he, -, -, htoken⟩ := inv.exists_entry h hw
  cases ht : w.token with
  | none => exact ⟨n, run_giveBack_none ht, fun state hends => inv.spent n w state h hw ht hends⟩
  | some token =>
    have haccepts := htoken token ht
    exact ⟨_, run_giveBack_some he ht haccepts,
      fun state hends => inv.freed n w e token state h hw he ht haccepts hends⟩

theorem invalidate (inv : Node.Invariant P admits) (ref : RefId) :
    Preserves P (invalidate ref) := by
  apply Preserves.safe_bind
  intro n w h hw
  obtain ⟨n', hrun, hspent⟩ := inv.exists_run_giveBack h (Node.mem_of_safe? hw).1
  rw [Step.run_bind_of_ok hrun]
  exact inv.traced _ _ (hspent .invalidated (.inr rfl)) rfl

theorem drop (inv : Node.Invariant P admits) (ref : RefId) : Preserves P (drop ref) := by
  apply Preserves.safe_bind
  intro n w h hw
  obtain ⟨hmem, href⟩ := Node.mem_of_safe? hw
  obtain ⟨n', hrun, hspent⟩ := inv.exists_run_giveBack h hmem
  have hremove := inv.safeRemoved _ ref (hspent w.state (.inl rfl))
  have hsame : (n'.putSafe (w.spent w.state)).removeSafe ref = n'.removeSafe ref :=
    removeSafe_putSafe href
  rw [hsame] at hremove
  rw [Step.run_bind_of_ok hrun]
  exact hremove

theorem exists_run_entryOf (inv : Node.Invariant P admits) {n : Node} (h : P n) (txn : TxnId) :
    ∃ id n' e, (entryOf txn).run n = (.ok id, n') ∧ P n' ∧ n'.entryAt? id = some e ∧
      n'.entryIdOf? txn = some id ∧ e.key = txn := by
  cases hid : n.entryIdOf? txn with
  | some id =>
    obtain ⟨tokens, hsecure⟩ := inv.secure n h
    obtain ⟨e, he, hkey⟩ := hsecure.cached txn id hid
    exact ⟨id, n, e, run_entryOf_some hid, h, he, hid, hkey⟩
  | none =>
    have hget : (n.addEntry txn).entryAt? n.nextEntry =
        some (CacheEntry.create n.nextEntry txn none) := by
      rw [entryAt?_addEntry]
      exact if_pos rfl
    have hplace : (n.addEntry txn).entryIdOf? txn = some n.nextEntry := by
      rw [entryIdOf?_addEntry hid, if_pos rfl]
    exact ⟨n.nextEntry, n.addEntry txn, _, run_entryOf_none hid, inv.entryAdded n txn h hid, hget,
      hplace, rfl⟩

theorem createSafe (inv : Node.Invariant P admits) (txn : TxnId) :
    Preserves P (createSafe txn) := by
  intro n h
  obtain ⟨id, n', e, hrun, h', he, hid, rfl⟩ := inv.exists_run_entryOf h txn
  rw [run_createSafe hrun]
  exact inv.safeAdded n' id e h' he hid

theorem preExecute (inv : Node.Invariant P admits) (ref : RefId) (policy : AcquirePolicy) :
    Preserves P (preExecute ref policy) := by
  apply Preserves.safe_bind
  intro n w h hw
  apply Preserves.check_bind h
  intro _ hcheck
  have hunused := SafeCommand.checkUnused_eq_ok_iff.1 hcheck
  obtain ⟨hmem, href⟩ := Node.mem_of_safe? hw
  obtain ⟨e, he, hid, -, -⟩ := inv.exists_entry h hmem
  cases hholder : e.holder with
  | some holder =>
    rw [Step.run_bind_of_error (run_getExclusive_held policy he hid hholder)]
    exact h
  | none =>
    rw [Step.run_bind_of_ok (run_getExclusive_free policy he hholder)]
    exact inv.traced _ _ (inv.granted n w e h hmem hunused he hholder) rfl

/-- A call that would wait leaves no trace; any other that fails lets go of its safe command. -/
theorem acquire (inv : Node.Invariant P admits) (txn : TxnId) : Preserves P (acquire txn) := by
  intro n h
  change P (Action.acquire txn n).2
  rw [Action.acquire]
  split
  · exact h
  · refine (inv.createSafe txn).bind (fun ref => ?_) n h
    refine (inv.preExecute ref n.policy).attempt.bind fun result => ?_
    cases result with
    | ok _ => exact .pure ref
    | error s => exact (inv.invalidate ref).bind fun _ => (inv.drop ref).bind fun _ => .stop s

theorem initialise (inv : Node.Invariant P admits) (ref : RefId) :
    Preserves P (initialise ref) := by
  apply Preserves.safe_bind
  intro n w h hw
  apply Preserves.check_bind h
  intro _ hcheck
  have hactive := SafeCommand.checkActive_eq_ok_iff.1 hcheck
  have hmem := (Node.mem_of_safe? hw).1
  exact inv.edited n w _ h hmem hactive (inv.initialised n w h hmem)

theorem set (inv : Node.Invariant P admits) (ref : RefId) {c : Command} (hc : admits c) :
    Preserves P (set ref c) := by
  apply Preserves.safe_bind
  intro n w h hw
  apply Preserves.check_bind h
  intro _ hcheck
  have hactive := SafeCommand.checkActive_eq_ok_iff.1 hcheck
  exact inv.edited n w c h (Node.mem_of_safe? hw).1 hactive hc

theorem releaseUnchanged (inv : Node.Invariant P admits) (ref : RefId) :
    Preserves P (releaseUnchanged ref) := by
  intro n h
  obtain ⟨s, hrun⟩ | ⟨w, hw, hvalid⟩ := takeToken_refused_or n ref
  · rw [Action.releaseUnchanged, Step.run_bind_of_error hrun]
    exact h
  · obtain ⟨hmem, -⟩ := Node.mem_of_safe? hw
    obtain ⟨e, he, -, -, htoken⟩ := inv.exists_entry h hmem
    cases ht : w.token with
    | none =>
      rw [run_releaseUnchanged_without_token hw hvalid ht]
      exact inv.traced _ _ (inv.spent n w .invalidated h hmem ht (.inr rfl)) rfl
    | some token =>
      have haccepts := htoken token ht
      rw [run_releaseUnchanged hw hvalid ht he haccepts]
      exact inv.traced _ _ (inv.freed n w e token .invalidated h hmem he ht haccepts (.inr rfl)) rfl

end Node.Invariant

end TxnDeps
