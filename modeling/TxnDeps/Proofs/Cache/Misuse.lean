import TxnDeps.Proofs.Cache.Session

namespace TxnDeps

theorem CacheEntry.refusal_ne_misused {κ ν : Type} [Outline κ] (e : CacheEntry κ ν) (holder : Nat)
    (policy : AcquirePolicy) (misuse : Misuse) : e.refusal holder policy ≠ .misused misuse := by
  cases policy <;> exact Stop.noConfusion

namespace SafeCall

def action (ref : RefId) (policy : AcquirePolicy) (c : Command) : SafeCall → Action Unit
  | preExecute => Action.preExecute ref policy
  | initialise => (fun _ => ()) <$> Action.initialise ref
  | current => (fun _ => ()) <$> Action.current ref
  | snapshot => (fun _ => ()) <$> Action.snapshot ref
  | global => (fun _ => ()) <$> Action.global ref
  | set => Action.set ref c
  | update => (fun _ => ()) <$> Action.update ref
  | takeToken => (fun _ => ()) <$> Action.takeToken ref

def check (call : SafeCall) (w : SafeCommand) : Except Stop Unit :=
  match call with
  | preExecute => w.checkUnused
  | initialise | set | update => w.checkActive call
  | current | snapshot | global | takeToken => w.checkValid call

variable {call : SafeCall} {w : SafeCommand}

theorem check_of_invalidated (call : SafeCall) (hstate : w.state = .invalidated) :
    call.check w = .error (.misused (.invalidated call w.txn)) := by
  cases call <;>
    simp [check, SafeCommand.checkUnused, SafeCommand.checkActive, SafeCommand.checkValid, hstate]

theorem check_of_unacquired (hcall : call = .initialise ∨ call = .set ∨ call = .update)
    (hstate : w.state = .unacquired) :
    call.check w = .error (.misused (.unacquired call w.txn)) := by
  obtain rfl | rfl | rfl := hcall <;> simp [check, SafeCommand.checkActive, hstate]

theorem check_of_active (hstate : w.state = .active) :
    check .preExecute w = .error (.misused (.reused .active w.txn)) := by
  simp [check, SafeCommand.checkUnused, hstate]

theorem run_of_refused {n : Node} {ref : RefId} (hw : n.safe? ref = some w) {stop : Stop}
    (hcheck : call.check w = .error stop) (policy : AcquirePolicy) (c : Command) :
    (call.action ref policy c).run n = (.error stop, n) := by
  cases call with
  | preExecute => exact Action.run_checked_refused hw hcheck
  | initialise => exact Step.run_map_of_error (Action.run_checked_refused hw hcheck)
  | current => exact Step.run_map_of_error (Action.run_checked_refused hw hcheck)
  | snapshot => exact Step.run_map_of_error (Action.run_checked_refused hw hcheck)
  | global => exact Step.run_map_of_error (Action.run_checked_refused hw hcheck)
  | set => exact Action.run_checked_refused hw hcheck
  | update => exact Step.run_map_of_error (Action.run_checked_refused hw hcheck)
  | takeToken => exact Step.run_map_of_error (Action.run_checked_refused hw hcheck)

end SafeCall

namespace Action

variable {α β : Type} {n : Node} {ref : RefId}

/-- If the call is a misuse, the node is left as it is. -/
def Spares (n : Node) (action : Action α) : Prop :=
  ∀ misuse n', action.run n = (.error (.misused misuse), n') → n' = n

namespace Spares

theorem of_ok {action : Action α} {a : α} {n' : Node} (h : action.run n = (.ok a, n')) :
    Spares n action := by
  intro misuse n₁ hrun
  rw [h] at hrun
  cases hrun

theorem of_kept {action : Action α} (h : (action.run n).2 = n) : Spares n action := by
  intro misuse n' hrun
  rw [hrun] at h
  exact h

theorem of_stop {action : Action α} {s : Stop} {n' : Node} (h : action.run n = (.error s, n'))
    (hs : ∀ misuse, s ≠ .misused misuse) : Spares n action := by
  intro misuse n₁ hrun
  rw [h] at hrun
  cases hrun
  exact absurd rfl (hs misuse)

theorem map {action : Action α} (h : Spares n action) (f : α → β) : Spares n (f <$> action) := by
  intro misuse n' hrun
  rcases hstep : action.run n with ⟨s | a, n₁⟩
  · rw [Step.run_map_of_error hstep] at hrun
    cases hrun
    exact h misuse n' hstep
  · rw [Step.run_map_of_ok hstep] at hrun
    cases hrun

theorem safe_bind {next : SafeCommand → Action α}
    (h : ∀ w, n.safe? ref = some w → Spares n (next w)) : Spares n (safe ref >>= next) := by
  cases hw : n.safe? ref with
  | none => exact of_kept (by rw [Step.run_bind_of_error (run_safe_none hw)])
  | some w =>
    intro misuse n' hrun
    rw [Step.run_bind_of_ok (run_safe hw)] at hrun
    exact h w hw misuse n' hrun

theorem check_bind {check : Except Stop α} {next : α → Action β}
    (h : ∀ a, check = .ok a → Spares n (next a)) : Spares n (Step.ofExcept check >>= next) := by
  cases check with
  | error s => exact of_kept rfl
  | ok a => exact h a rfl

end Spares

theorem exists_run_entryOf (n : Node) (txn : TxnId) :
    ∃ id n', (entryOf txn).run n = (.ok id, n') := by
  cases hid : n.entryIdOf? txn with
  | some id => exact ⟨id, n, run_entryOf_some hid⟩
  | none => exact ⟨_, _, run_entryOf_none hid⟩

theorem spares_createSafe (txn : TxnId) : Spares n (createSafe txn) := by
  obtain ⟨id, n', hrun⟩ := exists_run_entryOf n txn
  exact .of_ok (run_createSafe hrun)

theorem spares_openHandle (txn : TxnId) : Spares n (openHandle txn) := by
  obtain ⟨id, n', hrun⟩ := exists_run_entryOf n txn
  exact .of_ok (Step.run_bind_of_ok hrun)

theorem spares_evict (txn : TxnId) : Spares n (evict txn) := by
  obtain ⟨e, -, -, -, hrun⟩ | ⟨-, hrun⟩ := run_evict n txn
  · exact .of_ok hrun
  · exact .of_ok hrun

theorem spares_bindSafe (id : EntryId) : Spares n (bindSafe id) := by
  cases he : n.entryAt? id with
  | none => exact .of_kept (by rw [run_bindSafe_none he])
  | some e => exact .of_ok (run_bindSafe he)

theorem spares_initialise (ref : RefId) : Spares n (initialise ref) :=
  .safe_bind fun _ _ => .check_bind fun _ _ => .of_ok rfl

theorem spares_set (ref : RefId) (c : Command) : Spares n (set ref c) :=
  .safe_bind fun _ _ => .check_bind fun _ _ => .of_ok rfl

theorem spares_takeToken (ref : RefId) : Spares n (takeToken ref) :=
  .safe_bind fun _ _ => .check_bind fun _ _ => .of_ok rfl

end Action

namespace Node.Secure

open TxnDeps.Action (Spares)

variable {n : Node} {tokens : List Token}

theorem preExecute_cases (h : n.Secure tokens) (ref : RefId) (policy : AcquirePolicy) :
    (∃ misuse, (Action.preExecute ref policy).run n = (.error (.misused misuse), n)) ∨
    ∃ w e, n.safe? ref = some w ∧ w.state = .unacquired ∧ n.entryAt? w.entry = some e ∧
      ((∃ holder, e.holder = some holder ∧
        (Action.preExecute ref policy).run n = (.error (e.refusal holder policy), n)) ∨
      e.holder = none ∧ (Action.preExecute ref policy).run n = (.ok (),
        { (n.putEntry e.granted).putSafe (w.acquired e.value e.nextToken) with
          tracker := n.tracker.trace ref "acquired" })) := by
  cases hw : n.safe? ref with
  | none => exact .inl ⟨_, Step.run_bind_of_error (Action.run_safe_none hw)⟩
  | some w =>
    cases hstate : w.state with
    | invalidated =>
      exact .inl ⟨_, Action.run_checked_refused hw
        (SafeCall.check_of_invalidated .preExecute hstate)⟩
    | active => exact .inl ⟨_, Action.run_checked_refused hw (SafeCall.check_of_active hstate)⟩
    | unacquired =>
      obtain ⟨e, he, hid, -, -⟩ := h.exists_entry (mem_of_safe? hw).1
      refine .inr ⟨w, e, rfl, hstate, he, ?_⟩
      cases hholder : e.holder with
      | some holder =>
        exact .inl ⟨holder, rfl, Action.run_preExecute_held policy hw hstate he hid hholder⟩
      | none => exact .inr ⟨rfl, Action.run_preExecute_free policy hw hstate he hholder⟩

theorem spares_preExecute (h : n.Secure tokens) (ref : RefId) (policy : AcquirePolicy) :
    Spares n (Action.preExecute ref policy) := by
  obtain ⟨misuse, hrun⟩ | ⟨w, e, -, -, -, ⟨holder, -, hrun⟩ | ⟨-, hrun⟩⟩ :=
    h.preExecute_cases ref policy
  · exact .of_kept (by rw [hrun])
  · exact .of_kept (by rw [hrun])
  · exact .of_ok hrun

theorem spares_giveBack (h : n.Secure tokens) (ref : RefId) (last : SafeCommand → Node → Node) :
    Spares n (Action.safe ref >>= fun w => Action.giveBack w >>= fun _ =>
      Step.modify (last w)) := by
  apply Spares.safe_bind
  intro w hw
  obtain ⟨n', hrun, -⟩ := (invariant tokens).exists_run_giveBack h (mem_of_safe? hw).1
  exact .of_ok (Step.run_bind_of_ok hrun)

theorem spares_invalidate (h : n.Secure tokens) (ref : RefId) :
    Spares n (Action.invalidate ref) :=
  h.spares_giveBack ref fun w n' => { n'.putSafe (w.spent .invalidated) with
    tracker := n'.tracker.release ref }

theorem spares_drop (h : n.Secure tokens) (ref : RefId) : Spares n (Action.drop ref) :=
  h.spares_giveBack ref fun _ n' => n'.removeSafe ref

theorem spares_releaseUnchanged (h : n.Secure tokens) (ref : RefId) :
    Spares n (Action.releaseUnchanged ref) := by
  obtain ⟨s, hrun⟩ | ⟨w, hw, hvalid⟩ := Action.takeToken_refused_or n ref
  · refine .of_kept ?_
    rw [Action.releaseUnchanged, Step.run_bind_of_error hrun]
  · obtain ⟨e, he, -, -, htoken⟩ := h.exists_entry (mem_of_safe? hw).1
    cases ht : w.token with
    | none => exact .of_ok (Action.run_releaseUnchanged_without_token hw hvalid ht)
    | some token => exact .of_ok (Action.run_releaseUnchanged hw hvalid ht he (htoken token ht))

theorem spares_commitTo (h : n.Secure tokens) (ref : RefId)
    (record : CommandUpdate → Step Journal Error Unit) :
    Spares n (Action.commitTo ref record) := by
  obtain ⟨misuse, hrun⟩ | ⟨w, -, ⟨-, hrun⟩ | ⟨token, e, j, -, -, -, -, hrecorded⟩⟩ :=
    Action.commitTo_cases h ref record
  · exact .of_kept (by rw [hrun])
  · exact .of_stop hrun fun _ => Stop.noConfusion
  · obtain ⟨error, -, hrun⟩ | ⟨-, hrun⟩ := hrecorded
    · exact .of_stop hrun fun _ => Stop.noConfusion
    · exact .of_ok hrun

theorem spares_onEntry {α : Type} (h : n.Secure tokens) {id : EntryId}
    {step : Step CommandEntry Stop α}
    (hstep : ∀ e, (∃ a e', step.run e = (.ok a, e')) ∨ ∃ s, step.run e = (.error s, e)) :
    Spares n (Action.onEntry id step) := by
  cases he : n.entryAt? id with
  | none => exact .of_kept (by rw [Action.run_onEntry_none he])
  | some e =>
    have hrun := Action.run_onEntry he step
    obtain ⟨a, e', hok⟩ | ⟨s, herror⟩ := hstep e
    · rw [hok] at hrun
      exact .of_ok hrun
    · rw [herror, putEntry_self he (h.entries id e he).1] at hrun
      exact .of_kept (by rw [hrun])

theorem exists_run_entryOf (h : n.Secure tokens) (txn : TxnId) :
    ∃ id n' e, (Action.entryOf txn).run n = (.ok id, n') ∧ n'.Secure tokens ∧
      n'.entryAt? id = some e ∧ e.key = txn ∧ e.value = n.peek txn ∧
      (n.entryOf? txn = some e ∨ e.holder = none) := by
  cases hid : n.entryIdOf? txn with
  | some id =>
    obtain ⟨e, he, hkey⟩ := h.cached txn id hid
    have hentry : n.entryOf? txn = some e := by
      rw [entryOf?, hid]
      exact he
    have hvalue : e.value = n.peek txn := by
      rw [peek, hentry]
      rfl
    exact ⟨id, n, e, Action.run_entryOf_some hid, h, he, hkey, hvalue, .inl hentry⟩
  | none =>
    have hget := entryAt?_addEntry (n := n) txn n.nextEntry
    rw [if_pos rfl] at hget
    exact ⟨_, _, _, Action.run_entryOf_none hid, h.addEntry hid, hget, rfl,
      (peek_of_none hid).symm, .inr rfl⟩

/-- What acquiring comes to: a safe command is made that takes the entry, or one that ends at
once. -/
theorem acquire_runs (h : n.Secure tokens) (txn : TxnId) :
    ∃ id n' e, (Action.entryOf txn).run n = (.ok id, n') ∧ e.value = n.peek txn ∧
      (n.entryOf? txn = some e ∨ e.holder = none) ∧
      ∃ w, w = .create (n'.tracker.register txn.text).1 id txn ∧
        (n'.addSafe id txn).safe? w.ref = some w ∧
        ((∃ holder, e.holder = some holder ∧ (Action.acquire txn).run n =
          (.error (e.refusal holder n.policy), if e.refusal holder n.policy = .blocked then n
            else ((n'.addSafe id txn).ended w).removeSafe w.ref)) ∨
        e.holder = none ∧ (Action.acquire txn).run n = (.ok w.ref,
          { ((n'.addSafe id txn).putEntry e.granted).putSafe (w.acquired e.value e.nextToken) with
            tracker := (n'.tracker.register txn.text).2.trace w.ref "acquired" })) := by
  obtain ⟨id, n', e, hentry, h', he, rfl, hvalue, hplace⟩ := h.exists_run_entryOf txn
  -- The new safe command is found under its number, and has no token to give back.
  let w : SafeCommand := .create (n'.tracker.register e.key.text).1 id e.key
  have hcreate : (Action.createSafe e.key).run n = (.ok w.ref, n'.addSafe id e.key) :=
    Action.run_createSafe hentry
  have hmem : w ∈ (n'.addSafe id e.key).safes :=
    List.mem_append_right _ (List.mem_singleton_self w)
  have hw : (n'.addSafe id e.key).safe? w.ref = some w := safe?_of_mem (h'.addSafe he).refs hmem
  have he₁ : (n'.addSafe id e.key).entryAt? w.entry = some e := he
  refine ⟨id, n', e, hentry, hvalue, hplace, w, rfl, hw, ?_⟩
  cases hholder : e.holder with
  | none =>
    have htake := Action.run_preExecute_free n.policy hw rfl he₁ hholder
    exact .inr ⟨rfl, Action.run_acquire_of_taken hcreate htake⟩
  | some holder =>
    have hid : e.id = w.entry := (h'.entries id e he).1
    have htake := Action.run_preExecute_held n.policy hw rfl he₁ hid hholder
    exact .inl ⟨holder, rfl, Action.run_acquire_of_refused hcreate htake hw rfl⟩

theorem acquire_cases (h : n.Secure tokens) (txn : TxnId) :
    (∃ e holder n', n.entryOf? txn = some e ∧ e.holder = some holder ∧
      (Action.acquire txn).run n = (.error (e.refusal holder n.policy), n')) ∨
    ∃ ref w n', (Action.acquire txn).run n = (.ok ref, n') ∧ n'.safe? ref = some w ∧
      w.state = .active ∧ w.snapshot = n.peek txn := by
  obtain ⟨id, n', e, -, hvalue, hplace, w, -, hw, ⟨holder, hholder, hrun⟩ | ⟨-, hrun⟩⟩ :=
    h.acquire_runs txn
  · obtain hplace | hfree := hplace
    · exact .inl ⟨e, holder, _, hplace, hholder, hrun⟩
    · rw [hholder] at hfree
      cases hfree
  · have hfound := safe?_putSafe (n := (n'.addSafe id txn).putEntry e.granted) hw
      (w.acquired e.value e.nextToken) rfl
    exact .inr ⟨_, _, _, hrun, hfound, rfl, hvalue⟩

/-- A safe command that is made to take its entry at once may have to go again, but it is never
used out of turn. -/
theorem spares_acquire (h : n.Secure tokens) (txn : TxnId) : Spares n (Action.acquire txn) := by
  obtain ⟨e, holder, n', -, -, hrun⟩ | ⟨ref, w, n', hrun, -⟩ := h.acquire_cases txn
  · exact .of_stop hrun (e.refusal_ne_misused holder n.policy)
  · exact .of_ok hrun

end Node.Secure

/-- No request changes anything if it is a misuse. -/
theorem Request.spares {n : Node} {tokens : List Token} (h : n.Secure tokens) (r : Request) :
    Action.Spares n r.action := by
  cases r with
  | acquire txn => exact (h.spares_acquire txn).map _
  | createSafe txn => exact (Action.spares_createSafe txn).map _
  | preExecute ref policy => exact (h.spares_preExecute ref policy).map _
  | initialise ref => exact (Action.spares_initialise ref).map _
  | set ref c => exact (Action.spares_set ref c).map _
  | commit ref record => exact (h.spares_commitTo ref record).map _
  | releaseUnchanged ref => exact (h.spares_releaseUnchanged ref).map _
  | invalidate ref => exact (h.spares_invalidate ref).map _
  | drop ref => exact (h.spares_drop ref).map _
  | takeToken ref => exact Action.spares_takeToken ref
  | openHandle txn => exact (Action.spares_openHandle txn).map _
  | closeHandle id => exact .of_ok rfl
  | getExclusive id policy =>
    refine (h.spares_onEntry fun e => ?_).map _
    cases hholder : e.holder with
    | none => exact .inl ⟨_, _, CacheEntry.run_getExclusive_of_free policy hholder⟩
    | some holder => exact .inr ⟨_, CacheEntry.run_getExclusive_of_held policy hholder⟩
  | release id token value =>
    refine (h.spares_onEntry fun e => ?_).map _
    by_cases haccepts : e.accepts token = true
    · exact .inl ⟨_, _, CacheEntry.run_release_of_accepts haccepts value⟩
    · exact .inr ⟨_, CacheEntry.run_release_of_stale haccepts value⟩
  | abandon id token =>
    refine (h.spares_onEntry fun e => ?_).map _
    by_cases haccepts : e.accepts token = true
    · exact .inl ⟨_, _, CacheEntry.run_abandon_of_accepts haccepts⟩
    · exact .inr ⟨_, CacheEntry.run_abandon_of_stale haccepts⟩
  | forget token => exact .of_ok rfl
  | evict txn => exact (Action.spares_evict txn).map _
  | journal step => exact .of_ok rfl

end TxnDeps
