import TxnDeps.Proofs.Cache.Consistency

namespace TxnDeps

/-- The calls of clients, each of which is one step of the node. A client that waits for an entry
makes its safe command first and takes the entry later, in steps of their own. -/
inductive Call where
  | acquire (txn : TxnId)
  | createSafe (txn : TxnId)
  | preExecute (ref : RefId) (policy : AcquirePolicy)
  | initialise (ref : RefId)
  | set (ref : RefId) (c : Command)
  | commit (ref : RefId) (recorder : Recorder)
  | releaseUnchanged (ref : RefId)
  | invalidate (ref : RefId)
  | drop (ref : RefId)

namespace Call

def action : Call → Action (Option CommandUpdate)
  | acquire txn => (fun _ => none) <$> Action.acquire txn
  | createSafe txn => (fun _ => none) <$> Action.createSafe txn
  | preExecute ref policy => (fun _ => none) <$> Action.preExecute ref policy
  | initialise ref => (fun _ => none) <$> Action.initialise ref
  | set ref c => (fun _ => none) <$> Action.set ref c
  | commit ref recorder => some <$> Action.commit ref recorder
  | releaseUnchanged ref => (fun _ => none) <$> Action.releaseUnchanged ref
  | invalidate ref => (fun _ => none) <$> Action.invalidate ref
  | drop ref => (fun _ => none) <$> Action.drop ref

def Recordable : Call → Prop
  | set _ c => c.Recordable
  | _ => True

/-- The node after the call, and the updates that were committed up to then. -/
def next (state : Node × List CommandUpdate) (call : Call) : Node × List CommandUpdate :=
  match call.action.run state.1 with
  | (.ok (some u), n) => (n, state.2 ++ [u])
  | (_, n) => (n, state.2)

def run (calls : List Call) (n : Node) : Node × List CommandUpdate := calls.foldl next (n, [])

section Next

variable {n n' : Node} {us : List CommandUpdate} {call : Call}

theorem next_of_error {s : Stop} (h : call.action.run n = (.error s, n')) :
    next (n, us) call = (n', us) := by
  rw [next, h]

theorem next_of_none (h : call.action.run n = (.ok none, n')) :
    next (n, us) call = (n', us) := by
  rw [next, h]

theorem next_of_some {u : CommandUpdate} (h : call.action.run n = (.ok (some u), n')) :
    next (n, us) call = (n', us ++ [u]) := by
  rw [next, h]

theorem consistent_next_of_preserves {α : Type} {step : Action α}
    (hcall : call.action = (fun _ => none) <$> step)
    (hstep : Action.Preserves (·.Consistent us) step) (h : n.Consistent us) :
    (next (n, us) call).1.Consistent (next (n, us) call).2 := by
  have hkept : (step.run n).2.Consistent us := hstep n h
  rcases hresult : step.run n with ⟨s | a, n'⟩
  · rw [hresult] at hkept
    have hrun : call.action.run n = (.error s, n') := by
      rw [hcall]
      exact Step.run_bind_of_error hresult
    rw [next_of_error hrun]
    exact hkept
  · rw [hresult] at hkept
    have hrun : call.action.run n = (.ok none, n') := by
      rw [hcall]
      exact Step.run_bind_of_ok hresult
    rw [next_of_none hrun]
    exact hkept

theorem consistent_next_commit (h : n.Consistent us) (ref : RefId) (recorder : Recorder) :
    (next (n, us) (commit ref recorder)).1.Consistent (next (n, us) (commit ref recorder)).2 := by
  obtain ⟨u, n', hcommit, hn'⟩ | ⟨s, n', hcommit, hn'⟩ := h.commit_cases ref recorder
  · have hrun : (commit ref recorder).action.run n = (.ok (some u), n') :=
      Step.run_bind_of_ok hcommit
    rw [next_of_some hrun]
    exact hn'
  · have hrun : (commit ref recorder).action.run n = (.error s, n') :=
      Step.run_bind_of_error hcommit
    rw [next_of_error hrun]
    exact hn'

theorem consistent_next (h : n.Consistent us) (hcall : call.Recordable) :
    (next (n, us) call).1.Consistent (next (n, us) call).2 := by
  have inv := Node.Consistent.invariant us
  cases call with
  | acquire txn => exact consistent_next_of_preserves rfl (inv.acquire txn) h
  | createSafe txn => exact consistent_next_of_preserves rfl (inv.createSafe txn) h
  | preExecute ref policy => exact consistent_next_of_preserves rfl (inv.preExecute ref policy) h
  | initialise ref => exact consistent_next_of_preserves rfl (inv.initialise ref) h
  | set ref c => exact consistent_next_of_preserves rfl (inv.set ref hcall) h
  | releaseUnchanged ref => exact consistent_next_of_preserves rfl (inv.releaseUnchanged ref) h
  | invalidate ref => exact consistent_next_of_preserves rfl (inv.invalidate ref) h
  | drop ref => exact consistent_next_of_preserves rfl (inv.drop ref) h
  | commit ref recorder => exact consistent_next_commit h ref recorder

end Next

theorem consistent_run (calls : List Call) (hcalls : ∀ call ∈ calls, call.Recordable)
    {n : Node} (h : n.Consistent []) : (run calls n).1.Consistent (run calls n).2 := by
  have hgeneral : ∀ state : Node × List CommandUpdate, state.1.Consistent state.2 →
      (calls.foldl next state).1.Consistent (calls.foldl next state).2 := by
    induction calls with
    | nil => exact fun _ hstate => hstate
    | cons call calls ih =>
      intro state hstate
      have hfirst := consistent_next hstate (hcalls call List.mem_cons_self)
      exact ih (fun call' hmem => hcalls call' (List.mem_cons_of_mem call hmem)) _ hfirst
  exact hgeneral (n, []) h

end Call

theorem Journal.updates_eq {j : Journal} {us : List CommandUpdate}
    (hrecorded : j.records = us.map (·.toBytes)) (hus : ∀ u ∈ us, u.Recordable) :
    j.updates = .ok us := by
  rw [Journal.updates, hrecorded]
  clear hrecorded
  induction us with
  | nil => rfl
  | cons u us ih =>
    have hhead := CommandUpdate.ofBytes_toBytes (hus u List.mem_cons_self)
    have htail := ih fun v hv => hus v (List.mem_cons_of_mem u hv)
    rw [List.map_cons, List.mapM_cons, hhead, htail]
    rfl

namespace Node.Consistent

variable {n : Node} {us : List CommandUpdate}

theorem updates_eq (h : n.Consistent us) : n.journal.updates = .ok us :=
  Journal.updates_eq h.recorded h.recordable

theorem updatesFor_eq (h : n.Consistent us) (txn : TxnId) :
    n.journal.updatesFor txn = .ok (us.filter (·.txn = txn)) := by
  rw [Journal.updatesFor, h.updates_eq]
  rfl

theorem replay_eq (h : n.Consistent us) (txn : TxnId) :
    n.journal.replay txn = .ok (n.peek txn) := by
  rw [Journal.replay, h.updatesFor_eq]
  exact congrArg Except.ok (h.chains txn).last_eq

end Node.Consistent

namespace Call

/-- After any calls the journal has the updates that were committed, each once and in their order.
Those of a transaction are a chain from nothing to the value of its entry, where the last of them
leaves it and where a replay ends. -/
theorem journal_agrees (policy : AcquirePolicy) (calls : List Call)
    (hcalls : ∀ call ∈ calls, call.Recordable) :
    ∃ n committed, run calls (.empty policy) = (n, committed) ∧
      n.journal.updates = .ok committed ∧ ∀ txn, ∃ chain, n.journal.updatesFor txn = .ok chain ∧
        Chained none chain (n.peek txn) ∧ chain.getLast?.bind (·.after) = n.peek txn ∧
        n.journal.replay txn = .ok (n.peek txn) := by
  have h := consistent_run calls hcalls (Node.Consistent.empty policy)
  refine ⟨_, _, rfl, h.updates_eq, fun txn => ?_⟩
  exact ⟨_, h.updatesFor_eq txn, h.chains txn, (h.chains txn).last_eq, h.replay_eq txn⟩

/-- A commit that is recorded, one that is refused, a call that fails because the entry is taken,
and a safe command that is dropped with its token. -/
theorem journal_agrees_sample :
    let t : TxnId := ⟨1, 10, 0, 1⟩
    let deps : PartialDeps := ⟨.keys (.ofList [.token (.ofNat 7) 1]), sampleDeps⟩
    let c : Command := ⟨t, .committed, none, .zero, some deps⟩
    let calls : List Call := [.acquire t, .initialise ⟨1⟩, .acquire t, .commit ⟨1⟩ .journal,
      .acquire t, .set ⟨3⟩ c, .commit ⟨3⟩ .journal,
      .acquire t, .set ⟨4⟩ (.uninitialised t), .commit ⟨4⟩ (.refusing (.journal "disk full")),
      .acquire t, .drop ⟨5⟩]
    (∀ call ∈ calls, call.Recordable) ∧ (run calls (.empty .failFast)).2.length = 2 ∧
      ∃ n committed, run calls (.empty .failFast) = (n, committed) ∧
        n.journal.updates = .ok committed ∧
        committed.map (·.after) = [some (.uninitialised t), some c] ∧
        n.peek t = some c ∧ n.journal.replay t = .ok (some c) := by
  intro t deps c calls
  have hsample : sampleDeps.Recordable :=
    ⟨⟨sampleDeps_wellFormed.byKey, by decide⟩, ⟨sampleDeps_wellFormed.byRange, by decide⟩,
      ⟨sampleDeps_wellFormed.direct, by decide⟩, by decide⟩
  have hset : c.Recordable := by
    intro p hp
    cases hp
    exact ⟨hsample, by decide, nofun⟩
  have hcalls : ∀ call ∈ calls, call.Recordable := by
    simp only [calls, List.forall_mem_cons]
    exact ⟨trivial, trivial, trivial, trivial, trivial, hset, trivial, trivial,
      Command.recordable_uninitialised t, trivial, trivial, trivial, nofun⟩
  obtain ⟨n, committed, hrun, hupdates, hall⟩ := journal_agrees .failFast calls hcalls
  obtain ⟨chain, -, -, -, hreplay⟩ := hall t
  have hpeek : (run calls (.empty .failFast)).1.peek t = some c := by decide
  have hafter : (run calls (.empty .failFast)).2.map (·.after) =
      [some (.uninitialised t), some c] := by decide
  rw [hrun] at hpeek hafter
  rw [hpeek] at hreplay
  exact ⟨hcalls, by decide, n, committed, hrun, hupdates, hafter, hpeek, hreplay⟩

end Call

end TxnDeps
