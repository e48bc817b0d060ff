import TxnDeps.Proofs.Cache.Account

namespace TxnDeps

namespace Action

theorem run_snapshot {n : Node} {ref : RefId} {w : SafeCommand} (hw : n.safe? ref = some w)
    (hvalid : w.state ≠ .invalidated) : (snapshot ref).run n = (.ok w.snapshot, n) :=
  run_checked hw (SafeCommand.checkValid_eq_ok_iff.2 hvalid)

end Action

namespace Node.Secure

variable {n n' : Node} {tokens : List Token} {txn : TxnId}

/-- Whoever acquires a transaction finds the value of its entry, or nothing if it has none. -/
theorem run_snapshot_of_acquire (h : n.Secure tokens) {ref : RefId}
    (hrun : (Action.acquire txn).run n = (.ok ref, n')) :
    (Action.snapshot ref).run n' = (.ok (n.peek txn), n') := by
  obtain ⟨e, holder, n₁, -, -, hcase⟩ | ⟨ref₁, w, n₁, hcase, hw, hactive, hvalue⟩ :=
    h.acquire_cases txn
  · rw [hcase] at hrun
    cases hrun
  · rw [hcase] at hrun
    cases hrun
    have hvalid : w.state ≠ .invalidated := by
      rw [hactive]
      exact SafeState.noConfusion
    rw [Action.run_snapshot hw hvalid, hvalue]

theorem exists_run_acquire_of_none (h : n.Secure tokens) (hnone : n.entryIdOf? txn = none) :
    ∃ ref n', (Action.acquire txn).run n = (.ok ref, n') ∧
      (Action.snapshot ref).run n' = (.ok none, n') := by
  obtain ⟨e, holder, -, hentry, -⟩ | ⟨ref, w, n', hrun, -⟩ := h.acquire_cases txn
  · rw [entryOf?, hnone] at hentry
    cases hentry
  · have hsnapshot := h.run_snapshot_of_acquire hrun
    rw [peek_of_none hnone] at hsnapshot
    exact ⟨ref, n', hrun, hsnapshot⟩

end Node.Secure

namespace Node.Recounts

variable {n : Node} {policy : AcquirePolicy} {us : List CommandUpdate} {txn : TxnId}

theorem updatesFor_eq (h : (Node.empty policy).Recounts us n) (txn : TxnId) :
    n.journal.updatesFor txn = .ok (us.filter (·.txn = txn)) := by
  rw [Journal.updatesFor, Journal.updates_eq h.recorded h.updates]
  rfl

theorem told_of_empty (h : (Node.empty policy).Recounts us n) (txn : TxnId) :
    Restarted none (us.filter (·.txn = txn)) (n.peek txn) := by
  have hnone : (Node.empty policy).peek txn = none := rfl
  exact hnone ▸ h.told txn

theorem replay_eq (h : (Node.empty policy).Recounts us n) (hsome : n.peek txn ≠ none) :
    n.journal.replay txn = .ok (n.peek txn) := by
  rw [Journal.replay, h.updatesFor_eq]
  exact congrArg Except.ok ((h.told_of_empty txn).last_eq hsome)

end Node.Recounts

namespace Session

/-- The transaction has no entry any more, though the journal is as it was. -/
structure Forgets (s s' : Session) (txn : TxnId) : Prop where
  journal : s'.node.journal = s.node.journal
  entry : s'.node.entryIdOf? txn = none
  acquired : ∃ ref n, (Action.acquire txn).run s'.node = (.ok ref, n) ∧
    (Action.snapshot ref).run n = (.ok none, n)

/-- What the journal tells of a transaction that was forgotten between the two sessions. -/
structure Resumes (s t : Session) (txn : TxnId) (before after : List CommandUpdate) : Prop where
  told : s.node.journal.updatesFor txn = .ok before
  chained : Restarted none before (s.node.peek txn)
  replayed : s.node.peek txn ≠ none → s.node.journal.replay txn = .ok (s.node.peek txn)
  retold : t.node.journal.updatesFor txn = .ok (before ++ after)
  restarted : Restarted none after (t.node.peek txn)
  first : ∀ u ∈ after.head?, u.before = none
  untouched : after = [] → t.node.peek txn = none
  acquired : ∀ ref n, (Action.acquire txn).run t.node = (.ok ref, n) →
    (Action.snapshot ref).run n = (.ok (t.node.peek txn), n)

theorem serve_evict (s : Session) (txn : TxnId) :
    (s.serve (.ask (.evict txn))).node = ((Action.evict txn).run s.node).2 := by
  have hknown : ∀ id ∈ CacheCall.entry? (.ask (.evict txn)), s.node.references id ≠ 0 := by
    rintro _ ⟨⟩
  have hhas : ∀ token ∈ (Request.evict txn).token?, token ∈ s.tokens := by
    rintro _ ⟨⟩
  rw [serve, if_pos hknown, answer, next, if_pos hhas]
  exact Step.run_map_snd _ _ s.node

theorem node_serve_evict {s : Session} {txn : TxnId}
    (h : ((Action.evict txn).run s.node).1 = .ok true) :
    (s.serve (.ask (.evict txn))).node = s.node.evicted txn := by
  rw [serve_evict]
  obtain ⟨e, -, -, -, hrun⟩ | ⟨-, hrun⟩ := Action.run_evict s.node txn
  · rw [hrun]
  · rw [hrun] at h
    cases h

theorem forgets_evict {s : Session} (hsecure : s.Secure) {txn : TxnId}
    (h : ((Action.evict txn).run s.node).1 = .ok true) :
    s.Forgets (s.serve (.ask (.evict txn))) txn := by
  have hnone : (s.node.evicted txn).entryIdOf? txn = none := by
    rw [Node.entryIdOf?_evicted, if_pos rfl]
  have hacquire := (Node.Secure.evicted hsecure txn).exists_run_acquire_of_none hnone
  have hnode := node_serve_evict h
  exact ⟨by rw [hnode]; rfl, hnode ▸ hnone, hnode ▸ hacquire⟩

theorem exists_recounts_service (policy : AcquirePolicy) (calls : List CacheCall)
    (hcalls : ∀ call ∈ calls, call.Journaled) : (service policy calls).Accountable ∧
      ∃ us, (Node.empty policy).Recounts us (service policy calls).node :=
  recounts_foldl (accountable_start policy) calls hcalls

/-- In every state that clients of the cache can bring about, whoever acquires a transaction after
its eviction finds nothing. If clients commit to the journal, it goes on to tell what was forgotten,
and the next update of the transaction that it gets starts from nothing. -/
theorem evict_restarts (policy : AcquirePolicy) (calls : List CacheCall) (txn : TxnId)
    (hevicts : ((Action.evict txn).run (service policy calls).node).1 = .ok true) :
    let s := service policy calls
    let s' := s.serve (.ask (.evict txn))
    s.Forgets s' txn ∧ ∀ later : List CacheCall,
      (∀ call ∈ calls, call.Journaled) → (∀ call ∈ later, call.Journaled) →
        ∃ before after, s.Resumes (later.foldl serve s') txn before after := by
  intro s s'
  have hsecure : s.Secure := (mapped_service policy calls).1
  have hnode : s'.node = s.node.evicted txn := node_serve_evict hevicts
  refine ⟨forgets_evict hsecure hevicts, fun later hcalls hlater => ?_⟩
  obtain ⟨haccount, us, hus⟩ := exists_recounts_service policy calls hcalls
  have hforgotten : s.node.Recounts [] s'.node := hnode ▸ .evicted haccount.recordable txn
  have haccount' : s'.Accountable := {
    orderly := orderly_serve haccount.orderly haccount.mapped _
    mapped := (mapped_serve hsecure haccount.mapped _).2
    recordable := hforgotten.recordable }
  obtain ⟨hlast, us', hus'⟩ := recounts_foldl haccount' later hlater
  have hnone : s'.node.peek txn = none := by
    rw [hnode, Node.peek_evicted, if_pos rfl]
  have hrestarted := hus'.told txn
  rw [hnone] at hrestarted
  -- Nothing is recorded by the eviction itself.
  have hall := (hus.trans hforgotten).trans hus'
  refine ⟨us.filter (·.txn = txn), us'.filter (·.txn = txn), ?_⟩
  exact {
    told := hus.updatesFor_eq txn
    chained := hus.told_of_empty txn
    replayed := hus.replay_eq
    retold := by rw [hall.updatesFor_eq, List.append_nil, List.filter_append]
    restarted := hrestarted
    first := hrestarted.before_head
    untouched := hrestarted.eq_none
    acquired := fun _ _ => Node.Secure.run_snapshot_of_acquire hlast.orderly.secure }

/-- A command is committed and forgotten, and then committed again. -/
theorem evict_restarts_sample :
    let t : TxnId := ⟨1, 10, 0, 1⟩
    let commit (ref : RefId) : List CacheCall := [.ask (.acquire t), .ask (.initialise ref),
      .ask (.commit ref fun u => Recorder.journal.record u), .ask (.drop ref)]
    let s := service .failFast (commit ⟨1⟩)
    let s' := s.serve (.ask (.evict t))
    ((Action.evict t).run s.node).1 = .ok true ∧ s.Forgets s' t ∧
      (∀ call ∈ commit ⟨1⟩, call.Journaled) ∧ (∀ call ∈ commit ⟨2⟩, call.Journaled) ∧
      ∃ before after, s.Resumes ((commit ⟨2⟩).foldl serve s') t before after := by
  intro t commit s s'
  have hevicts : ((Action.evict t).run s.node).1 = .ok true := by decide
  have hcalls : ∀ ref, ∀ call ∈ commit ref, call.Journaled := by
    intro ref
    simp only [commit, List.forall_mem_cons]
    exact ⟨trivial, trivial, ⟨.journal, rfl⟩, trivial,
      fun _ hmem => absurd hmem List.not_mem_nil⟩
  obtain ⟨hforgets, hall⟩ := evict_restarts .failFast (commit ⟨1⟩) t hevicts
  exact ⟨hevicts, hforgets, hcalls ⟨1⟩, hcalls ⟨2⟩, hall _ (hcalls ⟨1⟩) (hcalls ⟨2⟩)⟩

/-- A command that was committed and that the journal tells is not there after its eviction. -/
theorem evict_loses_committed :
    let t : TxnId := ⟨1, 10, 0, 1⟩
    let c : Command := ⟨t, .committed, none, .zero, none⟩
    let calls : List CacheCall := [.ask (.acquire t), .ask (.set ⟨1⟩ c),
      .ask (.commit ⟨1⟩ fun u => Recorder.journal.record u), .ask (.drop ⟨1⟩)]
    let s := service .failFast calls
    let s' := s.serve (.ask (.evict t))
    (∀ call ∈ calls, call.Journaled) ∧ ((Action.evict t).run s.node).1 = .ok true ∧
      s.node.peek t = some c ∧ s.node.journal.replay t = .ok (some c) ∧
      ∃ ref n, (Action.acquire t).run s'.node = (.ok ref, n) ∧
        (Action.snapshot ref).run n = (.ok none, n) := by
  intro t c calls s s'
  have hevicts : ((Action.evict t).run s.node).1 = .ok true := by decide
  have hpeek : s.node.peek t = some c := by decide
  have hcommand : c.Recordable := nofun
  have hcalls : ∀ call ∈ calls, call.Journaled := by
    simp only [calls, List.forall_mem_cons]
    exact ⟨trivial, hcommand, ⟨.journal, rfl⟩, trivial,
      fun _ hmem => absurd hmem List.not_mem_nil⟩
  have hsecure : s.Secure := (mapped_service .failFast calls).1
  obtain ⟨us, hus⟩ : ∃ us, (Node.empty .failFast).Recounts us s.node :=
    (exists_recounts_service .failFast calls hcalls).2
  have hsome : s.node.peek t ≠ none := by
    rw [hpeek]
    exact Option.some_ne_none c
  have hreplay : s.node.journal.replay t = .ok (some c) := by
    rw [hus.replay_eq hsome, hpeek]
  have hforgets : s.Forgets s' t := forgets_evict hsecure hevicts
  exact ⟨hcalls, hevicts, hpeek, hreplay, hforgets.acquired⟩

end Session

end TxnDeps
