import TxnDeps.Proofs.Cache.Changes

namespace TxnDeps

/-- The safe command comes to its end. Beside it only its entry and the journal may have changed,
and what the tracker lists. -/
structure Node.Ends (n : Node) (w : SafeCommand) (n' : Node) : Prop where
  safe : n'.safe? w.ref = some { w with token := none, state := .invalidated }
  safes : ∀ ref, ref ≠ w.ref → n'.safe? ref = n.safe? ref
  entries : ∀ id, id ≠ w.entry → n'.entryAt? id = n.entryAt? id
  cached : n'.cached = n.cached
  handles : n'.handles = n.handles

namespace Node

variable {n : Node} {w : SafeCommand} {e e' : CommandEntry}

theorem entryAt?_putEntry_of_ne {id id' : EntryId} {e₁ e₂ : CommandEntry}
    (he₁ : n.entryAt? id = some e₁) (he : n.entryAt? id' = some e) (hid : e₂.id = id)
    (hne : e ≠ e₁) : (n.putEntry e₂).entryAt? id' = some e := by
  have hplace : id' ≠ id := by
    rintro rfl
    rw [he] at he₁
    exact hne (Option.some.inj he₁)
  rw [entryAt?_putEntry he₁ hid, if_neg hplace, he]

theorem ends_ended (hw : n.safe? w.ref = some w) : n.Ends w (n.ended w) where
  safe := safe?_putSafe hw (w.spent .invalidated) rfl
  safes _ hne := safe?_putSafe_of_ne hne
  entries _ _ := rfl
  cached := rfl
  handles := rfl

theorem ends_putEntry_ended (hw : n.safe? w.ref = some w) (he : n.entryAt? w.entry = some e)
    (hid : e'.id = w.entry) (j : Journal) :
    n.Ends w ((({ n with journal := j } : Node).putEntry e').ended w) ∧
      ((({ n with journal := j } : Node).putEntry e').ended w).entryAt? w.entry = some e' := by
  let n₁ : Node := { n with journal := j }
  have hget : ∀ id,
      (n₁.putEntry e').entryAt? id = if id = w.entry then some e' else n.entryAt? id :=
    entryAt?_putEntry (n := n₁) he hid
  have hended : (n₁.putEntry e').Ends w ((n₁.putEntry e').ended w) := ends_ended hw
  refine ⟨⟨hended.safe, hended.safes, fun id hne => ?_, rfl, rfl⟩, ?_⟩
  · exact (hget id).trans (if_neg hne)
  · exact (hget w.entry).trans (if_pos rfl)

end Node

/-- How a commit ends, given what the journal makes of the update. -/
structure Node.Commits (n : Node) (w : SafeCommand) (recorded : Except Error Unit × Journal)
    (outcome : Except Stop CommandUpdate × Node) : Prop where
  inactive : w.state ≠ .active → ∃ misuse, outcome = (.error (.misused misuse), n)
  ends : w.state = .active → n.Ends w outcome.2
  gone : w.state = .active → w.token = none →
    outcome.1 = .error (.failed (.argument (.accessGone w.txn))) ∧
      outcome.2.journal = n.journal ∧ outcome.2.entryAt? w.entry = n.entryAt? w.entry
  published : w.state = .active → w.token ≠ none → recorded.1 = .ok () →
    outcome.1 = .ok ⟨w.txn, w.snapshot, w.current⟩ ∧ outcome.2.journal = recorded.2 ∧
      ∃ e, n.entryAt? w.entry = some e ∧ e.key = w.txn ∧
        outcome.2.entryAt? w.entry = some { e with value := w.current, holder := none }
  refused : w.state = .active → w.token ≠ none → ∀ error, recorded.1 = .error error →
    outcome.1 = .error (.failed error) ∧ outcome.2.journal = recorded.2 ∧
      ∃ e, n.entryAt? w.entry = some e ∧ e.key = w.txn ∧
        outcome.2.entryAt? w.entry = some { e with holder := none }
  stale : ∀ key grant outstanding,
    outcome.1 = .error (.failed (.staleToken key grant outstanding)) →
      recorded.1 = .error (.staleToken key grant outstanding)

namespace Node.Secure

variable {n : Node} {tokens : List Token}

theorem commits (h : n.Secure tokens) {w : SafeCommand} (hw : w ∈ n.safes)
    (record : CommandUpdate → Step Journal Error Unit) :
    n.Commits w ((record ⟨w.txn, w.snapshot, w.current⟩).run n.journal)
      ((Action.commitTo w.ref record).run n) := by
  have hfound := safe?_of_mem h.refs hw
  by_cases hactive : w.state = .active
  · obtain ⟨e, he, hid, hkey, htoken⟩ := h.exists_entry hw
    cases ht : w.token with
    | none =>
      rw [Action.run_commitTo_without_token hfound hactive ht]
      exact {
        inactive := absurd hactive
        ends := fun _ => ends_ended hfound
        gone := fun _ _ => ⟨rfl, rfl, rfl⟩
        published := fun _ hno => absurd ht hno
        refused := fun _ hno => absurd ht hno
        stale := nofun }
    | some token =>
      have haccepts := htoken token ht
      have hsome : w.token ≠ none := ht ▸ Option.some_ne_none token
      rcases hrecord : (record ⟨w.txn, w.snapshot, w.current⟩).run n.journal with ⟨error | _, j⟩
      · have hfreed : (e.freed e.value).id = w.entry := hid
        obtain ⟨hends, hentry⟩ := ends_putEntry_ended hfound he hfreed j
        rw [Action.run_commitTo_failed hfound hactive ht he haccepts hrecord]
        exact {
          inactive := absurd hactive
          ends := fun _ => hends
          gone := fun _ hno => absurd hno hsome
          published := nofun
          refused := by
            rintro - - _ ⟨⟩
            exact ⟨rfl, rfl, e, he, hkey, hentry⟩
          stale := by
            rintro key grant outstanding ⟨⟩
            rfl }
      · have hfreed : (e.freed w.current).id = w.entry := hid
        obtain ⟨hends, hentry⟩ := ends_putEntry_ended hfound he hfreed j
        rw [Action.run_commitTo_recorded hfound hactive ht he haccepts hrecord]
        exact {
          inactive := absurd hactive
          ends := fun _ => hends
          gone := fun _ hno => absurd hno hsome
          published := fun _ _ _ => ⟨rfl, rfl, e, he, hkey, hentry⟩
          refused := nofun
          stale := nofun }
  · obtain ⟨misuse, hrun⟩ := Action.run_commitTo_refused hfound hactive record
    rw [hrun]
    exact {
      inactive := fun _ => ⟨misuse, rfl⟩
      ends := fun hno => absurd hno hactive
      gone := fun hno => absurd hno hactive
      published := fun hno => absurd hno hactive
      refused := fun hno => absurd hno hactive
      stale := nofun }

end Node.Secure

namespace Session

/-- In every state that clients can bring about, whatever the journal does with updates. -/
theorem commit_atomic (policy : AcquirePolicy) (requests : List Request)
    (record : CommandUpdate → Step Journal Error Unit) :
    let n := (run policy requests).node
    ∀ w ∈ n.safes, n.Commits w ((record ⟨w.txn, w.snapshot, w.current⟩).run n.journal)
      ((Action.commitTo w.ref record).run n) := by
  intro n w hw
  have h : n.Secure (run policy requests).tokens := secure_run policy requests
  exact h.commits hw record

/-- A safe command whose token was taken out of it, and one that took the entry after the token had
given it back. A full disk keeps the update out of the journal and out of the entry. -/
theorem commit_atomic_refused :
    let t : TxnId := ⟨1, 10, 0, 1⟩
    let requests : List Request := [.acquire t, .takeToken ⟨1⟩, .abandon ⟨0⟩ ⟨⟨0⟩, 1⟩, .acquire t,
      .initialise ⟨2⟩]
    let full : CommandUpdate → Step Journal Error Unit := fun _ => Step.fail (.journal "disk full")
    let n := (run .failFast requests).node
    ∃ v ∈ n.safes, ∃ w ∈ n.safes, v.state = .active ∧ v.token = none ∧
      w.state = .active ∧ w.token = some ⟨⟨0⟩, 2⟩ ∧ w.current ≠ none ∧
      ((Action.commitTo v.ref full).run n).1 = .error (.failed (.argument (.accessGone t))) ∧
      ((Action.commitTo w.ref full).run n).1 = .error (.failed (.journal "disk full")) ∧
      ((Action.commitTo w.ref full).run n).2.entryAt? ⟨0⟩ = some ⟨⟨0⟩, t, none, none, 2⟩ := by
  intro t requests full n
  let v : SafeCommand := ⟨⟨1⟩, ⟨0⟩, t, .active, none, none, none, true⟩
  let w : SafeCommand :=
    ⟨⟨2⟩, ⟨0⟩, t, .active, none, some (.uninitialised t), some ⟨⟨0⟩, 2⟩, true⟩
  have hv : v ∈ n.safes := by decide
  have hw : w ∈ n.safes := by decide
  have hgone := (commit_atomic .failFast requests full v hv).gone rfl rfl
  have hrefused := (commit_atomic .failFast requests full w hw).refused rfl nofun _ rfl
  obtain ⟨herror, -, e, he, -, hfreed⟩ := hrefused
  have hentry : n.entryAt? ⟨0⟩ = some ⟨⟨0⟩, t, none, some 2, 2⟩ := by decide
  rw [hentry] at he
  cases he
  exact ⟨v, hv, w, hw, rfl, rfl, rfl, rfl, nofun, hgone.1, herror, hfreed⟩

end Session

/-- How a commit gives the entry back, given what the journal makes of the update. -/
def SafeCommand.giveBack (w : SafeCommand) (token : Token) : Except Error Unit → Request
  | .ok () => .release w.entry token w.current
  | .error _ => .abandon w.entry token

namespace Session

variable {s s' : Session} {w : SafeCommand} {e : CommandEntry} {token : Token}

theorem next_next_invalidate {n n' : Node} {r : Request} {step : Action Unit} {state : SafeState}
    (hw : n'.safe? w.ref = some w) (haction : r.action = (fun _ => none) <$> step)
    (ht : r.token? = some token) (hrun : step.run n = (.ok (), n'.putSafe (w.spent state)))
    (tokens : List Token) :
    (next ⟨n, token :: tokens⟩ r).next (.invalidate w.ref) = ⟨n'.ended w, tokens⟩ := by
  have hstep := next_of_token (s := ⟨n, token :: tokens⟩) haction ht List.mem_cons_self
  rw [hstep, hrun, List.erase_cons_head, next_of_action rfl rfl,
    Action.run_invalidate_spent hw state]

/-- A commit does what its steps do one after the other. -/
theorem next_commit (h : s.Secure) (hw : w ∈ s.node.safes) (hactive : w.state = .active)
    (ht : w.token = some token) (record : CommandUpdate → Step Journal Error Unit) :
    s.next (.commit w.ref record) =
      [.takeToken w.ref, .journal (record w.toUpdate),
        w.giveBack token ((record w.toUpdate).run s.node.journal).1,
        .invalidate w.ref].foldl next s := by
  obtain ⟨n, tokens⟩ := s
  have hfound := Node.safe?_of_mem h.refs hw
  have hvalid : w.state ≠ .invalidated := by
    rw [hactive]
    exact SafeState.noConfusion
  obtain ⟨e, he, -, -, htoken⟩ := Node.Secure.exists_entry h hw
  have haccepts := htoken token ht
  have htaken := next_takeToken hfound hvalid tokens
  rcases hrecord : (record w.toUpdate).run n.journal with ⟨result, j⟩
  let n₁ : Node := { n with journal := j }
  have hjournal : next ⟨n.putSafe (w.spent w.state), token :: tokens⟩
      (.journal (record w.toUpdate)) = ⟨n₁.putSafe (w.spent w.state), token :: tokens⟩ := by
    rw [next_of_action rfl rfl, Action.run_attempt_record hrecord]
  have he₁ : (n₁.putSafe (w.spent w.state)).entryAt? w.entry = some e := he
  have hsteps : ∀ {r : Request} {n₂ : Node},
      (next ⟨n₁.putSafe (w.spent w.state), token :: tokens⟩ r).next (.invalidate w.ref) =
        ⟨n₂.ended w, tokens⟩ →
      [.takeToken w.ref, .journal (record w.toUpdate), r, .invalidate w.ref].foldl next
        ⟨n, tokens⟩ = ⟨n₂.ended w, tokens⟩ := by
    intro r n₂ hlast
    simp only [List.foldl_cons, List.foldl_nil, htaken, ht, Option.toList_some,
      List.singleton_append, hjournal]
    exact hlast
  rw [next_of_action rfl rfl]
  cases result with
  | error error =>
    have hfound₁ : (n₁.putEntry (e.freed e.value)).safe? w.ref = some w := hfound
    have hlast := next_next_invalidate (r := .abandon w.entry token) hfound₁ rfl rfl
      (Action.run_abandon he₁ haccepts) tokens
    rw [Action.run_commitTo_failed hfound hactive ht he haccepts hrecord]
    exact (hsteps hlast).symm
  | ok _ =>
    have hfound₁ : (n₁.putEntry (e.freed w.current)).safe? w.ref = some w := hfound
    have hlast := next_next_invalidate (r := .release w.entry token w.current) hfound₁ rfl rfl
      (Action.run_release he₁ haccepts) tokens
    rw [Action.run_commitTo_recorded hfound hactive ht he haccepts hrecord]
    exact (hsteps hlast).symm

/-- The token is in nobody's hands, and the entry is held under it. -/
structure Pending (s : Session) (token : Token) (e : CommandEntry) : Prop where
  secure : s.node.Secure (token :: s.tokens)
  entry : s.node.entryAt? token.entry = some e
  accepts : e.accepts token = true

/-- What is done with other tokens can be done beside a token that nobody uses. -/
theorem changes_beside (hchange : s.Change s') (token : Token) :
    Changes ⟨s.node, token :: s.tokens⟩ ⟨s'.node, token :: s'.tokens⟩ := by
  have hswap : ∀ (n : Node) (t : Token) (tokens : List Token),
      Change ⟨n, token :: t :: tokens⟩ ⟨n, t :: token :: tokens⟩ :=
    fun n t tokens => .permuted n _ _ (.swap t token tokens)
  cases hchange with
  | journaled n tokens journal => exact .single (.journaled n _ journal)
  | traced n tokens tracker hnext => exact .single (.traced n _ tracker hnext)
  | handled n tokens handles hknown => exact .single (.handled n _ handles hknown)
  | entryAdded n tokens txn hnone => exact .single (.entryAdded n _ txn hnone)
  | evicted n tokens txn e he hidle hfree => exact .single (.evicted n _ txn e he hidle hfree)
  | safeAdded n tokens id e he hid => exact .single (.safeAdded n _ id e he hid)
  | safeRemoved n tokens ref => exact .single (.safeRemoved n _ ref)
  | edited n tokens w c hw hactive => exact .single (.edited n _ w c hw hactive)
  | acquired n tokens w e hw hunused he hfree =>
    exact .single (.acquired n _ w e hw hunused he hfree)
  | spent n tokens w state hw ht hends => exact .single (.spent n _ w state hw ht hends)
  | freed n tokens w e t value state hw he ht haccepts hends =>
    exact .single (.freed n _ w e t value state hw he ht haccepts hends)
  | taken n tokens w t hw ht =>
    exact (Relation.ReflTransGen.single (.taken n _ w t hw ht)).tail
      (.permuted _ _ _ (.swap token t tokens))
  | released n tokens id e t value he haccepts =>
    exact (Relation.ReflTransGen.single (hswap n t tokens)).tail
      (.released n _ id e t value he haccepts)
  | forgotten n tokens t =>
    exact (Relation.ReflTransGen.single (hswap n t tokens)).tail (.forgotten n _ t)
  | permuted n tokens tokens' hperm => exact .single (.permuted n _ _ (hperm.cons token))

theorem Pending.ne_of_free (h : s.Pending token e) {e₁ : CommandEntry} (hfree : e₁.holder = none) :
    e ≠ e₁ := by
  have hheld := (CacheEntry.accepts_eq_true_iff.1 h.accepts).2
  rintro rfl
  rw [hheld] at hfree
  cases hfree

theorem Pending.entryAt?_putEntry (h : s.Pending token e) {id : EntryId} {e₁ e₂ : CommandEntry}
    (he₁ : s.node.entryAt? id = some e₁) (hid : e₂.id = e₁.id) (hne : e ≠ e₁) :
    (s.node.putEntry e₂).entryAt? token.entry = some e :=
  Node.entryAt?_putEntry_of_ne he₁ h.entry (hid.trans (h.secure.entries id e₁ he₁).1) hne

/-- An entry stays as it is while nobody uses the token it is held under. -/
theorem entryAt?_change (hchange : s.Change s') (h : s.Pending token e) :
    s'.node.entryAt? token.entry = some e := by
  have hsecure := h.secure
  cases hchange with
  | journaled | traced | handled | evicted | safeAdded | safeRemoved | edited | spent | taken
  | forgotten | permuted => exact h.entry
  | entryAdded n tokens txn hnone => exact Node.entryAt?_addEntry_of_some txn h.entry
  | acquired n tokens w e₁ hw hunused he₁ hfree =>
    exact h.entryAt?_putEntry he₁ rfl (h.ne_of_free hfree)
  | freed n tokens w e₁ t value state hw he₁ ht haccepts hends =>
    refine h.entryAt?_putEntry he₁ rfl ?_
    rintro rfl
    rw [hsecure.token_eq_none_of_hand hw he₁ h.accepts] at ht
    cases ht
  | released n tokens id e₁ t value he₁ haccepts =>
    refine h.entryAt?_putEntry he₁ rfl ?_
    rintro rfl
    have hsame : token = t := CacheEntry.eq_of_accepts h.accepts haccepts
    have hnew := (List.nodup_cons.1 hsecure.distinct).1
    exact hnew (hsame ▸ List.mem_cons_self)

theorem pending_change (hchange : s.Change s') (h : s.Pending token e) : s'.Pending token e where
  secure := secure_changes (changes_beside hchange token) h.secure
  entry := entryAt?_change hchange h
  accepts := h.accepts

theorem pending_changes (hchanges : s.Changes s') (h : s.Pending token e) :
    s'.Pending token e := by
  induction hchanges with
  | refl => exact h
  | tail _ hchange ih => exact pending_change hchange ih

theorem pending_grant {id : EntryId} (hgrant : s.Grant id s') (h : s.Pending token e) :
    s'.Pending token e := by
  cases hgrant with
  | granted n tokens e₁ he₁ hfree =>
    have hsecure := h.secure.granted he₁ hfree
    exact ⟨hsecure.perm (.swap token _ tokens),
      h.entryAt?_putEntry he₁ rfl (h.ne_of_free hfree), h.accepts⟩

theorem pending_next (h : s.Pending token e) (r : Request) : (s.next r).Pending token e := by
  obtain hchanges | ⟨id, policy, -, hgrant⟩ := next_cases h.secure.tail r
  · exact pending_changes hchanges h
  · exact pending_grant hgrant h

theorem pending_foldl (h : s.Pending token e) (requests : List Request) :
    (requests.foldl next s).Pending token e := by
  induction requests generalizing s with
  | nil => exact h
  | cons r requests ih => exact ih (pending_next h r)

/-- Whatever is asked between two steps of a commit, its own step at the journal included, the
entry is held with its old value, and the token that the commit has taken gives it back. -/
theorem commit_between (h : s.Secure) (hw : w ∈ s.node.safes) (ht : w.token = some token)
    (between : List Request) :
    let s' := between.foldl next ⟨s.node.putSafe (w.spent w.state), s.tokens⟩
    ∃ e, s.node.entryAt? w.entry = some e ∧ s'.node.entryAt? w.entry = some e ∧
      e.holder = some token.grant ∧
      (∀ value, (Action.release w.entry token value).run s'.node =
        (.ok (), s'.node.putEntry { e with value := value, holder := none })) ∧
      (Action.abandon w.entry token).run s'.node =
        (.ok (), s'.node.putEntry { e with holder := none }) := by
  intro s'
  obtain ⟨e, he, -, -, htoken⟩ := Node.Secure.exists_entry h hw
  have haccepts := htoken token ht
  obtain ⟨hentry, hholder⟩ := Node.Secure.token_eq h he haccepts
  have hpending : s'.Pending token e :=
    pending_foldl ⟨Node.Secure.taken h hw ht w.state, hentry ▸ he, haccepts⟩ between
  have he' : s'.node.entryAt? w.entry = some e := hentry ▸ hpending.entry
  exact ⟨e, he, he', hholder, fun _ => Action.run_release he' haccepts,
    Action.run_abandon he' haccepts⟩

end Session

end TxnDeps
