import Mathlib.Logic.Relation
import TxnDeps.Proofs.Cache.Session

namespace TxnDeps

open TxnDeps.Action (Preserves)

namespace Session

/-- One change of a node and of the tokens in the hands of its clients. -/
inductive Change : Session → Session → Prop
  | journaled (n : Node) (tokens : List Token) (journal : Journal) :
    Change ⟨n, tokens⟩ ⟨{ n with journal := journal }, tokens⟩
  | traced (n : Node) (tokens : List Token) (tracker : RefTracker)
      (hnext : tracker.next = n.tracker.next) :
    Change ⟨n, tokens⟩ ⟨{ n with tracker := tracker }, tokens⟩
  | handled (n : Node) (tokens : List Token) (handles : List EntryId)
      (hknown : ∀ id ∈ handles, id ∈ n.handles ∨ ∃ txn, n.entryIdOf? txn = some id) :
    Change ⟨n, tokens⟩ ⟨{ n with handles := handles }, tokens⟩
  | entryAdded (n : Node) (tokens : List Token) (txn : TxnId)
      (hnone : n.entryIdOf? txn = none) :
    Change ⟨n, tokens⟩ ⟨n.addEntry txn, tokens⟩
  | evicted (n : Node) (tokens : List Token) (txn : TxnId) (e : CommandEntry)
      (he : n.entryOf? txn = some e) (hidle : n.references e.id = 0) (hfree : e.holder = none) :
    Change ⟨n, tokens⟩ ⟨n.evicted txn, tokens⟩
  | safeAdded (n : Node) (tokens : List Token) (id : EntryId) (e : CommandEntry)
      (he : n.entryAt? id = some e) (hid : n.entryIdOf? e.key = some id) :
    Change ⟨n, tokens⟩ ⟨n.addSafe id e.key, tokens⟩
  | safeRemoved (n : Node) (tokens : List Token) (ref : RefId) :
    Change ⟨n, tokens⟩ ⟨n.removeSafe ref, tokens⟩
  | edited (n : Node) (tokens : List Token) (w : SafeCommand) (c : Command) (hw : w ∈ n.safes)
      (hactive : w.state = .active) :
    Change ⟨n, tokens⟩ ⟨n.putSafe { w with current := some c }, tokens⟩
  | acquired (n : Node) (tokens : List Token) (w : SafeCommand) (e : CommandEntry)
      (hw : w ∈ n.safes) (hunused : w.state = .unacquired) (he : n.entryAt? w.entry = some e)
      (hfree : e.holder = none) :
    Change ⟨n, tokens⟩ ⟨(n.putEntry e.granted).putSafe (w.acquired e.value e.nextToken), tokens⟩
  | spent (n : Node) (tokens : List Token) (w : SafeCommand) (state : SafeState)
      (hw : w ∈ n.safes) (ht : w.token = none) (hends : w.state.Ends state) :
    Change ⟨n, tokens⟩ ⟨n.putSafe (w.spent state), tokens⟩
  | freed (n : Node) (tokens : List Token) (w : SafeCommand) (e : CommandEntry) (token : Token)
      (value : Option Command) (state : SafeState) (hw : w ∈ n.safes)
      (he : n.entryAt? w.entry = some e) (ht : w.token = some token)
      (haccepts : e.accepts token = true) (hends : w.state.Ends state) :
    Change ⟨n, tokens⟩ ⟨(n.putEntry (e.freed value)).putSafe (w.spent state), tokens⟩
  | taken (n : Node) (tokens : List Token) (w : SafeCommand) (token : Token) (hw : w ∈ n.safes)
      (ht : w.token = some token) :
    Change ⟨n, tokens⟩ ⟨n.putSafe (w.spent w.state), token :: tokens⟩
  | released (n : Node) (tokens : List Token) (id : EntryId) (e : CommandEntry) (token : Token)
      (value : Option Command) (he : n.entryAt? id = some e)
      (haccepts : e.accepts token = true) :
    Change ⟨n, token :: tokens⟩ ⟨n.putEntry (e.freed value), tokens⟩
  | forgotten (n : Node) (tokens : List Token) (token : Token) :
    Change ⟨n, token :: tokens⟩ ⟨n, tokens⟩
  | permuted (n : Node) (tokens tokens' : List Token) (hperm : tokens.Perm tokens') :
    Change ⟨n, tokens⟩ ⟨n, tokens'⟩

abbrev Changes : Session → Session → Prop := Relation.ReflTransGen Change

/-- A client that asks a free entry itself gets the token of a new grant. -/
inductive Grant (id : EntryId) : Session → Session → Prop
  | granted (n : Node) (tokens : List Token) (e : CommandEntry) (he : n.entryAt? id = some e)
      (hfree : e.holder = none) :
    Grant id ⟨n, tokens⟩ ⟨n.putEntry e.granted, e.nextToken :: tokens⟩

theorem secure_grant {id : EntryId} {s s' : Session} (hgrant : s.Grant id s') (h : s.Secure) :
    s'.Secure := by
  cases hgrant with
  | granted n tokens e he hfree => exact Node.Secure.granted h he hfree

theorem secure_change {s s' : Session} (hchange : s.Change s') (h : s.Secure) : s'.Secure := by
  cases hchange with
  | journaled n tokens journal => exact Node.Secure.withRest h journal n.handles rfl
  | traced n tokens tracker hnext => exact Node.Secure.withRest h n.journal n.handles hnext
  | handled n tokens handles => exact Node.Secure.withRest h n.journal handles rfl
  | entryAdded n tokens txn hnone => exact Node.Secure.addEntry h hnone
  | evicted n tokens txn => exact Node.Secure.evicted h txn
  | safeAdded n tokens id e he => exact Node.Secure.addSafe h he
  | safeRemoved n tokens ref => exact Node.Secure.removeSafe h ref
  | edited n tokens w c hw hactive =>
    exact (Node.Secure.invariant tokens).edited n w c h hw hactive trivial
  | acquired n tokens w e hw hunused he hfree =>
    exact (Node.Secure.invariant tokens).granted n w e h hw hunused he hfree
  | spent n tokens w state hw ht hends =>
    exact (Node.Secure.invariant tokens).spent n w state h hw ht hends
  | freed n tokens w e token value state hw he ht haccepts =>
    exact (Node.Secure.taken h hw ht state).freed he haccepts value
  | taken n tokens w token hw ht => exact Node.Secure.taken h hw ht w.state
  | released n tokens id e token value he haccepts => exact Node.Secure.freed h he haccepts value
  | forgotten n tokens token => exact Node.Secure.tail h
  | permuted n tokens tokens' hperm => exact Node.Secure.perm h hperm

/-- Changes that have led to a node, with the tokens of clients as given. -/
def Leads (s : Session) (tokens : List Token) (n : Node) : Prop :=
  s.Changes ⟨n, tokens⟩ ∧ n.Secure tokens

theorem Leads.change {s s' : Session} {tokens : List Token} {n : Node} (h : s.Leads tokens n)
    (hchange : Change ⟨n, tokens⟩ s') : s.Leads s'.tokens s'.node :=
  ⟨h.1.tail hchange, secure_change hchange h.2⟩

theorem Leads.ended {s : Session} {tokens : List Token} {n : Node} {w : SafeCommand}
    (h : s.Leads tokens (n.putSafe (w.spent .invalidated))) : s.Leads tokens (n.ended w) :=
  h.change (.traced _ tokens (n.tracker.release w.ref) rfl)

theorem leads_invariant (s : Session) (tokens : List Token) :
    Node.Invariant (s.Leads tokens) fun _ => True where
  secure _ h := ⟨tokens, h.2⟩
  traced n tracker h hnext := h.change (.traced n tokens tracker hnext)
  entryAdded n txn h hnone := h.change (.entryAdded n tokens txn hnone)
  safeAdded n id e h he hid := h.change (.safeAdded n tokens id e he hid)
  safeRemoved n ref h := h.change (.safeRemoved n tokens ref)
  edited n w c h hw hactive _ := h.change (.edited n tokens w c hw hactive)
  initialised _ _ _ _ := trivial
  granted n w e h hw hunused he hfree := h.change (.acquired n tokens w e hw hunused he hfree)
  spent n w state h hw ht hends := h.change (.spent n tokens w state hw ht hends)
  freed n w e token state h hw he ht haccepts hends :=
    h.change (.freed n tokens w e token e.value state hw he ht haccepts hends)

section Requests

variable {s : Session} {tokens : List Token}

theorem leads_commitTo (ref : RefId) (record : CommandUpdate → Step Journal Error Unit) :
    Preserves (s.Leads tokens) (Action.commitTo ref record) := by
  intro n h
  obtain ⟨misuse, hrun⟩ | ⟨w, hw, ⟨ht, hrun⟩ | ⟨token, e, j, ht, he, -, haccepts, hrecorded⟩⟩ :=
    Action.commitTo_cases h.2 ref record
  · rw [hrun]
    exact h
  · rw [hrun]
    exact (h.change (.spent n tokens w .invalidated hw ht (.inr rfl))).ended
  · have hfreed := fun value => (h.change (.journaled n tokens j)).change
      (.freed _ tokens w e token value .invalidated hw he ht haccepts (.inr rfl))
    obtain ⟨error, -, hrun⟩ | ⟨-, hrun⟩ := hrecorded
    · rw [hrun]
      exact (hfreed e.value).ended
    · rw [hrun]
      exact (hfreed w.current).ended

theorem leads_journal (step : Step Journal Error Unit) :
    Preserves (s.Leads tokens) (Action.attempt (Action.onJournal step)) := fun n h =>
  h.change (.journaled n tokens (step.run n.journal).2)

theorem leads_openHandle (txn : TxnId) : Preserves (s.Leads tokens) (Action.openHandle txn) := by
  intro n h
  obtain ⟨id, n', e, hrun, h', -, hid, -⟩ := (leads_invariant s tokens).exists_run_entryOf h txn
  rw [Action.openHandle, Step.run_bind_of_ok hrun]
  refine h'.change (.handled n' tokens (id :: n'.handles) fun id' hid' => ?_)
  obtain rfl | hid' := List.mem_cons.1 hid'
  · exact .inr ⟨txn, hid⟩
  · exact .inl hid'

theorem leads_evict (txn : TxnId) : Preserves (s.Leads tokens) (Action.evict txn) := by
  intro n h
  obtain ⟨e, he, hidle, hfree, hrun⟩ | ⟨-, hrun⟩ := Action.run_evict n txn
  · rw [hrun]
    exact h.change (.evicted n tokens txn e he hidle hfree)
  · rw [hrun]
    exact h

theorem leads_closeHandle (id : EntryId) :
    Preserves (s.Leads tokens) (Action.closeHandle id) := fun n h =>
  h.change (.handled n tokens (n.handles.erase id) fun _ hid => .inl (List.mem_of_mem_erase hid))

end Requests

section Next

variable {α : Type} {step : Action α} {s : Session} {r : Request}

theorem next_of_action (haction : r.action = (fun _ => none) <$> step) (ht : r.token? = none) :
    s.next r = ⟨(step.run s.node).2, s.tokens⟩ := by
  rw [next, ht, haction]
  rcases hrun : step.run s.node with ⟨stop | a, n'⟩
  · simp [Step.run_map_of_error hrun, gained]
  · simp [Step.run_map_of_ok hrun, gained]

theorem next_of_token {token : Token} (haction : r.action = (fun _ => none) <$> step)
    (ht : r.token? = some token) (hhas : token ∈ s.tokens) :
    s.next r = ⟨(step.run s.node).2, s.tokens.erase token⟩ := by
  have hguard : ∀ t ∈ r.token?, t ∈ s.tokens := by
    rw [ht]
    rintro _ ⟨⟩
    exact hhas
  rw [next, if_pos hguard, ht, haction]
  rcases hrun : step.run s.node with ⟨stop | a, n'⟩
  · simp [Step.run_map_of_error hrun, gained]
  · simp [Step.run_map_of_ok hrun, gained]

theorem changes_next_of_preserves (h : s.Secure) (haction : r.action = (fun _ => none) <$> step)
    (ht : r.token? = none) (hstep : Preserves (s.Leads s.tokens) step) :
    s.Changes (s.next r) := by
  rw [next_of_action haction ht]
  exact (hstep s.node ⟨.refl, h⟩).1

end Next

theorem next_takeToken {n : Node} {ref : RefId} {w : SafeCommand} (hw : n.safe? ref = some w)
    (hvalid : w.state ≠ .invalidated) (tokens : List Token) :
    next ⟨n, tokens⟩ (.takeToken ref) =
      ⟨n.putSafe (w.spent w.state), w.token.toList ++ tokens⟩ := by
  simp [next, Request.token?, Request.action, Action.run_takeToken hw hvalid, gained]

theorem changes_takeToken {s : Session} (ref : RefId) : s.Changes (s.next (.takeToken ref)) := by
  obtain ⟨n, tokens⟩ := s
  obtain ⟨stop, hrun⟩ | ⟨w, hw, hvalid⟩ := Action.takeToken_refused_or n ref
  · have hnext : next ⟨n, tokens⟩ (.takeToken ref) = ⟨n, tokens⟩ := by
      simp [next, Request.token?, Request.action, hrun, gained]
    rw [hnext]
  · obtain ⟨hmem, -⟩ := Node.mem_of_safe? hw
    rw [next_takeToken hw hvalid tokens]
    cases ht : w.token with
    | none => exact .single (.spent n tokens w w.state hmem ht (.inl rfl))
    | some token => exact .single (.taken n tokens w token hmem ht)

/-- A token that no grant stands for gives nothing back. -/
theorem run_onEntry_stale {n : Node} {tokens : List Token} (h : n.Secure tokens) {id : EntryId}
    {token : Token} {step : Step CommandEntry Stop Unit}
    (hstale : ∀ e, ¬e.accepts token = true → step.run e = (.error (e.stale token), e))
    (hno : ∀ e, n.entryAt? id = some e → ¬e.accepts token = true) :
    ((Action.onEntry id step).run n).2 = n := by
  cases he : n.entryAt? id with
  | none => rw [Action.run_onEntry_none he]
  | some e =>
    rw [Action.run_onEntry he, hstale e (hno e he)]
    exact Node.putEntry_self he (h.entries id e he).1

theorem changes_giveBack {s : Session} (h : s.Secure) {r : Request} {token : Token}
    (hhas : token ∈ s.tokens) (ht : r.token? = some token) {id : EntryId}
    {step : Step CommandEntry Stop Unit} (value : CommandEntry → Option Command)
    (haction : r.action = (fun _ => none) <$> Action.onEntry id step)
    (haccepted : ∀ e, e.accepts token = true → step.run e = (.ok (), e.freed (value e)))
    (hstale : ∀ e, ¬e.accepts token = true → step.run e = (.error (e.stale token), e)) :
    s.Changes (s.next r) := by
  have hhand : s.Changes ⟨s.node, token :: s.tokens.erase token⟩ :=
    .single (.permuted _ _ _ (List.perm_cons_erase hhas))
  rw [next_of_token haction ht hhas]
  by_cases hfits : ∃ e, s.node.entryAt? id = some e ∧ e.accepts token = true
  · obtain ⟨e, he, haccepts⟩ := hfits
    rw [Action.run_onEntry he, haccepted e haccepts]
    exact hhand.tail (.released _ _ id e token (value e) he haccepts)
  · rw [run_onEntry_stale h hstale fun e he haccepts => hfits ⟨e, he, haccepts⟩]
    exact hhand.tail (.forgotten _ _ token)

theorem getExclusive_cases {s : Session} (h : s.Secure) (id : EntryId) (policy : AcquirePolicy) :
    s.next (.getExclusive id policy) = s ∨ s.Grant id (s.next (.getExclusive id policy)) := by
  obtain ⟨n, tokens⟩ := s
  cases he : n.entryAt? id with
  | none =>
    have hrun := Action.run_onEntry_none he (CacheEntry.getExclusive policy)
    left
    simp [next, Request.token?, Request.action, Action.getExclusive, Step.run_map_of_error hrun,
      gained]
  | some e =>
    cases hholder : e.holder with
    | some holder =>
      have hid : e.id = id := (h.entries id e he).1
      have hrun := Action.run_getExclusive_held policy he hid hholder
      left
      simp [next, Request.token?, Request.action, Step.run_map_of_error hrun, gained]
    | none =>
      have hrun := Action.run_getExclusive_free policy he hholder
      have hnext : next ⟨n, tokens⟩ (.getExclusive id policy) =
          ⟨n.putEntry e.granted, e.nextToken :: tokens⟩ := by
        simp [next, Request.token?, Request.action, Step.run_map_of_ok hrun, gained]
      rw [hnext]
      exact .inr (.granted n tokens e he hholder)

/-- A request is a number of changes, or a grant to a client that asks an entry itself. -/
theorem next_cases {s : Session} (h : s.Secure) (r : Request) :
    s.Changes (s.next r) ∨
      ∃ id policy, r = .getExclusive id policy ∧ s.Grant id (s.next r) := by
  have inv := leads_invariant s s.tokens
  by_cases hhas : ∀ token ∈ r.token?, token ∈ s.tokens
  · cases r with
    | acquire txn => exact .inl (changes_next_of_preserves h rfl rfl (inv.acquire txn))
    | createSafe txn => exact .inl (changes_next_of_preserves h rfl rfl (inv.createSafe txn))
    | preExecute ref policy =>
      exact .inl (changes_next_of_preserves h rfl rfl (inv.preExecute ref policy))
    | initialise ref => exact .inl (changes_next_of_preserves h rfl rfl (inv.initialise ref))
    | set ref c => exact .inl (changes_next_of_preserves h rfl rfl (inv.set ref trivial))
    | commit ref record =>
      exact .inl (changes_next_of_preserves h rfl rfl (leads_commitTo ref record))
    | releaseUnchanged ref =>
      exact .inl (changes_next_of_preserves h rfl rfl (inv.releaseUnchanged ref))
    | invalidate ref => exact .inl (changes_next_of_preserves h rfl rfl (inv.invalidate ref))
    | drop ref => exact .inl (changes_next_of_preserves h rfl rfl (inv.drop ref))
    | takeToken ref => exact .inl (changes_takeToken ref)
    | openHandle txn => exact .inl (changes_next_of_preserves h rfl rfl (leads_openHandle txn))
    | closeHandle id => exact .inl (changes_next_of_preserves h rfl rfl (leads_closeHandle id))
    | getExclusive id policy =>
      obtain hsame | hgrant := getExclusive_cases h id policy
      · rw [hsame]
        exact .inl .refl
      · exact .inr ⟨id, policy, rfl, hgrant⟩
    | release id token value =>
      exact .inl (changes_giveBack h (hhas token rfl) rfl (fun _ => value) rfl
        (fun e he => CacheEntry.run_release_of_accepts he value)
        fun e he => CacheEntry.run_release_of_stale he value)
    | abandon id token =>
      exact .inl (changes_giveBack h (hhas token rfl) rfl (fun e => e.value) rfl
        (fun e he => CacheEntry.run_abandon_of_accepts he)
        fun e he => CacheEntry.run_abandon_of_stale he)
    | forget token =>
      have hmem := hhas token rfl
      have hnext : s.next (.forget token) = ⟨s.node, s.tokens.erase token⟩ := by
        rw [next, if_pos hhas]
        rfl
      have hhand : s.Changes ⟨s.node, token :: s.tokens.erase token⟩ :=
        .single (.permuted _ _ _ (List.perm_cons_erase hmem))
      rw [hnext]
      exact .inl (hhand.tail (.forgotten _ _ token))
    | evict txn => exact .inl (changes_next_of_preserves h rfl rfl (leads_evict txn))
    | journal step => exact .inl (changes_next_of_preserves h rfl rfl (leads_journal step))
  · rw [next, if_neg hhas]
    exact .inl .refl

theorem secure_changes {s s' : Session} (hchanges : s.Changes s') (h : s.Secure) : s'.Secure := by
  induction hchanges with
  | refl => exact h
  | tail _ hchange ih => exact secure_change hchange ih

theorem secure_next {s : Session} (h : s.Secure) (r : Request) : (s.next r).Secure := by
  obtain hchanges | ⟨id, policy, -, hgrant⟩ := next_cases h r
  · exact secure_changes hchanges h
  · exact secure_grant hgrant h

theorem secure_run (policy : AcquirePolicy) (requests : List Request) :
    (run policy requests).Secure := by
  have hgeneral : ∀ s : Session, s.Secure → (requests.foldl next s).Secure := by
    induction requests with
    | nil => exact fun _ h => h
    | cons r requests ih => exact fun s h => ih _ (secure_next h r)
  exact hgeneral (start policy) (Node.Secure.empty policy)

end Session

end TxnDeps
