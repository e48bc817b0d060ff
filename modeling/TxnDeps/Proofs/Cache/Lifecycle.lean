import TxnDeps.Proofs.Cache.Commit
import TxnDeps.Proofs.Cache.Misuse

namespace TxnDeps

inductive SafeState.Moves : SafeState → SafeState → Prop
  | acquire : Moves .unacquired .active
  | complete : Moves .active .invalidated
  | giveUp : Moves .unacquired .invalidated

abbrev SafeState.Reaches : SafeState → SafeState → Prop := Relation.ReflTransGen SafeState.Moves

theorem SafeState.Ends.reaches {s t : SafeState} (h : s.Ends t) : s.Reaches t := by
  obtain rfl | rfl := h
  · exact .refl
  · cases s with
    | unacquired => exact .single .giveUp
    | active => exact .single .complete
    | invalidated => exact .refl

/-- What the safe command has goes with its state. -/
structure SafeCommand.Proper (w : SafeCommand) (n : Node) : Prop where
  unacquired : w.state = .unacquired → w.token = none ∧ w.snapshot = none ∧ w.current = none
  /-- The token is that of the grant its entry is held under, and the entry still has the value
  that was taken. -/
  holding : ∀ token ∈ w.token, w.state = .active ∧ token.entry = w.entry ∧
    ∃ e, n.entryAt? w.entry = some e ∧ e.holder = some token.grant ∧ e.value = w.snapshot
  invalidated : w.state = .invalidated → w.token = none

namespace SafeCommand.Proper

variable {w : SafeCommand} {n n' : Node}

theorem mono (h : w.Proper n)
    (hentry : w.token ≠ none → ∀ e, n.entryAt? w.entry = some e → n'.entryAt? w.entry = some e) :
    w.Proper n' where
  unacquired := h.unacquired
  holding token ht := by
    obtain ⟨hactive, hown, e, he, hrest⟩ := h.holding token ht
    have hsome : w.token ≠ none := Option.ne_none_iff_exists'.2 ⟨token, ht⟩
    exact ⟨hactive, hown, e, hentry hsome e he, hrest⟩
  invalidated := h.invalidated

theorem edited (h : w.Proper n) (hactive : w.state = .active) (c : Command) :
    ({ w with current := some c } : SafeCommand).Proper n where
  unacquired hstate := by
    rw [hactive] at hstate
    cases hstate
  holding := h.holding
  invalidated := h.invalidated

theorem spent (h : w.Proper n) {state : SafeState} (hends : w.state.Ends state) :
    (w.spent state).Proper n where
  unacquired hstate := by
    obtain hsame | hlast := hends
    · exact ⟨rfl, (h.unacquired (hsame.symm.trans hstate)).2⟩
    · rw [hlast] at hstate
      cases hstate
  holding := nofun
  invalidated _ := rfl

theorem acquired {e : CommandEntry} (hid : e.id = w.entry)
    (he : n.entryAt? w.entry = some e.granted) : (w.acquired e.value e.nextToken).Proper n where
  unacquired := nofun
  holding := by
    rintro _ ⟨⟩
    exact ⟨rfl, hid, e.granted, he, rfl, rfl⟩
  invalidated := nofun

theorem create (ref : RefId) (id : EntryId) (txn : TxnId) :
    (SafeCommand.create ref id txn).Proper n where
  unacquired _ := ⟨rfl, rfl, rfl⟩
  holding := nofun
  invalidated := nofun

end SafeCommand.Proper

def Node.Proper (n : Node) : Prop := ∀ w ∈ n.safes, w.Proper n

namespace Node.Proper

variable {n n' : Node} {tokens : List Token} {w : SafeCommand}

theorem mono (h : n.Proper) (hsafes : ∀ w ∈ n'.safes, w ∈ n.safes)
    (hentries : ∀ id e, n.entryAt? id = some e → n'.entryAt? id = some e) : n'.Proper :=
  fun w hw => (h w (hsafes w hw)).mono fun _ => hentries w.entry

theorem addSafe (h : n.Proper) (id : EntryId) (txn : TxnId) : (n.addSafe id txn).Proper := by
  intro w hw
  obtain hw | hw := List.mem_append.1 hw
  · exact (h w hw).mono fun _ _ he => he
  · rw [List.mem_singleton.1 hw]
    exact .create _ id txn

theorem putSafe (h : n.Proper) (hw : w.Proper n) : (n.putSafe w).Proper := by
  intro v hv
  obtain rfl | ⟨hv, -⟩ := mem_putSafe hv
  · exact hw.mono fun _ _ he => he
  · exact (h v hv).mono fun _ _ he => he

section PutEntry

variable {id : EntryId} {e e' : CommandEntry}

theorem putEntry (h : n.Proper) (he : n.entryAt? id = some e) (hid : e'.id = id)
    (hnone : ∀ w ∈ n.safes, w.entry = id → w.token = none) : (n.putEntry e').Proper := by
  intro w hw
  refine (h w hw).mono fun hsome e₁ he₁ => ?_
  have hne : w.entry ≠ id := fun heq => hsome (hnone w hw heq)
  rw [entryAt?_putEntry he hid, if_neg hne]
  exact he₁

theorem granted (h : n.Proper) (hsecure : n.Secure tokens) (he : n.entryAt? id = some e)
    (hfree : e.holder = none) : (n.putEntry e.granted).Proper :=
  h.putEntry he (hsecure.entries id e he).1 fun _ hw hentry =>
    hsecure.token_eq_none hw (hentry ▸ he) hfree

theorem freed (h : n.Proper) {token : Token} (hsecure : n.Secure (token :: tokens))
    (he : n.entryAt? id = some e) (haccepts : e.accepts token = true) (value : Option Command) :
    (n.putEntry (e.freed value)).Proper :=
  h.putEntry he (hsecure.entries id e he).1 fun _ hw hentry =>
    hsecure.token_eq_none_of_hand hw (hentry ▸ he) haccepts

end PutEntry

end Node.Proper

/-- Of the safe commands that had been made before, the later node has none that the earlier one
has not, and each has moved forward. -/
structure Node.Precedes (n n' : Node) : Prop where
  next_le : n.tracker.next ≤ n'.tracker.next
  descends : ∀ w' ∈ n'.safes, w'.ref.number < n.tracker.next →
    ∃ w ∈ n.safes, w.Same w' ∧ w.state.Reaches w'.state

namespace Node.Precedes

variable {n n' n'' : Node}

theorem mono (hnext : n'.tracker.next = n.tracker.next) (hsafes : ∀ w ∈ n'.safes, w ∈ n.safes) :
    n.Precedes n' where
  next_le := Nat.le_of_eq hnext.symm
  descends w hw _ := ⟨w, hsafes w hw, .refl w, .refl⟩

theorem refl (n : Node) : n.Precedes n := mono rfl fun _ hw => hw

theorem putEntry (n : Node) (e : CommandEntry) : n.Precedes (n.putEntry e) :=
  mono rfl fun _ hw => hw

theorem trans (h : n.Precedes n') (h' : n'.Precedes n'') : n.Precedes n'' where
  next_le := Nat.le_trans h.next_le h'.next_le
  descends w'' hw'' hold := by
    obtain ⟨w', hw', hsame', hreach'⟩ := h'.descends w'' hw'' (Nat.lt_of_lt_of_le hold h.next_le)
    obtain ⟨w, hw, hsame, hreach⟩ := h.descends w' hw' (hsame'.ref ▸ hold)
    exact ⟨w, hw, hsame.trans hsame', hreach.trans hreach'⟩

theorem addSafe (n : Node) (id : EntryId) (txn : TxnId) : n.Precedes (n.addSafe id txn) where
  next_le := Nat.le_succ _
  descends w hw hold := by
    obtain hw | hw := List.mem_append.1 hw
    · exact ⟨w, hw, .refl w, .refl⟩
    · rw [List.mem_singleton.1 hw] at hold
      exact absurd hold (Nat.lt_irrefl _)

theorem putSafe {w w' : SafeCommand} (hw : w ∈ n.safes) (hsame : w.Same w')
    (hreach : w.state.Reaches w'.state) : n.Precedes (n.putSafe w') where
  next_le := Nat.le_refl _
  descends v hv _ := by
    obtain rfl | ⟨hv, -⟩ := mem_putSafe hv
    · exact ⟨w, hw, hsame, hreach⟩
    · exact ⟨v, hv, .refl v, .refl⟩

end Node.Precedes

namespace Session

theorem proper_change {s s' : Session} (hchange : s.Change s') (hsecure : s.Secure)
    (h : s.node.Proper) : s'.node.Proper := by
  cases hchange with
  | journaled n tokens journal => exact h.mono (fun _ hw => hw) fun _ _ he => he
  | traced n tokens tracker hnext => exact h.mono (fun _ hw => hw) fun _ _ he => he
  | handled n tokens handles => exact h.mono (fun _ hw => hw) fun _ _ he => he
  | entryAdded n tokens txn hnone =>
    exact h.mono (fun _ hw => hw) fun _ _ he => Node.entryAt?_addEntry_of_some txn he
  | evicted n tokens txn => exact h.mono (fun _ hw => hw) fun _ _ he => he
  | safeAdded n tokens id e he => exact h.addSafe id e.key
  | safeRemoved n tokens ref =>
    exact h.mono (fun _ hw => (List.mem_filter.1 hw).1) fun _ _ he => he
  | edited n tokens w c hw hactive => exact h.putSafe ((h w hw).edited hactive c)
  | acquired n tokens w e hw hunused he hfree =>
    have hid : e.granted.id = w.entry := (Node.Secure.entries hsecure _ e he).1
    have hput : (n.putEntry e.granted).entryAt? w.entry = some e.granted := by
      rw [Node.entryAt?_putEntry he hid, if_pos rfl]
    exact (h.granted hsecure he hfree).putSafe (.acquired hid hput)
  | spent n tokens w state hw ht hends => exact h.putSafe ((h w hw).spent hends)
  | freed n tokens w e token value state hw he ht haccepts hends =>
    -- The token is as good as in hand once the safe command is without it.
    exact (h.putSafe ((h w hw).spent hends)).freed (Node.Secure.taken hsecure hw ht state) he
      haccepts value
  | taken n tokens w token hw ht => exact h.putSafe ((h w hw).spent (.inl rfl))
  | released n tokens id e token value he haccepts => exact h.freed hsecure he haccepts value
  | forgotten n tokens token => exact h
  | permuted n tokens tokens' hperm => exact h

theorem precedes_change {s s' : Session} (hchange : s.Change s') : s.node.Precedes s'.node := by
  cases hchange with
  | journaled n tokens journal => exact .mono rfl fun _ hw => hw
  | traced n tokens tracker hnext => exact .mono hnext fun _ hw => hw
  | handled n tokens handles => exact .mono rfl fun _ hw => hw
  | entryAdded n tokens txn => exact .mono rfl fun _ hw => hw
  | evicted n tokens txn => exact .mono rfl fun _ hw => hw
  | safeAdded n tokens id e => exact .addSafe n id e.key
  | safeRemoved n tokens ref => exact .mono rfl fun _ hw => (List.mem_filter.1 hw).1
  | edited n tokens w c hw => exact .putSafe hw (w.same_edited (some c)) .refl
  | acquired n tokens w e hw hunused =>
    have hmove : w.state.Moves .active := by
      rw [hunused]
      exact .acquire
    exact (Node.Precedes.putEntry n e.granted).trans
      (.putSafe hw (w.same_acquired e.value e.nextToken) (.single hmove))
  | spent n tokens w state hw ht hends => exact .putSafe hw (w.same_spent state) hends.reaches
  | freed n tokens w e token value state hw he ht haccepts hends =>
    exact (Node.Precedes.putEntry n (e.freed value)).trans
      (.putSafe hw (w.same_spent state) hends.reaches)
  | taken n tokens w token hw => exact .putSafe hw (w.same_spent w.state) .refl
  | released n tokens id e token value => exact .putEntry n (e.freed value)
  | forgotten n tokens token => exact .refl n
  | permuted n tokens => exact .refl n

end Session

/-- What may happen: all that clients ask for, looks at safe commands, and entries and safe commands
that are made past the cache. -/
inductive Event where
  | ask (r : Request)
  | makeEntry (txn : TxnId) (value : Option Command)
  | bindSafe (id : EntryId)
  | current (ref : RefId)
  | snapshot (ref : RefId)
  | global (ref : RefId)
  | update (ref : RefId)

def Event.action : Event → Action (Option Token)
  | ask r => r.action
  | makeEntry txn value => (fun _ => none) <$> Action.makeEntry txn value
  | bindSafe id => (fun _ => none) <$> Action.bindSafe id
  | current ref => (fun _ => none) <$> Action.current ref
  | snapshot ref => (fun _ => none) <$> Action.snapshot ref
  | global ref => (fun _ => none) <$> Action.global ref
  | update ref => (fun _ => none) <$> Action.update ref

namespace Session

def happen (s : Session) : Event → Session
  | .ask r => s.next r
  | event => ⟨(event.action.run s.node).2, s.tokens⟩

def trace (policy : AcquirePolicy) (events : List Event) : Session :=
  events.foldl happen (start policy)

structure Orderly (s : Session) : Prop where
  secure : s.Secure
  proper : s.node.Proper

structure Advances (s s' : Session) : Prop where
  orderly : s'.Orderly
  precedes : s.node.Precedes s'.node

theorem orderly_start (policy : AcquirePolicy) : (start policy).Orderly where
  secure := Node.Secure.empty policy
  proper _ hw := absurd hw List.not_mem_nil

theorem Orderly.stays {s : Session} (h : s.Orderly) : s.Advances s := ⟨h, .refl s.node⟩

theorem Advances.trans {s s' s'' : Session} (h : s.Advances s') (h' : s'.Advances s'') :
    s.Advances s'' :=
  ⟨h'.orderly, h.precedes.trans h'.precedes⟩

theorem advances_change {s s' : Session} (hchange : s.Change s') (h : s.Orderly) :
    s.Advances s' where
  orderly := ⟨secure_change hchange h.secure, proper_change hchange h.secure h.proper⟩
  precedes := precedes_change hchange

theorem advances_changes {s s' : Session} (hchanges : s.Changes s') (h : s.Orderly) :
    s.Advances s' := by
  induction hchanges with
  | refl => exact h.stays
  | tail _ hchange ih => exact ih.trans (advances_change hchange ih.orderly)

theorem advances_grant {s s' : Session} {id : EntryId} (hgrant : s.Grant id s') (h : s.Orderly) :
    s.Advances s' := by
  have hsecure := secure_grant hgrant h.secure
  cases hgrant with
  | granted n tokens e he hfree =>
    exact ⟨⟨hsecure, h.proper.granted h.secure he hfree⟩, .putEntry n e.granted⟩

theorem advances_next {s : Session} (h : s.Orderly) (r : Request) : s.Advances (s.next r) := by
  obtain hchanges | ⟨id, policy, -, hgrant⟩ := next_cases h.secure r
  · exact advances_changes hchanges h
  · exact advances_grant hgrant h

theorem advances_makeEntry {s : Session} (h : s.Orderly) (txn : TxnId) (value : Option Command) :
    s.Advances ⟨s.node.pushEntry txn value, s.tokens⟩ where
  orderly := ⟨Node.Secure.pushEntry h.secure txn value,
    h.proper.mono (fun _ hw => hw) fun _ _ he => Node.entryAt?_pushEntry_of_some txn value he⟩
  precedes := .mono rfl fun _ hw => hw

theorem advances_bindSafe {s : Session} (h : s.Orderly) (id : EntryId) :
    s.Advances ⟨((Action.bindSafe id).run s.node).2, s.tokens⟩ := by
  cases he : s.node.entryAt? id with
  | none =>
    rw [Action.run_bindSafe_none he]
    exact h.stays
  | some e =>
    rw [Action.run_bindSafe he]
    exact ⟨⟨Node.Secure.addSafe h.secure he, h.proper.addSafe id e.key⟩, .addSafe s.node id e.key⟩

theorem advances_look {s : Session} (h : s.Orderly) {α : Type} {look : Action α}
    (hlook : (look.run s.node).2 = s.node) :
    s.Advances ⟨(((fun _ => none) <$> look : Action (Option Token)).run s.node).2, s.tokens⟩ := by
  rw [Step.run_map_snd, hlook]
  exact h.stays

theorem advances_happen {s : Session} (h : s.Orderly) (event : Event) :
    s.Advances (s.happen event) := by
  cases event with
  | ask r => exact advances_next h r
  | makeEntry txn value => exact advances_makeEntry h txn value
  | bindSafe id =>
    have hrun : s.happen (.bindSafe id) = ⟨((Action.bindSafe id).run s.node).2, s.tokens⟩ :=
      congrArg (Session.mk · s.tokens) (Step.run_map_snd _ _ s.node)
    rw [hrun]
    exact advances_bindSafe h id
  | current ref => exact advances_look h (Action.run_look s.node ref _ _)
  | snapshot ref => exact advances_look h (Action.run_look s.node ref _ _)
  | global ref => exact advances_look h (Action.run_look s.node ref _ _)
  | update ref => exact advances_look h (Action.run_look s.node ref _ _)

theorem advances_foldl {s : Session} (h : s.Orderly) (events : List Event) :
    s.Advances (events.foldl happen s) := by
  induction events generalizing s with
  | nil => exact h.stays
  | cons event events ih =>
    have hstep := advances_happen h event
    exact hstep.trans (ih hstep.orderly)

end Session

/-- What fails because it is out of turn, or because the entry is held, changes nothing. -/
structure Node.Guarded (n : Node) : Prop where
  preExecute : ∀ w ∈ n.safes, ∀ policy stop n',
    (Action.preExecute w.ref policy).run n = (.error stop, n') →
      n' = n ∧ (w.state = .unacquired ∨ ∃ misuse, stop = .misused misuse)
  invalidated : ∀ w ∈ n.safes, w.state = .invalidated → ∀ (call : SafeCall) policy c,
    (call.action w.ref policy c).run n = (.error (.misused (.invalidated call w.txn)), n)
  unacquired : ∀ w ∈ n.safes, w.state = .unacquired → ∀ call : SafeCall,
    call = .initialise ∨ call = .set ∨ call = .update → ∀ policy c,
      (call.action w.ref policy c).run n = (.error (.misused (.unacquired call w.txn)), n)
  reused : ∀ w ∈ n.safes, w.state = .active → ∀ policy,
    (Action.preExecute w.ref policy).run n = (.error (.misused (.reused .active w.txn)), n)
  commit : ∀ w ∈ n.safes, w.state ≠ .active → ∀ record,
    ∃ misuse, (Action.commitTo w.ref record).run n = (.error (.misused misuse), n)
  releaseUnchanged : ∀ w ∈ n.safes, w.state = .invalidated →
    (Action.releaseUnchanged w.ref).run n =
      (.error (.misused (.invalidated .takeToken w.txn)), n)
  misused : ∀ (event : Event) misuse n', event.action.run n = (.error (.misused misuse), n') →
    n' = n

/-- What ends a safe command leaves it invalidated, and without a token. -/
structure Node.Closes (n : Node) : Prop where
  invalidate : ∀ w ∈ n.safes, ((Action.invalidate w.ref).run n).1 = .ok () ∧
    n.Ends w ((Action.invalidate w.ref).run n).2
  releaseUnchanged : ∀ w ∈ n.safes, w.state ≠ .invalidated →
    ((Action.releaseUnchanged w.ref).run n).1 = .ok () ∧
      n.Ends w ((Action.releaseUnchanged w.ref).run n).2
  commit : ∀ w ∈ n.safes, w.state = .active → ∀ record,
    n.Ends w ((Action.commitTo w.ref record).run n).2

namespace Node.Secure

variable {n : Node} {tokens : List Token}

/-- An operation that gives a held entry back as it is, and ends the safe command there. -/
theorem ends_of_runs (h : n.Secure tokens) {w : SafeCommand} (hw : w ∈ n.safes)
    {action : Action Unit} (hspent : w.token = none → action.run n = (.ok (), n.ended w))
    (hheld : ∀ {token e}, w.token = some token → n.entryAt? w.entry = some e →
      e.accepts token = true →
      action.run n = (.ok (), (n.putEntry (e.freed e.value)).ended w)) :
    (action.run n).1 = .ok () ∧ n.Ends w (action.run n).2 := by
  have hfound := safe?_of_mem h.refs hw
  obtain ⟨e, he, hid, -, htoken⟩ := h.exists_entry hw
  cases ht : w.token with
  | none =>
    rw [hspent ht]
    exact ⟨rfl, ends_ended hfound⟩
  | some token =>
    have hfreed : (e.freed e.value).id = w.entry := hid
    rw [hheld ht he (htoken token ht)]
    exact ⟨rfl, (ends_putEntry_ended hfound he hfreed n.journal).1⟩

theorem closes (h : n.Secure tokens) : n.Closes where
  invalidate w hw := by
    have hfound := safe?_of_mem h.refs hw
    exact h.ends_of_runs hw (Action.run_invalidate_without_token hfound)
      (Action.run_invalidate hfound)
  releaseUnchanged w hw hvalid := by
    have hfound := safe?_of_mem h.refs hw
    exact h.ends_of_runs hw (Action.run_releaseUnchanged_without_token hfound hvalid)
      (Action.run_releaseUnchanged hfound hvalid)
  commit w hw hactive record := (h.commits hw record).ends hactive

theorem spares_event (h : n.Secure tokens) (event : Event) : Action.Spares n event.action := by
  cases event with
  | ask r => exact r.spares h
  | makeEntry txn value => exact .of_ok rfl
  | bindSafe id => exact (Action.spares_bindSafe id).map _
  | current ref => exact (Action.Spares.of_kept (Action.run_look n ref _ _)).map _
  | snapshot ref => exact (Action.Spares.of_kept (Action.run_look n ref _ _)).map _
  | global ref => exact (Action.Spares.of_kept (Action.run_look n ref _ _)).map _
  | update ref => exact (Action.Spares.of_kept (Action.run_look n ref _ _)).map _

theorem guarded (h : n.Secure tokens) : n.Guarded where
  preExecute w hw policy stop n' hrun := by
    have hfound := safe?_of_mem h.refs hw
    obtain ⟨misuse, hcase⟩ | ⟨v, e, hv, hunused, -, ⟨holder, -, hcase⟩ | ⟨-, hcase⟩⟩ :=
      h.preExecute_cases w.ref policy
    · rw [hcase] at hrun
      cases hrun
      exact ⟨rfl, .inr ⟨misuse, rfl⟩⟩
    · rw [hfound] at hv
      rw [hcase] at hrun
      cases hv
      cases hrun
      exact ⟨rfl, .inl hunused⟩
    · rw [hcase] at hrun
      cases hrun
  invalidated w hw hstate call policy c :=
    call.run_of_refused (safe?_of_mem h.refs hw) (call.check_of_invalidated hstate) policy c
  unacquired w hw hstate call hcall policy c :=
    call.run_of_refused (safe?_of_mem h.refs hw) (call.check_of_unacquired hcall hstate) policy c
  reused w hw hstate policy :=
    Action.run_checked_refused (safe?_of_mem h.refs hw) (SafeCall.check_of_active hstate)
  commit w hw hstate record :=
    Action.run_commitTo_refused (safe?_of_mem h.refs hw) hstate record
  releaseUnchanged w hw hstate :=
    Step.run_bind_of_error (Action.run_checked_refused (safe?_of_mem h.refs hw)
      (SafeCall.check_of_invalidated .takeToken hstate))
  misused event := h.spares_event event

end Node.Secure

namespace Session

/-- In all that may happen, each safe command only moves forward, what it has goes with its state,
what it refuses has no effect, and what ends it leaves it invalidated for good. -/
theorem lifecycle (policy : AcquirePolicy) (earlier later : List Event) :
    let s := trace policy earlier
    let t := trace policy (earlier ++ later)
    (∀ v ∈ s.node.safes, ∀ w ∈ t.node.safes, w.ref = v.ref →
      v.Same w ∧ v.state.Reaches w.state) ∧
    (∀ w ∈ t.node.safes, w.Proper t.node) ∧ t.node.Guarded ∧ t.node.Closes := by
  intro s t
  have hs : s.Orderly := (advances_foldl (orderly_start policy) earlier).orderly
  have ht : s.Advances t := by
    have hsplit : t = later.foldl happen s := List.foldl_append
    rw [hsplit]
    exact advances_foldl hs later
  refine ⟨fun v hv w hw href => ?_, ht.orderly.proper, ht.orderly.secure.guarded,
    ht.orderly.secure.closes⟩
  -- No number is given twice, so that what has the number of `v` later on comes from `v`.
  have hold : w.ref.number < s.node.tracker.next := href ▸ hs.secure.fresh v hv
  obtain ⟨u, hu, hsame, hreaches⟩ := ht.precedes.descends w hw hold
  have huv : u = v := List.inj_on_of_nodup_map hs.secure.refs hu hv (hsame.ref.symm.trans href)
  exact ⟨huv ▸ hsame, huv ▸ hreaches⟩

/-- Two safe commands for an entry that the cache knows nothing of. The second cannot take it until
the token of the first has given it back, and cannot take it twice. The first is invalidated, and
then the second. -/
theorem lifecycle_shared :
    let t : TxnId := ⟨1, 10, 0, 1⟩
    let c : Command := .uninitialised t
    let earlier : List Event := [.makeEntry t (some c), .bindSafe ⟨0⟩, .bindSafe ⟨0⟩,
      .ask (.preExecute ⟨1⟩ .failFast), .ask (.preExecute ⟨2⟩ .failFast)]
    let later : List Event := [.ask (.takeToken ⟨1⟩), .ask (.abandon ⟨0⟩ ⟨⟨0⟩, 1⟩),
      .ask (.preExecute ⟨2⟩ .failFast), .ask (.invalidate ⟨1⟩)]
    let s := trace .failFast earlier
    let n := (trace .failFast (earlier ++ later)).node
    ∃ u ∈ n.safes, ∃ v ∈ s.node.safes, ∃ w ∈ n.safes,
      v.state = .unacquired ∧ w.state = .active ∧ v.state.Reaches w.state ∧
      w.token = some ⟨⟨0⟩, 2⟩ ∧ w.snapshot = some c ∧
      (∃ e, n.entryAt? w.entry = some e ∧ e.holder = some 2 ∧ e.value = w.snapshot) ∧
      (Action.preExecute w.ref .failFast).run n = (.error (.misused (.reused .active t)), n) ∧
      u.ref = ⟨1⟩ ∧ u.state = .invalidated ∧ u.token = none ∧
      (Action.releaseUnchanged u.ref).run n =
        (.error (.misused (.invalidated .takeToken t)), n) ∧
      ((Action.invalidate w.ref).run n).2.safe? w.ref =
        some { w with token := none, state := .invalidated } := by
  intro t c earlier later s n
  let u : SafeCommand := ⟨⟨1⟩, ⟨0⟩, t, .invalidated, some c, some c, none, false⟩
  let v : SafeCommand := ⟨⟨2⟩, ⟨0⟩, t, .unacquired, none, none, none, false⟩
  let w : SafeCommand := ⟨⟨2⟩, ⟨0⟩, t, .active, some c, some c, some ⟨⟨0⟩, 2⟩, false⟩
  have hu : u ∈ n.safes := by decide
  have hv : v ∈ s.node.safes := by decide
  have hw : w ∈ n.safes := by decide
  obtain ⟨hforward, hproper, hguarded, hcloses⟩ := lifecycle .failFast earlier later
  obtain ⟨-, hreaches⟩ := hforward v hv w hw rfl
  obtain ⟨-, -, hentry⟩ := (hproper w hw).holding ⟨⟨0⟩, 2⟩ rfl
  have htoken : u.token = none := (hproper u hu).invalidated rfl
  exact ⟨u, hu, v, hv, w, hw, rfl, rfl, hreaches, rfl, rfl, hentry,
    hguarded.reused w hw rfl .failFast, rfl, rfl, htoken, hguarded.releaseUnchanged u hu rfl,
    (hcloses.invalidate w hw).2.safe⟩

end Session

end TxnDeps
