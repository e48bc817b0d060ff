import TxnDeps.Proofs.Cache.Agreement
import TxnDeps.Proofs.Cache.Eviction
import TxnDeps.Proofs.Cache.Lifecycle

namespace TxnDeps

/-- Each update starts from what the one before it left, unless that was forgotten in between. -/
inductive Restarted (first : Option Command) : List CommandUpdate → (last : Option Command) → Prop
  | start : Restarted first [] first
  | update {us : List CommandUpdate} {mid : Option Command} (h : Restarted first us mid)
      (u : CommandUpdate) (hu : u.before = mid) : Restarted first (us ++ [u]) u.after
  | forget {us : List CommandUpdate} {mid : Option Command} (h : Restarted first us mid) :
      Restarted first us none

namespace Restarted

variable {first mid last : Option Command} {us us' : List CommandUpdate}

theorem trans (h : Restarted first us mid) (h' : Restarted mid us' last) :
    Restarted first (us ++ us') last := by
  induction h' with
  | start =>
    rw [List.append_nil]
    exact h
  | update _ u hu ih =>
    rw [← List.append_assoc]
    exact ih.update u hu
  | forget _ ih => exact ih.forget

theorem last_eq (h : Restarted none us last) (hlast : last ≠ none) :
    us.getLast?.bind (·.after) = last := by
  cases h with
  | start => exact absurd rfl hlast
  | update _ u hu =>
    rw [List.getLast?_concat]
    rfl
  | forget _ => exact absurd rfl hlast

theorem eq_none (h : Restarted none us last) (hus : us = []) : last = none := by
  cases h with
  | start => rfl
  | update _ u => exact absurd hus (List.append_ne_nil_of_right_ne_nil _ (List.cons_ne_nil u _))
  | forget _ => rfl

theorem before_head (h : Restarted none us last) : ∀ u ∈ us.head?, u.before = none := by
  induction h with
  | start =>
    rintro _ ⟨⟩
  | @update us mid h u hu ih =>
    intro v hv
    cases us with
    | nil =>
      cases hv
      exact hu.trans (h.eq_none rfl)
    | cons w us => exact ih v hv
  | forget _ ih => exact ih

end Restarted

namespace CacheEntry

variable {κ ν : Type} [Outline κ]

theorem getExclusive_keeps (policy : AcquirePolicy) (e : CacheEntry κ ν) :
    ((getExclusive policy).run e).2.id = e.id ∧
      ((getExclusive policy).run e).2.value = e.value := by
  cases hholder : e.holder with
  | none =>
    rw [run_getExclusive_of_free policy hholder]
    exact ⟨rfl, rfl⟩
  | some holder =>
    rw [run_getExclusive_of_held policy hholder]
    exact ⟨rfl, rfl⟩

theorem abandon_keeps (token : Token) (e : CacheEntry κ ν) :
    ((abandon token).run e).2.id = e.id ∧ ((abandon token).run e).2.value = e.value := by
  by_cases haccepts : e.accepts token = true
  · rw [run_abandon_of_accepts haccepts]
    exact ⟨rfl, rfl⟩
  · rw [run_abandon_of_stale haccepts]
    exact ⟨rfl, rfl⟩

end CacheEntry

namespace Node

structure Recordable (n : Node) : Prop where
  values : ∀ id e, n.entryAt? id = some e → ∀ c ∈ e.value, c.Recordable
  current : ∀ w ∈ n.safes, ∀ c ∈ w.current, c.Recordable

namespace Recordable

variable {n : Node}

theorem empty (policy : AcquirePolicy) : (Node.empty policy).Recordable where
  values id e h := by
    rw [entryAt?, Node.empty, List.getElem?_nil] at h
    cases h
  current _ hw := absurd hw List.not_mem_nil

theorem peek (h : n.Recordable) (txn : TxnId) : ∀ c ∈ n.peek txn, c.Recordable := by
  intro c hc
  obtain ⟨e, he, hvalue⟩ := Option.bind_eq_some_iff.1 hc
  obtain ⟨id, -, he⟩ := exists_entryIdOf? he
  exact h.values id e he c hvalue

theorem addEntry (h : n.Recordable) (txn : TxnId) : (n.addEntry txn).Recordable where
  values id e he := by
    rw [entryAt?_addEntry] at he
    by_cases hid : id = n.nextEntry
    · rw [if_pos hid] at he
      cases he
      rintro _ ⟨⟩
    · rw [if_neg hid] at he
      exact h.values id e he
  current := h.current

theorem addSafe (h : n.Recordable) (id : EntryId) (txn : TxnId) :
    (n.addSafe id txn).Recordable where
  values := h.values
  current w hw := by
    obtain hw | hw := List.mem_append.1 hw
    · exact h.current w hw
    · rw [List.mem_singleton.1 hw]
      rintro _ ⟨⟩

theorem removeSafe (h : n.Recordable) (ref : RefId) : (n.removeSafe ref).Recordable where
  values := h.values
  current w hw := h.current w (List.mem_filter.1 hw).1

theorem putSafe (h : n.Recordable) {w : SafeCommand} (hw : ∀ c ∈ w.current, c.Recordable) :
    (n.putSafe w).Recordable where
  values := h.values
  current v hv := by
    obtain rfl | ⟨hv, -⟩ := mem_putSafe hv
    · exact hw
    · exact h.current v hv

theorem putEntry (h : n.Recordable) {id : EntryId} {e e' : CommandEntry}
    (he : n.entryAt? id = some e) (hid : e'.id = id) (hvalue : ∀ c ∈ e'.value, c.Recordable) :
    (n.putEntry e').Recordable where
  values id₁ e₁ he₁ := by
    rw [entryAt?_putEntry he hid] at he₁
    by_cases heq : id₁ = id
    · rw [if_pos heq] at he₁
      cases he₁
      exact hvalue
    · rw [if_neg heq] at he₁
      exact h.values id₁ e₁ he₁
  current := h.current

end Recordable

/-- No transaction has another value than before, and the journal is the same. -/
structure Keeps (n n' : Node) : Prop where
  peek : ∀ txn, n'.peek txn = n.peek txn
  journal : n'.journal = n.journal
  recordable : n'.Recordable

namespace Keeps

variable {n n' : Node} {tokens : List Token}

theorem refl (h : n.Recordable) : n.Keeps n := ⟨fun _ => rfl, rfl, h⟩

theorem withRest (h : n.Keeps n') (handles : List EntryId) (tracker : RefTracker) :
    n.Keeps { n' with handles := handles, tracker := tracker } :=
  ⟨h.peek, h.journal, h.recordable.values, h.recordable.current⟩

theorem addEntry (h : n.Keeps n') (hsecure : n'.Secure tokens) {txn : TxnId}
    (hnone : n'.entryIdOf? txn = none) : n.Keeps (n'.addEntry txn) where
  peek t := (hsecure.peek_addEntry hnone t).trans (h.peek t)
  journal := h.journal
  recordable := h.recordable.addEntry txn

theorem addSafe (h : n.Keeps n') (id : EntryId) (txn : TxnId) : n.Keeps (n'.addSafe id txn) :=
  ⟨h.peek, h.journal, h.recordable.addSafe id txn⟩

theorem removeSafe (h : n.Keeps n') (ref : RefId) : n.Keeps (n'.removeSafe ref) :=
  ⟨h.peek, h.journal, h.recordable.removeSafe ref⟩

theorem putSafe (h : n.Keeps n') {w : SafeCommand} (hw : ∀ c ∈ w.current, c.Recordable) :
    n.Keeps (n'.putSafe w) :=
  ⟨h.peek, h.journal, h.recordable.putSafe hw⟩

theorem putEntry (h : n.Keeps n') {id : EntryId} {e e' : CommandEntry}
    (he : n'.entryAt? id = some e) (hid : e'.id = id) (hvalue : e'.value = e.value) :
    n.Keeps (n'.putEntry e') where
  peek txn := by
    rw [← h.peek, peek_putEntry he hid]
    by_cases hplace : n'.entryIdOf? txn = some id
    · rw [if_pos hplace, peek_of_some hplace, he]
      exact hvalue
    · rw [if_neg hplace]
  journal := h.journal
  recordable := h.recordable.putEntry he hid (hvalue ▸ h.recordable.values id e he)

theorem ended (h : n.Keeps n') {w : SafeCommand} (hw : ∀ c ∈ w.current, c.Recordable) :
    n.Keeps (n'.ended w) := by
  have hspent : n.Keeps (n'.putSafe (w.spent .invalidated)) := h.putSafe hw
  exact hspent.withRest n'.handles (n'.tracker.release w.ref)

theorem invariant (n : Node) (tokens : List Token) :
    Node.Invariant (fun n' => n'.Secure tokens ∧ n.Keeps n') Command.Recordable where
  secure n' h := ⟨tokens, h.1⟩
  traced n' tracker h hnext :=
    ⟨(Secure.invariant tokens).traced n' tracker h.1 hnext, h.2.withRest n'.handles tracker⟩
  entryAdded n' txn h hnone := ⟨h.1.addEntry hnone, h.2.addEntry h.1 hnone⟩
  safeAdded n' id e h he _ := ⟨h.1.addSafe he, h.2.addSafe id e.key⟩
  safeRemoved n' ref h := ⟨h.1.removeSafe ref, h.2.removeSafe ref⟩
  edited n' w c h hw hactive hc := by
    refine ⟨(Secure.invariant tokens).edited n' w c h.1 hw hactive trivial, h.2.putSafe ?_⟩
    rintro _ ⟨⟩
    exact hc
  initialised n' w h hw := w.recordable_initialised (h.2.recordable.current w hw)
  granted n' w e h hw hunused he hfree := by
    have hid : e.granted.id = w.entry := (h.1.entries _ e he).1
    have hput := h.2.putEntry he hid rfl
    exact ⟨(Secure.invariant tokens).granted n' w e h.1 hw hunused he hfree,
      hput.putSafe (h.2.recordable.values _ e he)⟩
  spent n' w state h hw ht hends :=
    ⟨(Secure.invariant tokens).spent n' w state h.1 hw ht hends,
      h.2.putSafe (h.2.recordable.current w hw)⟩
  freed n' w e token state h hw he ht haccepts hends := by
    have hid : (e.freed e.value).id = w.entry := (h.1.entries _ e he).1
    have hput := h.2.putEntry he hid rfl
    exact ⟨(Secure.invariant tokens).freed n' w e token state h.1 hw he ht haccepts hends,
      hput.putSafe (h.2.recordable.current w hw)⟩

theorem onEntry {α : Type} (h : n.Recordable) (hsecure : n.Secure tokens) (id : EntryId)
    {step : Step CommandEntry Stop α}
    (hstep : ∀ e, (step.run e).2.id = e.id ∧ (step.run e).2.value = e.value) :
    n.Keeps ((Action.onEntry id step).run n).2 := by
  cases he : n.entryAt? id with
  | none =>
    rw [Action.run_onEntry_none he]
    exact .refl h
  | some e =>
    obtain ⟨hid, hvalue⟩ := hstep e
    rw [Action.run_onEntry he]
    exact (refl h).putEntry he (hid.trans (hsecure.entries id e he).1) hvalue

theorem takeToken (h : n.Recordable) (ref : RefId) :
    n.Keeps ((Action.takeToken ref).run n).2 := by
  obtain ⟨s, hrun⟩ | ⟨w, hw, hvalid⟩ := Action.takeToken_refused_or n ref
  · rw [hrun]
    exact .refl h
  · rw [Action.run_takeToken hw hvalid]
    exact (refl h).putSafe (h.current w (mem_of_safe? hw).1)

theorem openHandle (h : n.Recordable) (hsecure : n.Secure tokens) (txn : TxnId) :
    n.Keeps ((Action.openHandle txn).run n).2 := by
  obtain ⟨id, n', e, hrun, ⟨-, hkept⟩, -⟩ :=
    (invariant n tokens).exists_run_entryOf ⟨hsecure, .refl h⟩ txn
  rw [Action.openHandle, Step.run_bind_of_ok hrun]
  exact hkept.withRest (id :: n'.handles) n'.tracker

end Keeps

/-- The updates that the journal has got account for every value that has changed. -/
structure Recounts (n : Node) (us : List CommandUpdate) (n' : Node) : Prop where
  recorded : n'.journal.records = n.journal.records ++ us.map (·.toBytes)
  updates : ∀ u ∈ us, u.Recordable
  told : ∀ txn, Restarted (n.peek txn) (us.filter (·.txn = txn)) (n'.peek txn)
  recordable : n'.Recordable

namespace Recounts

variable {n n' n'' : Node} {us us' : List CommandUpdate} {tokens : List Token}

theorem of_keeps (h : n.Keeps n') : n.Recounts [] n' where
  recorded := by rw [h.journal, List.map_nil, List.append_nil]
  updates _ hu := absurd hu List.not_mem_nil
  told txn := by
    rw [h.peek]
    exact .start
  recordable := h.recordable

theorem refl (h : n.Recordable) : n.Recounts [] n := of_keeps (.refl h)

theorem trans (h : n.Recounts us n') (h' : n'.Recounts us' n'') : n.Recounts (us ++ us') n'' where
  recorded := by rw [h'.recorded, h.recorded, List.map_append, List.append_assoc]
  updates u hu := by
    obtain hu | hu := List.mem_append.1 hu
    · exact h.updates u hu
    · exact h'.updates u hu
  told txn := by
    rw [List.filter_append]
    exact (h.told txn).trans (h'.told txn)
  recordable := h'.recordable

theorem evicted (h : n.Recordable) (txn : TxnId) : n.Recounts [] (n.evicted txn) where
  recorded := (List.append_nil _).symm
  updates _ hu := absurd hu List.not_mem_nil
  told t := by
    rw [peek_evicted]
    by_cases ht : t = txn
    · rw [if_pos ht]
      exact .forget .start
    · rw [if_neg ht]
      exact .start
  recordable := ⟨h.values, h.current⟩

/-- The update of a commit starts from the value that the entry had until then. -/
theorem committed (h : n.Recordable) (hsecure : n.Secure tokens) (hproper : n.Proper)
    (hmapped : n.Mapped) {w : SafeCommand} {e : CommandEntry} {token : Token} (hw : w ∈ n.safes)
    (he : n.entryAt? w.entry = some e) (hkey : e.key = w.txn) (ht : w.token = some token) :
    n.Recounts [w.toUpdate] ((({ n with journal := n.journal.append w.toUpdate } : Node).putEntry
      (e.freed w.current)).ended w) := by
  have hid : (e.freed w.current).id = w.entry := (hsecure.entries _ e he).1
  have hplace : n.entryIdOf? e.key = some w.entry :=
    hsecure.entryIdOf?_of_knows (hmapped w.entry (.safe w hw)) he
  have hvalue : w.snapshot = n.peek e.key := by
    obtain ⟨-, -, e', he', -, hsnapshot⟩ := (hproper w hw).holding token ht
    rw [peek_of_some hplace, he', ← hsnapshot]
    rfl
  have hpeek : ∀ txn, ((({ n with journal := n.journal.append w.toUpdate } : Node).putEntry
      (e.freed w.current)).ended w).peek txn = if txn = e.key then w.current else n.peek txn := by
    intro txn
    rw [← if_congr (hsecure.entryIdOf?_eq_some_iff he hplace) rfl rfl]
    exact peek_putEntry he hid txn
  have hjournal : ({ n with journal := n.journal.append w.toUpdate } : Node).Recordable :=
    ⟨h.values, h.current⟩
  have hended := (hjournal.putEntry he hid (h.current w hw)).putSafe
    (w := w.spent .invalidated) (h.current w hw)
  refine ⟨rfl, fun u hu => ?_, fun txn => ?_, ⟨hended.values, hended.current⟩⟩
  · rw [List.mem_singleton.1 hu]
    refine ⟨?_, h.current w hw⟩
    change ∀ c ∈ w.snapshot, c.Recordable
    rw [hvalue]
    exact h.peek e.key
  · rw [hpeek]
    by_cases htxn : txn = e.key
    · have hfilter : [w.toUpdate].filter (·.txn = txn) = [] ++ [w.toUpdate] :=
        @filter_append_own [] w.toUpdate txn (hkey.symm.trans htxn.symm)
      rw [if_pos htxn, hfilter, htxn]
      exact .update .start w.toUpdate hvalue
    · have hfilter : [w.toUpdate].filter (·.txn = txn) = [] :=
        @filter_append_other [] w.toUpdate txn fun heq => htxn (heq.symm.trans hkey.symm)
      rw [if_neg htxn, hfilter]
      exact .start

theorem commit (h : n.Recordable) (hsecure : n.Secure tokens) (hproper : n.Proper)
    (hmapped : n.Mapped) (ref : RefId) (recorder : Recorder) :
    ∃ us, n.Recounts us
      ((Action.commitTo ref fun u => recorder.record u).run n).2 := by
  obtain ⟨misuse, hrun⟩ | ⟨w, hw, ⟨ht, hrun⟩ | ⟨token, e, j, ht, he, hkey, -, hrecorded⟩⟩ :=
    Action.commitTo_cases hsecure ref fun u => recorder.record u
  · rw [hrun]
    exact ⟨[], .refl h⟩
  · rw [hrun]
    exact ⟨[], .of_keeps ((Keeps.refl h).ended (h.current w hw))⟩
  · cases recorder with
    | refusing error =>
      obtain ⟨_, ⟨⟩, hrun⟩ | ⟨⟨⟩, -⟩ := hrecorded
      have hid : (e.freed e.value).id = w.entry := (hsecure.entries _ e he).1
      have hfreed : n.Keeps (n.putEntry (e.freed e.value)) := (Keeps.refl h).putEntry he hid rfl
      rw [hrun]
      exact ⟨[], .of_keeps (hfreed.ended (h.current w hw))⟩
    | journal =>
      obtain ⟨_, ⟨⟩, -⟩ | ⟨⟨⟩, hrun⟩ := hrecorded
      rw [hrun]
      exact ⟨_, committed h hsecure hproper hmapped hw he hkey ht⟩

end Recounts

end Node

/-- The request changes no command past the journal, and the journal for no command. -/
def Request.Journaled : Request → Prop
  | set _ c => c.Recordable
  | commit _ record => ∃ recorder : Recorder, record = fun u => recorder.record u
  | release _ _ _ | journal _ => False
  | _ => True

def CacheCall.Journaled : CacheCall → Prop
  | ask r => r.Journaled
  | _ => True

theorem Node.exists_recounts_request {n : Node} {tokens : List Token} (h : n.Recordable)
    (hsecure : n.Secure tokens) (hproper : n.Proper) (hmapped : n.Mapped) {r : Request}
    (hr : r.Journaled) : ∃ us, n.Recounts us (r.action.run n).2 := by
  have inv := Keeps.invariant n tokens
  have hkept : ∀ {α : Type} (step : Action α), n.Keeps (step.run n).2 →
      ∃ us, n.Recounts us (((fun _ => none) <$> step : Action (Option Token)).run n).2 := by
    intro α step hstep
    rw [Step.run_map_snd]
    exact ⟨[], .of_keeps hstep⟩
  have hpreserved : ∀ {α : Type} (step : Action α),
      Action.Preserves (fun n' => n'.Secure tokens ∧ n.Keeps n') step →
        n.Keeps (step.run n).2 :=
    fun step hstep => (hstep n ⟨hsecure, .refl h⟩).2
  cases r with
  | acquire txn => exact hkept _ (hpreserved _ (inv.acquire txn))
  | createSafe txn => exact hkept _ (hpreserved _ (inv.createSafe txn))
  | preExecute ref policy => exact hkept _ (hpreserved _ (inv.preExecute ref policy))
  | initialise ref => exact hkept _ (hpreserved _ (inv.initialise ref))
  | set ref c => exact hkept _ (hpreserved _ (inv.set ref hr))
  | commit ref record =>
    obtain ⟨recorder, rfl⟩ := hr
    change ∃ us, n.Recounts us (((fun _ => none) <$> Action.commitTo ref _).run n).2
    rw [Step.run_map_snd]
    exact Recounts.commit h hsecure hproper hmapped ref recorder
  | releaseUnchanged ref => exact hkept _ (hpreserved _ (inv.releaseUnchanged ref))
  | invalidate ref => exact hkept _ (hpreserved _ (inv.invalidate ref))
  | drop ref => exact hkept _ (hpreserved _ (inv.drop ref))
  | takeToken ref => exact ⟨[], .of_keeps (.takeToken h ref)⟩
  | openHandle txn => exact hkept _ (.openHandle h hsecure txn)
  | closeHandle id => exact hkept _ ((Keeps.refl h).withRest (n.handles.erase id) n.tracker)
  | getExclusive id policy =>
    have hstep := Keeps.onEntry h hsecure id (CacheEntry.getExclusive_keeps policy)
    change ∃ us, n.Recounts us ((_ <$> Action.getExclusive id policy).run n).2
    rw [Step.run_map_snd]
    exact ⟨[], .of_keeps hstep⟩
  | release id token value => exact absurd hr not_false
  | abandon id token => exact hkept _ (.onEntry h hsecure id (CacheEntry.abandon_keeps token))
  | forget token => exact ⟨[], .refl h⟩
  | evict txn =>
    change ∃ us, n.Recounts us (((fun _ => none) <$> Action.evict txn).run n).2
    rw [Step.run_map_snd]
    obtain ⟨e, -, -, -, hrun⟩ | ⟨-, hrun⟩ := Action.run_evict n txn
    · rw [hrun]
      exact ⟨[], .evicted h txn⟩
    · rw [hrun]
      exact ⟨[], .refl h⟩
  | journal step => exact absurd hr not_false

namespace Session

structure Accountable (s : Session) : Prop where
  orderly : s.Orderly
  mapped : s.Mapped
  recordable : s.node.Recordable

theorem accountable_start (policy : AcquirePolicy) : (start policy).Accountable where
  orderly := orderly_start policy
  mapped := ⟨.empty policy, fun _ hmem => absurd hmem List.not_mem_nil⟩
  recordable := .empty policy

theorem node_next (s : Session) (r : Request) :
    (s.next r).node = s.node ∨ (s.next r).node = (r.action.run s.node).2 := by
  rw [next]
  split
  · exact .inr rfl
  · exact .inl rfl

theorem orderly_serve {s : Session} (h : s.Orderly) (hmapped : s.Mapped) (call : CacheCall) :
    (s.serve call).Orderly := by
  obtain hchanges | ⟨id, -, hgrant⟩ := serve_cases h.secure hmapped.node call
  · exact (advances_changes hchanges h).orderly
  · exact (advances_grant hgrant h).orderly

theorem recounts_serve {s : Session} (h : s.Accountable) {call : CacheCall}
    (hcall : call.Journaled) : ∃ us, s.node.Recounts us (s.serve call).node := by
  have hrefl := Node.Keeps.refl h.recordable
  rw [serve]
  split
  · cases call with
    | ask r =>
      obtain hsame | hstep := node_next s r
      · exact ⟨[], .of_keeps (hsame ▸ hrefl)⟩
      · rw [answer, hstep]
        exact Node.exists_recounts_request h.recordable h.orderly.secure h.orderly.proper
          h.mapped.node hcall
    | findHandle txn =>
      cases hid : s.node.entryIdOf? txn with
      | none =>
        rw [answer, Action.findHandle, Step.run_bind_of_ok (Step.run_get _), hid]
        exact ⟨[], .of_keeps hrefl⟩
      | some id =>
        rw [answer, Action.findHandle, Step.run_bind_of_ok (Step.run_get _), hid]
        exact ⟨[], .of_keeps (hrefl.withRest (id :: s.node.handles) s.node.tracker)⟩
    | shareHandle id =>
      exact ⟨[], .of_keeps (hrefl.withRest (id :: s.node.handles) s.node.tracker)⟩
    | bindSafe id =>
      cases he : s.node.entryAt? id with
      | none =>
        rw [answer, Action.run_bindSafe_none he]
        exact ⟨[], .of_keeps hrefl⟩
      | some e =>
        rw [answer, Action.run_bindSafe he]
        exact ⟨[], .of_keeps (hrefl.addSafe id e.key)⟩
  · exact ⟨[], .of_keeps hrefl⟩

theorem recounts_foldl {s : Session} (h : s.Accountable) (calls : List CacheCall)
    (hcalls : ∀ call ∈ calls, call.Journaled) :
    (calls.foldl serve s).Accountable ∧
      ∃ us, s.node.Recounts us (calls.foldl serve s).node := by
  induction calls generalizing s with
  | nil => exact ⟨h, [], .refl h.recordable⟩
  | cons call calls ih =>
    obtain ⟨us, hus⟩ := recounts_serve h (hcalls call List.mem_cons_self)
    have hnext : (s.serve call).Accountable := {
      orderly := orderly_serve h.orderly h.mapped call
      mapped := (mapped_serve h.orderly.secure h.mapped call).2
      recordable := hus.recordable }
    have hrest : ∀ call' ∈ calls, call'.Journaled :=
      fun call' hmem => hcalls call' (List.mem_cons_of_mem call hmem)
    obtain ⟨hlast, us', hus'⟩ := ih hnext hrest
    exact ⟨hlast, us ++ us', hus.trans hus'⟩

end Session

end TxnDeps
