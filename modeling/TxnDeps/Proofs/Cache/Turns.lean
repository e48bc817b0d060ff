import TxnDeps.Proofs.Cache.Lifecycle

namespace TxnDeps

namespace RefTracker

variable {t : RefTracker}

def Fresh (t : RefTracker) : Prop := ∀ r ∈ t.live, r.ref.number < t.next

theorem Fresh.ne (h : t.Fresh) {r : Tracked} (hr : r ∈ t.live) : r.ref ≠ ⟨t.next⟩ := by
  intro heq
  have hlt := h r hr
  rw [heq] at hlt
  exact Nat.lt_irrefl _ hlt

theorem Fresh.trace_register (h : t.Fresh) (label message : String) :
    ((t.register label).2.trace (t.register label).1 message).live =
      t.live ++ [⟨⟨t.next⟩, label, ["created", message]⟩] := by
  have hold : (t.live.map fun r => if r.ref = (t.register label).1 then
      { r with trail := r.trail ++ [message] } else r) = t.live :=
    (List.map_congr_left fun r hr => if_neg (h.ne hr)).trans (List.map_id _)
  change (t.live ++ [_]).map _ = _
  rw [List.map_append, hold]
  simp [register]

theorem Fresh.release_register (h : t.Fresh) (label : String) :
    ((t.register label).2.release (t.register label).1).live = t.live := by
  have hold : t.live.filter (·.ref ≠ (t.register label).1) = t.live :=
    List.filter_eq_self.2 fun r hr => decide_eq_true (h.ne hr)
  change (t.live ++ [_]).filter _ = _
  rw [List.filter_append, hold]
  simp [register]

end RefTracker

def SafeCommand.record (taken : List RefId) (w : SafeCommand) : Tracked :=
  ⟨w.ref, w.txn.text, "created" :: if w.ref ∈ taken then ["acquired"] else []⟩

/-- The reference of the safe command that takes its entry, if the event makes one take it. -/
def Event.taken? (n : Node) : Event → Option RefId
  | .ask (.preExecute ref policy) =>
    ((Action.preExecute ref policy).run n).1.toOption.map fun _ => ref
  | .ask (.acquire txn) => ((Action.acquire txn).run n).1.toOption
  | _ => none

/-- What an event does to the safe commands of a node and to the register. At most one of them takes
its entry. -/
inductive Node.Turn (n n' : Node) : Option RefId → Prop
  | kept (hsafes : ∀ w ∈ n'.safes, w ∈ n.safes) (hlive : n'.tracker.live = n.tracker.live)
      (hnext : n.tracker.next ≤ n'.tracker.next) : Turn n n' none
  | made (w : SafeCommand) (taken? : Option RefId) (hsafes : n'.safes = n.safes ++ [w])
      (href : w.ref = ⟨n.tracker.next⟩) (hvalid : w.state ≠ .invalidated)
      (hunused : w.state = .unacquired → taken? = none) (htaken : ∀ ref ∈ taken?, ref = w.ref)
      (hlive : n'.tracker.live = n.tracker.live ++ [w.record taken?.toList])
      (hnext : n'.tracker.next = n.tracker.next + 1) : Turn n n' taken?
  | edited (w w' : SafeCommand) (hw : w ∈ n.safes) (hsame : w.Same w')
      (hstate : w'.state = w.state) (hsafes : n'.safes = (n.putSafe w').safes)
      (htracker : n'.tracker = n.tracker) : Turn n n' none
  | acquired (w w' : SafeCommand) (hw : w ∈ n.safes) (hsame : w.Same w')
      (hunused : w.state = .unacquired) (hactive : w'.state = .active)
      (hsafes : n'.safes = (n.putSafe w').safes)
      (htracker : n'.tracker = n.tracker.trace w.ref "acquired") : Turn n n' (some w.ref)
  | ended (w w' : SafeCommand) (hw : w ∈ n.safes) (hsame : w.Same w')
      (hends : w'.state = .invalidated) (hsafes : n'.safes = (n.putSafe w').safes)
      (htracker : n'.tracker = n.tracker.release w.ref) : Turn n n' none

namespace Action

variable {α β : Type} {n : Node} {tokens : List Token}

def Keeps (action : Action α) : Prop :=
  ∀ n, (action.run n).2.safes = n.safes ∧ (action.run n).2.tracker = n.tracker

namespace Keeps

theorem turn {action : Action α} (h : Keeps action) (n : Node) : n.Turn (action.run n).2 none := by
  obtain ⟨hsafes, htracker⟩ := h n
  exact .kept (fun w hw => hsafes ▸ hw) (congrArg RefTracker.live htracker)
    (Nat.le_of_eq (congrArg RefTracker.next htracker.symm))

theorem of_run {action : Action α} (h : Keeps action) {result : Except Stop α} {n' : Node}
    (hrun : action.run n = (result, n')) : n'.safes = n.safes ∧ n'.tracker = n.tracker := by
  have hkept := h n
  rwa [hrun] at hkept

theorem onEntry (id : EntryId) (step : Step CommandEntry Stop α) : Keeps (onEntry id step) := by
  intro n
  cases he : n.entryAt? id with
  | none =>
    rw [run_onEntry_none he]
    exact ⟨rfl, rfl⟩
  | some e =>
    rw [run_onEntry he]
    exact ⟨rfl, rfl⟩

theorem entryOf (txn : TxnId) : Keeps (entryOf txn) := by
  intro n
  cases hid : n.entryIdOf? txn with
  | some id =>
    rw [run_entryOf_some hid]
    exact ⟨rfl, rfl⟩
  | none =>
    rw [run_entryOf_none hid]
    exact ⟨rfl, rfl⟩

theorem openHandle (txn : TxnId) : Keeps (openHandle txn) := by
  intro n
  obtain ⟨id, n', hrun⟩ := exists_run_entryOf n txn
  have hkept := (entryOf txn).of_run hrun
  rw [Action.openHandle, Step.run_bind_of_ok hrun]
  exact hkept

theorem evict (txn : TxnId) : Keeps (evict txn) := by
  intro n
  obtain ⟨e, -, -, -, hrun⟩ | ⟨-, hrun⟩ := run_evict n txn
  · rw [hrun]
    exact ⟨rfl, rfl⟩
  · rw [hrun]
    exact ⟨rfl, rfl⟩

end Keeps

theorem exists_run_giveBack (w : SafeCommand) (n : Node) :
    ∃ n', (giveBack w).run n = (.ok (), n') ∧ n'.safes = n.safes ∧ n'.tracker = n.tracker := by
  cases ht : w.token with
  | none => exact ⟨n, run_giveBack_none ht, rfl, rfl⟩
  | some token =>
    refine ⟨_, ?_, Keeps.onEntry w.entry (CacheEntry.abandon token) n⟩
    rw [giveBack, ht]
    rfl

end Action

namespace Node.Turn

open TxnDeps.Action (Keeps)

variable {n n' : Node} {tokens : List Token}

theorem refl (n : Node) : n.Turn n none := .kept (fun _ hw => hw) rfl (Nat.le_refl _)

section Map

variable {α β : Type} {step : Action α}

theorem map {t : Option RefId} (h : n.Turn (step.run n).2 t) (f : α → β) :
    n.Turn ((f <$> step).run n).2 t := by
  rw [Step.run_map_snd]
  exact h

theorem look (h : (step.run n).2 = n) (f : α → β) : n.Turn ((f <$> step).run n).2 none := by
  rw [Step.run_map_snd, h]
  exact .refl n

end Map

section Found

variable {α : Type} {ref : RefId}

theorem found {next : SafeCommand → Action α}
    (h : ∀ w, n.safe? ref = some w → n.Turn ((next w).run n).2 none) :
    n.Turn ((Action.safe ref >>= next).run n).2 none := by
  cases hw : n.safe? ref with
  | none =>
    rw [Step.run_bind_of_error (Action.run_safe_none hw)]
    exact .refl n
  | some w =>
    rw [Step.run_bind_of_ok (Action.run_safe hw)]
    exact h w hw

theorem checked {check : SafeCommand → Except Stop Unit} {next : SafeCommand → Unit → Action α}
    (h : ∀ w, n.safe? ref = some w → n.Turn ((next w ()).run n).2 none) :
    n.Turn ((Action.safe ref >>= fun w => Step.ofExcept (check w) >>= next w).run n).2 none := by
  refine found fun w hw => ?_
  cases check w with
  | error stop => exact .refl n
  | ok _ => exact h w hw

end Found

theorem initialise (n : Node) (ref : RefId) : n.Turn ((Action.initialise ref).run n).2 none :=
  checked fun w hw =>
    .edited w _ (mem_of_safe? hw).1 (w.same_edited (some w.initialised)) rfl rfl rfl

theorem set (n : Node) (ref : RefId) (c : Command) : n.Turn ((Action.set ref c).run n).2 none :=
  checked fun w hw => .edited w _ (mem_of_safe? hw).1 (w.same_edited (some c)) rfl rfl rfl

theorem takeToken (n : Node) (ref : RefId) : n.Turn ((Action.takeToken ref).run n).2 none :=
  checked fun w hw => .edited w _ (mem_of_safe? hw).1 (w.same_spent w.state) rfl rfl rfl

theorem of_ended {w : SafeCommand} (hw : w ∈ n.safes) (hsafes : n'.safes = n.safes)
    (htracker : n'.tracker = n.tracker) : n.Turn (n'.ended w) none := by
  refine .ended w (w.spent .invalidated) hw (w.same_spent _) rfl ?_ ?_
  · rw [Node.ended, Node.putSafe, Node.putSafe, hsafes]
  · rw [Node.ended, htracker]

theorem invalidate (n : Node) (ref : RefId) : n.Turn ((Action.invalidate ref).run n).2 none := by
  refine found fun w hw => ?_
  obtain ⟨hmem, rfl⟩ := mem_of_safe? hw
  obtain ⟨n', hrun, hsafes, htracker⟩ := Action.exists_run_giveBack w n
  rw [Step.run_bind_of_ok hrun]
  exact of_ended hmem hsafes htracker

theorem drop (n : Node) (ref : RefId) : n.Turn ((Action.drop ref).run n).2 none := by
  refine found fun w _ => ?_
  obtain ⟨n', hrun, hsafes, htracker⟩ := Action.exists_run_giveBack w n
  rw [Step.run_bind_of_ok hrun]
  refine .kept (fun v hv => ?_) (congrArg RefTracker.live htracker)
    (Nat.le_of_eq (congrArg RefTracker.next htracker.symm))
  exact hsafes ▸ (List.mem_filter.1 hv).1

theorem releaseUnchanged (h : n.Secure tokens) (ref : RefId) :
    n.Turn ((Action.releaseUnchanged ref).run n).2 none := by
  obtain ⟨s, hrun⟩ | ⟨w, hw, hvalid⟩ := Action.takeToken_refused_or n ref
  · rw [Action.releaseUnchanged, Step.run_bind_of_error hrun]
    exact .refl n
  · obtain ⟨hmem, -⟩ := mem_of_safe? hw
    obtain ⟨e, he, -, -, htoken⟩ := h.exists_entry hmem
    cases ht : w.token with
    | none =>
      rw [Action.run_releaseUnchanged_without_token hw hvalid ht]
      exact of_ended hmem rfl rfl
    | some token =>
      rw [Action.run_releaseUnchanged hw hvalid ht he (htoken token ht)]
      exact of_ended hmem rfl rfl

theorem commitTo (h : n.Secure tokens) (ref : RefId)
    (record : CommandUpdate → Step Journal Error Unit) :
    n.Turn ((Action.commitTo ref record).run n).2 none := by
  obtain ⟨misuse, hrun⟩ | ⟨w, hw, ⟨-, hrun⟩ | ⟨token, e, j, -, -, -, -, hrecorded⟩⟩ :=
    Action.commitTo_cases h ref record
  · rw [hrun]
    exact .refl n
  · rw [hrun]
    exact of_ended hw rfl rfl
  · obtain ⟨error, -, hrun⟩ | ⟨-, hrun⟩ := hrecorded
    · rw [hrun]
      exact of_ended hw rfl rfl
    · rw [hrun]
      exact of_ended hw rfl rfl

theorem preExecute (h : n.Secure tokens) (ref : RefId) (policy : AcquirePolicy) :
    n.Turn ((Action.preExecute ref policy).run n).2
      (((Action.preExecute ref policy).run n).1.toOption.map fun _ => ref) := by
  obtain ⟨misuse, hrun⟩ | ⟨w, e, hw, hunused, -, ⟨holder, -, hrun⟩ | ⟨-, hrun⟩⟩ :=
    h.preExecute_cases ref policy
  · rw [hrun]
    exact .refl n
  · rw [hrun]
    exact .refl n
  · obtain ⟨hmem, rfl⟩ := mem_of_safe? hw
    rw [hrun]
    exact .acquired w _ hmem (w.same_acquired e.value e.nextToken) hunused rfl rfl rfl

theorem addSafe (hsafes : n'.safes = n.safes) (htracker : n'.tracker = n.tracker) (id : EntryId)
    (txn : TxnId) : n.Turn (n'.addSafe id txn) none := by
  have href : (n'.tracker.register txn.text).1 = ⟨n.tracker.next⟩ := by
    rw [htracker]
    rfl
  refine .made (.create (n'.tracker.register txn.text).1 id txn) none ?_ href nofun (fun _ => rfl)
    nofun ?_ ?_
  · rw [← hsafes]
    rfl
  · rw [← htracker]
    rfl
  · rw [← htracker]
    rfl

theorem createSafe (n : Node) (txn : TxnId) : n.Turn ((Action.createSafe txn).run n).2 none := by
  obtain ⟨id, n', hrun⟩ := Action.exists_run_entryOf n txn
  obtain ⟨hsafes, htracker⟩ := (Keeps.entryOf txn).of_run hrun
  rw [Action.run_createSafe hrun]
  exact addSafe hsafes htracker id txn

theorem bindSafe (n : Node) (id : EntryId) : n.Turn ((Action.bindSafe id).run n).2 none := by
  cases he : n.entryAt? id with
  | none =>
    rw [Action.run_bindSafe_none he]
    exact .refl n
  | some e =>
    rw [Action.run_bindSafe he]
    exact addSafe rfl rfl id e.key

theorem eq_of_new {taken? : Option RefId} (h : n.Turn n' taken?) {v w : SafeCommand}
    (hv : v ∈ n'.safes) (hw : w ∈ n'.safes) (hvnew : ∀ u ∈ n.safes, u.ref ≠ v.ref)
    (hwnew : ∀ u ∈ n.safes, u.ref ≠ w.ref) : v = w := by
  have hput : ∀ {u u' : SafeCommand}, u ∈ n.safes → u.Same u' →
      n'.safes = (n.putSafe u').safes → v = w := by
    intro u u' hu hsame hsafes
    rw [hsafes] at hv
    obtain rfl | ⟨hold, -⟩ := mem_putSafe hv
    · exact absurd hsame.ref.symm (hvnew u hu)
    · exact absurd rfl (hvnew v hold)
  cases h with
  | kept hsafes => exact absurd rfl (hvnew v (hsafes v hv))
  | made u _ hsafes =>
    rw [hsafes] at hv hw
    obtain hv | hv := List.mem_append.1 hv
    · exact absurd rfl (hvnew v hv)
    · obtain hw | hw := List.mem_append.1 hw
      · exact absurd rfl (hwnew w hw)
      · exact (List.mem_singleton.1 hv).trans (List.mem_singleton.1 hw).symm
  | edited u u' hu hsame _ hsafes => exact hput hu hsame hsafes
  | acquired u u' hu hsame _ _ hsafes => exact hput hu hsame hsafes
  | ended u u' hu hsame _ hsafes => exact hput hu hsame hsafes

end Node.Turn

section Last

variable {n : Node} {vs : List SafeCommand} {w : SafeCommand}

theorem Node.safes_removeSafe_last (hsafes : n.safes = vs ++ [w]) (hnew : ∀ v ∈ vs, v.ref ≠ w.ref) :
    (n.removeSafe w.ref).safes = vs := by
  have hold : vs.filter (·.ref ≠ w.ref) = vs :=
    List.filter_eq_self.2 fun v hv => decide_eq_true (hnew v hv)
  change n.safes.filter _ = _
  rw [hsafes, List.filter_append, hold]
  simp

theorem Node.safes_putSafe_last (hsafes : n.safes = vs ++ [w]) (hnew : ∀ v ∈ vs, v.ref ≠ w.ref)
    {w' : SafeCommand} (href : w'.ref = w.ref) : (n.putSafe w').safes = vs ++ [w'] := by
  have hold : (vs.map fun v => if v.ref = w'.ref then w' else v) = vs :=
    (List.map_congr_left fun v hv => if_neg (href ▸ hnew v hv)).trans (List.map_id _)
  change n.safes.map _ = _
  rw [hsafes, List.map_append, hold, List.map_singleton, if_pos href.symm]

end Last

namespace Node.Secure

open TxnDeps.Action (Keeps)

variable {n : Node} {tokens : List Token}

/-- Either a safe command is made and takes the entry, or nothing is left of it. -/
theorem acquire_leaves (h : n.Secure tokens) (hfresh : n.tracker.Fresh) (txn : TxnId) :
    (∃ stop n', (Action.acquire txn).run n = (.error stop, n') ∧ n'.safes = n.safes ∧
      n'.tracker.live = n.tracker.live ∧ n.tracker.next ≤ n'.tracker.next) ∨
    ∃ w n', (Action.acquire txn).run n = (.ok w.ref, n') ∧ w.ref = ⟨n.tracker.next⟩ ∧
      w.state = .active ∧ n'.safes = n.safes ++ [w] ∧
      n'.tracker.live = n.tracker.live ++ [w.record [w.ref]] ∧
      n'.tracker.next = n.tracker.next + 1 := by
  obtain ⟨id, n', e, hentry, -, -, w, hw, -, hrun⟩ := h.acquire_runs txn
  obtain ⟨hsafes, htracker⟩ := (Keeps.entryOf txn).of_run hentry
  have href : w.ref = (n.tracker.register txn.text).1 := by
    rw [hw, ← htracker]
    rfl
  have hlast : (n'.addSafe id txn).safes = n.safes ++ [w] := by
    rw [hw, ← hsafes]
    rfl
  have hnew : ∀ v ∈ n.safes, v.ref ≠ w.ref := by
    intro v hv heq
    have hlt := h.fresh v hv
    rw [heq, href] at hlt
    exact Nat.lt_irrefl _ hlt
  obtain ⟨holder, -, hrun⟩ | ⟨-, hrun⟩ := hrun
  · -- The new safe command is invalidated and dropped, unless the call has to wait.
    refine .inl ⟨_, _, hrun, ?_⟩
    by_cases hblocked : e.refusal holder n.policy = .blocked
    · rw [if_pos hblocked]
      exact ⟨rfl, rfl, Nat.le_refl _⟩
    · have hremoved : ((n'.addSafe id txn).putSafe (w.spent .invalidated)).removeSafe w.ref =
          (n'.addSafe id txn).removeSafe w.ref := removeSafe_putSafe rfl
      have hreleased : (((n'.addSafe id txn).ended w).removeSafe w.ref).tracker =
          (n.tracker.register txn.text).2.release (n.tracker.register txn.text).1 := by
        rw [← href, ← htracker]
        rfl
      rw [if_neg hblocked, hreleased]
      refine ⟨(congrArg Node.safes hremoved).trans (safes_removeSafe_last hlast hnew),
        hfresh.release_register txn.text, Nat.le_succ _⟩
  · refine .inr ⟨w.acquired e.value e.nextToken, _, hrun, href, rfl,
      safes_putSafe_last hlast hnew rfl, ?_, ?_⟩
    · have htxn : w.txn = txn := by
        rw [hw]
        rfl
      have hrecord : (w.acquired e.value e.nextToken).record [w.ref] =
          ⟨⟨n.tracker.next⟩, txn.text, ["created", "acquired"]⟩ := by
        rw [← htxn]
        simp [SafeCommand.record, SafeCommand.acquired, href, RefTracker.register]
      change _ = n.tracker.live ++ [(w.acquired e.value e.nextToken).record [w.ref]]
      rw [htracker, hrecord, href]
      exact hfresh.trace_register txn.text "acquired"
    · rw [htracker]
      rfl

theorem turn_acquire (h : n.Secure tokens) (hfresh : n.tracker.Fresh) (txn : TxnId) :
    n.Turn ((Action.acquire txn).run n).2 ((Action.acquire txn).run n).1.toOption := by
  obtain ⟨stop, n', hrun, hsafes, hlive, hnext⟩ |
    ⟨w, n', hrun, href, hactive, hsafes, hlive, hnext⟩ := h.acquire_leaves hfresh txn
  · rw [hrun]
    exact .kept (fun w hw => hsafes ▸ hw) hlive hnext
  · have hstate : ∀ state, state ≠ .active → w.state ≠ state := fun _ hne heq =>
      hne (heq.symm.trans hactive)
    rw [hrun]
    refine .made w (some w.ref) hsafes href (hstate _ nofun)
      (fun heq => absurd heq (hstate _ nofun)) ?_ hlive hnext
    rintro _ ⟨⟩
    rfl

theorem turn_request (h : n.Secure tokens) (hfresh : n.tracker.Fresh) (r : Request) :
    n.Turn (r.action.run n).2 ((Event.ask r).taken? n) := by
  cases r with
  | acquire txn => exact (h.turn_acquire hfresh txn).map _
  | createSafe txn => exact (Turn.createSafe n txn).map _
  | preExecute ref policy => exact (Turn.preExecute h ref policy).map _
  | initialise ref => exact (Turn.initialise n ref).map _
  | set ref c => exact (Turn.set n ref c).map _
  | commit ref record => exact (Turn.commitTo h ref record).map _
  | releaseUnchanged ref => exact (Turn.releaseUnchanged h ref).map _
  | invalidate ref => exact (Turn.invalidate n ref).map _
  | drop ref => exact (Turn.drop n ref).map _
  | takeToken ref => exact .takeToken n ref
  | openHandle txn => exact ((Keeps.openHandle txn).turn n).map _
  | closeHandle id => exact .kept (fun _ hw => hw) rfl (Nat.le_refl _)
  | getExclusive id policy => exact ((Keeps.onEntry id _).turn n).map _
  | release id token value => exact ((Keeps.onEntry id _).turn n).map _
  | abandon id token => exact ((Keeps.onEntry id _).turn n).map _
  | forget token => exact .refl n
  | evict txn => exact ((Keeps.evict txn).turn n).map _
  | journal step => exact .kept (fun _ hw => hw) rfl (Nat.le_refl _)

end Node.Secure

theorem Event.taken?_of_token {r : Request} (h : r.token? ≠ none) (n : Node) :
    (Event.ask r).taken? n = none := by
  cases r with
  | acquire txn => exact absurd rfl h
  | preExecute ref policy => exact absurd rfl h
  | _ => rfl

theorem Session.turn_happen {s : Session} (h : s.Secure) (hfresh : s.node.tracker.Fresh)
    (event : Event) : s.node.Turn (s.happen event).node (event.taken? s.node) := by
  cases event with
  | ask r =>
    by_cases hhas : ∀ token ∈ r.token?, token ∈ s.tokens
    · rw [happen, next, if_pos hhas]
      exact h.turn_request hfresh r
    · have htoken : r.token? ≠ none := by
        intro hnone
        rw [hnone] at hhas
        exact hhas fun token hmem => absurd hmem (Option.not_mem_none token)
      rw [happen, next, if_neg hhas, Event.taken?_of_token htoken]
      exact .refl s.node
  | makeEntry txn value => exact .kept (fun _ hw => hw) rfl (Nat.le_refl _)
  | bindSafe id => exact (Node.Turn.bindSafe s.node id).map _
  | current ref => exact .look (Action.run_look s.node ref _ _) _
  | snapshot ref => exact .look (Action.run_look s.node ref _ _) _
  | global ref => exact .look (Action.run_look s.node ref _ _) _
  | update ref => exact .look (Action.run_look s.node ref _ _) _

end TxnDeps
