import Mathlib.Data.Finset.Card
import TxnDeps.Proofs.Cache.Changes

namespace TxnDeps

namespace Node

/-- A safe command or a handle refers to the entry, or it is held. -/
inductive InUse (n : Node) : EntryId → Prop
  | safe (w : SafeCommand) (hw : w ∈ n.safes) : InUse n w.entry
  | handle {id : EntryId} (hid : id ∈ n.handles) : InUse n id
  | held {id : EntryId} {e : CommandEntry} (he : n.entryAt? id = some e)
      (hheld : e.holder ≠ none) : InUse n id

def Knows (n : Node) (id : EntryId) : Prop := ∃ txn, n.entryIdOf? txn = some id

/-- Whatever is in use is in the cache. -/
def Mapped (n : Node) : Prop := ∀ id, n.InUse id → n.Knows id

variable {n n' : Node} {id : EntryId}

theorem references_eq_zero_iff :
    n.references id = 0 ↔ (∀ w ∈ n.safes, w.entry ≠ id) ∧ id ∉ n.handles := by
  rw [references, Nat.add_eq_zero_iff, List.countP_eq_zero, List.count_eq_zero]
  simp

theorem inUse_of_references (h : n.references id ≠ 0) : n.InUse id := by
  rw [Ne, references_eq_zero_iff, not_and_or] at h
  obtain hsafe | hhandle := h
  · push Not at hsafe
    obtain ⟨w, hw, rfl⟩ := hsafe
    exact .safe w hw
  · exact .handle (not_not.1 hhandle)

theorem not_inUse (hidle : n.references id = 0) {e : CommandEntry} (he : n.entryAt? id = some e)
    (hfree : e.holder = none) : ¬n.InUse id := by
  obtain ⟨hsafes, hhandles⟩ := references_eq_zero_iff.1 hidle
  intro huse
  cases huse with
  | safe w hw => exact hsafes w hw rfl
  | handle hid => exact hhandles hid
  | held he' hheld =>
    rw [he] at he'
    cases he'
    exact hheld hfree

theorem exists_entryIdOf? {txn : TxnId} {e : CommandEntry} (h : n.entryOf? txn = some e) :
    ∃ id, n.entryIdOf? txn = some id ∧ n.entryAt? id = some e := by
  rw [entryOf?] at h
  cases hid : n.entryIdOf? txn with
  | none =>
    rw [hid] at h
    cases h
  | some id =>
    rw [hid] at h
    exact ⟨id, rfl, h⟩

theorem Secure.entryIdOf?_of_knows {tokens : List Token} (h : n.Secure tokens) (hknows : n.Knows id)
    {e : CommandEntry} (he : n.entryAt? id = some e) : n.entryIdOf? e.key = some id := by
  obtain ⟨txn, htxn⟩ := hknows
  obtain ⟨e', he', rfl⟩ := h.cached txn id htxn
  rw [he] at he'
  cases he'
  exact htxn

namespace InUse

theorem of_putSafe {w w' : SafeCommand} (hw : w ∈ n.safes) (hsame : w.Same w')
    (h : (n.putSafe w').InUse id) : n.InUse id := by
  cases h with
  | safe v hv =>
    obtain rfl | ⟨hv, -⟩ := mem_putSafe hv
    · exact hsame.entry ▸ .safe w hw
    · exact .safe v hv
  | handle hid => exact .handle hid
  | held he hheld => exact .held he hheld

theorem of_putEntry {e e' : CommandEntry} {own : EntryId} (he : n.entryAt? own = some e)
    (hid : e'.id = own) (h : (n.putEntry e').InUse id) :
    n.InUse id ∨ id = own ∧ e'.holder ≠ none := by
  cases h with
  | safe v hv => exact .inl (.safe v hv)
  | handle hid => exact .inl (.handle hid)
  | held he₁ hheld =>
    rw [entryAt?_putEntry he hid] at he₁
    by_cases heq : id = own
    · rw [if_pos heq] at he₁
      cases he₁
      exact .inr ⟨heq, hheld⟩
    · rw [if_neg heq] at he₁
      exact .inl (.held he₁ hheld)

end InUse

namespace Mapped

theorem empty (policy : AcquirePolicy) : (Node.empty policy).Mapped := by
  intro id h
  cases h with
  | safe w hw => exact absurd hw List.not_mem_nil
  | handle hid => exact absurd hid List.not_mem_nil
  | held he _ =>
    rw [entryAt?, Node.empty, List.getElem?_nil] at he
    cases he

theorem mono (h : n.Mapped) (huse : ∀ id, n'.InUse id → n.InUse id ∨ n'.Knows id)
    (hknows : ∀ id, n.Knows id → n'.Knows id) : n'.Mapped := by
  intro id hid
  obtain hid | hid := huse id hid
  · exact hknows id (h id hid)
  · exact hid

theorem putSafe (h : n.Mapped) {w w' : SafeCommand} (hw : w ∈ n.safes) (hsame : w.Same w') :
    (n.putSafe w').Mapped :=
  h.mono (fun _ hid => .inl (hid.of_putSafe hw hsame)) fun _ hid => hid

theorem putEntry (h : n.Mapped) {e e' : CommandEntry} {own : EntryId}
    (he : n.entryAt? own = some e) (hid : e'.id = own) (huse : e'.holder ≠ none → n.InUse own) :
    (n.putEntry e').Mapped := by
  refine h.mono (fun id hid' => .inl ?_) fun _ hid => hid
  obtain hold | ⟨rfl, hheld⟩ := hid'.of_putEntry he hid
  · exact hold
  · exact huse hheld

theorem addEntry (h : n.Mapped) {txn : TxnId} (hnone : n.entryIdOf? txn = none) :
    (n.addEntry txn).Mapped := by
  refine h.mono (fun id hid => .inl ?_) fun id hid => ?_
  · cases hid with
    | safe w hw => exact .safe w hw
    | handle hid => exact .handle hid
    | held he hheld =>
      rw [entryAt?_addEntry] at he
      by_cases heq : id = n.nextEntry
      · rw [if_pos heq] at he
        cases he
        exact absurd rfl hheld
      · rw [if_neg heq] at he
        exact .held he hheld
  · obtain ⟨t, ht⟩ := hid
    have hne : t ≠ txn := by
      rintro rfl
      rw [hnone] at ht
      cases ht
    exact ⟨t, by rw [entryIdOf?_addEntry hnone, if_neg hne, ht]⟩

theorem addSafe (h : n.Mapped) (hid : n.Knows id) (txn : TxnId) : (n.addSafe id txn).Mapped := by
  refine h.mono (fun id' huse => ?_) fun _ hid => hid
  cases huse with
  | safe w hw =>
    obtain hw | hw := List.mem_append.1 hw
    · exact .inl (.safe w hw)
    · rw [List.mem_singleton.1 hw]
      exact .inr hid
  | handle hid => exact .inl (.handle hid)
  | held he hheld => exact .inl (.held he hheld)

theorem removeSafe (h : n.Mapped) (ref : RefId) : (n.removeSafe ref).Mapped := by
  refine h.mono (fun id huse => .inl ?_) fun _ hid => hid
  cases huse with
  | safe w hw => exact .safe w (List.mem_filter.1 hw).1
  | handle hid => exact .handle hid
  | held he hheld => exact .held he hheld

theorem withRest (h : n.Mapped) (journal : Journal) (tracker : RefTracker) {handles : List EntryId}
    (hknown : ∀ id ∈ handles, id ∈ n.handles ∨ n.Knows id) :
    ({ n with journal := journal, handles := handles, tracker := tracker } : Node).Mapped := by
  refine h.mono (fun id huse => ?_) fun _ hid => hid
  cases huse with
  | safe w hw => exact .inl (.safe w hw)
  | handle hid => exact (hknown id hid).imp_left .handle
  | held he hheld => exact .inl (.held he hheld)

/-- What is evicted is not in use, and nothing else is forgotten. -/
theorem evicted (h : n.Mapped) {tokens : List Token} (hsecure : n.Secure tokens) {txn : TxnId}
    {e : CommandEntry} (he : n.entryOf? txn = some e) (hidle : n.references e.id = 0)
    (hfree : e.holder = none) : (n.evicted txn).Mapped := by
  intro id huse
  have hold : n.InUse id := by
    cases huse with
    | safe w hw => exact .safe w hw
    | handle hid => exact .handle hid
    | held he hheld => exact .held he hheld
  obtain ⟨t, ht⟩ := h id hold
  -- What is still in use cannot be the entry that is forgotten.
  have hne : t ≠ txn := by
    rintro rfl
    obtain ⟨own, hown, he⟩ := exists_entryIdOf? he
    rw [hown] at ht
    cases ht
    rw [(hsecure.entries id e he).1] at hidle
    exact not_inUse hidle he hfree hold
  exact ⟨t, by rw [entryIdOf?_evicted, if_neg hne, ht]⟩

end Mapped

def Accepts (n : Node) (tokens : List Token) : Prop :=
  ∀ token ∈ tokens, ∃ e, n.entryAt? token.entry = some e ∧ e.accepts token = true

namespace Accepts

variable {tokens tokens' : List Token} {token : Token} {e : CommandEntry}

theorem mono (h : n.Accepts tokens)
    (hentries : ∀ id e, n.entryAt? id = some e → n'.entryAt? id = some e)
    (htokens : ∀ token ∈ tokens', token ∈ tokens) : n'.Accepts tokens' := by
  intro token hmem
  obtain ⟨e, he, haccepts⟩ := h token (htokens token hmem)
  exact ⟨e, hentries _ e he, haccepts⟩

theorem cons (h : n.Accepts tokens) (he : n.entryAt? token.entry = some e)
    (haccepts : e.accepts token = true) : n.Accepts (token :: tokens) := by
  intro t hmem
  obtain rfl | hmem := List.mem_cons.1 hmem
  · exact ⟨e, he, haccepts⟩
  · exact h t hmem

theorem putEntry (h : n.Accepts tokens) {e' : CommandEntry} (he : n.entryAt? id = some e)
    (hid : e'.id = id) (hnone : ∀ token ∈ tokens, ¬e.accepts token = true) :
    (n.putEntry e').Accepts tokens := by
  intro t hmem
  obtain ⟨e₁, he₁, haccepts⟩ := h t hmem
  have hne : t.entry ≠ id := by
    intro heq
    rw [heq, he] at he₁
    cases he₁
    exact hnone t hmem haccepts
  exact ⟨e₁, by rw [entryAt?_putEntry he hid, if_neg hne, he₁], haccepts⟩

theorem granted (h : n.Accepts tokens) (he : n.entryAt? id = some e) (hid : e.id = id)
    (hfree : e.holder = none) : (n.putEntry e.granted).Accepts tokens := by
  refine h.putEntry he hid fun t _ haccepts => ?_
  have hheld := (CacheEntry.accepts_eq_true_iff.1 haccepts).2
  rw [hfree] at hheld
  cases hheld

theorem freed (h : n.Accepts tokens) (he : n.entryAt? id = some e) (hid : e.id = id)
    (haccepts : e.accepts token = true) (hnot : token ∉ tokens) (value : Option Command) :
    (n.putEntry (e.freed value)).Accepts tokens := by
  refine h.putEntry he hid fun t hmem ht => ?_
  exact hnot (CacheEntry.eq_of_accepts ht haccepts ▸ hmem)

end Accepts

end Node

namespace Session

structure Mapped (s : Session) : Prop where
  node : s.node.Mapped
  accepted : s.node.Accepts s.tokens

theorem mapped_change {s s' : Session} (hchange : s.Change s') (hsecure : s.Secure)
    (h : s.Mapped) : s'.Mapped := by
  obtain ⟨h, haccepted⟩ := h
  have hentries := hsecure.entries
  cases hchange with
  | journaled n tokens journal =>
    exact ⟨h.withRest journal n.tracker fun _ hid => .inl hid, haccepted⟩
  | traced n tokens tracker =>
    exact ⟨h.withRest n.journal tracker fun _ hid => .inl hid, haccepted⟩
  | handled n tokens handles hknown => exact ⟨h.withRest n.journal n.tracker hknown, haccepted⟩
  | entryAdded n tokens txn hnone =>
    exact ⟨h.addEntry hnone, haccepted.mono
      (fun _ _ he => Node.entryAt?_addEntry_of_some txn he) fun _ hmem => hmem⟩
  | evicted n tokens txn e he hidle hfree => exact ⟨h.evicted hsecure he hidle hfree, haccepted⟩
  | safeAdded n tokens id e he hid => exact ⟨h.addSafe ⟨e.key, hid⟩ e.key, haccepted⟩
  | safeRemoved n tokens ref => exact ⟨h.removeSafe ref, haccepted⟩
  | edited n tokens w c hw => exact ⟨h.putSafe hw (w.same_edited (some c)), haccepted⟩
  | acquired n tokens w e hw hunused he hfree =>
    have hid : e.granted.id = w.entry := (hentries _ e he).1
    exact ⟨(h.putEntry he hid fun _ => .safe w hw).putSafe hw
      (w.same_acquired e.value e.nextToken), haccepted.granted he hid hfree⟩
  | spent n tokens w state hw => exact ⟨h.putSafe hw (w.same_spent state), haccepted⟩
  | freed n tokens w e token value state hw he ht haccepts =>
    have hid : (e.freed value).id = w.entry := (hentries _ e he).1
    exact ⟨(h.putEntry he hid (absurd rfl)).putSafe hw (w.same_spent state),
      haccepted.freed he hid haccepts (hsecure.apart w hw token ht) value⟩
  | taken n tokens w token hw ht =>
    obtain ⟨e, he, -, haccepts⟩ := hsecure.bound w hw
    have hentry := (Node.Secure.token_eq hsecure he (haccepts token ht)).1
    exact ⟨h.putSafe hw (w.same_spent w.state),
      haccepted.cons (hentry ▸ he) (haccepts token ht)⟩
  | released n tokens id e token value he haccepts =>
    have hid : (e.freed value).id = id := (hentries _ e he).1
    have hnot := (List.nodup_cons.1 hsecure.distinct).1
    have hrest : n.Accepts tokens :=
      haccepted.mono (fun _ _ he => he) fun _ hmem => List.mem_cons_of_mem token hmem
    exact ⟨h.putEntry he hid (absurd rfl), hrest.freed he hid haccepts hnot value⟩
  | forgotten n tokens token =>
    exact ⟨h, haccepted.mono (fun _ _ he => he) fun _ hmem => List.mem_cons_of_mem token hmem⟩
  | permuted n tokens tokens' hperm =>
    exact ⟨h, haccepted.mono (fun _ _ he => he) fun _ hmem => hperm.mem_iff.2 hmem⟩

theorem mapped_grant {s s' : Session} {id : EntryId} (hgrant : s.Grant id s') (hsecure : s.Secure)
    (h : s.Mapped) (huse : s.node.InUse id) : s'.Mapped := by
  obtain ⟨h, haccepted⟩ := h
  cases hgrant with
  | granted n tokens e he hfree =>
    have hid : e.granted.id = id := (hsecure.entries id e he).1
    have hown : e.nextToken.entry = id := hid
    have hput : (n.putEntry e.granted).entryAt? e.nextToken.entry = some e.granted := by
      rw [Node.entryAt?_putEntry he hid, if_pos hown]
    exact ⟨h.putEntry he hid fun _ => huse,
      (haccepted.granted he hid hfree).cons hput (decide_eq_true ⟨rfl, rfl⟩)⟩

end Session

/-- The entry that is asked, if the request does not go by way of a safe command or the cache. -/
def Request.entry? : Request → Option EntryId
  | getExclusive id _ | release id _ _ | abandon id _ => some id
  | _ => none

/-- What clients ask for that know entries from the cache alone. -/
inductive CacheCall where
  | ask (r : Request)
  | findHandle (txn : TxnId)
  | shareHandle (id : EntryId)
  | bindSafe (id : EntryId)

def CacheCall.entry? : CacheCall → Option EntryId
  | ask r => r.entry?
  | findHandle _ => none
  | shareHandle id | bindSafe id => some id

namespace Session

def answer (s : Session) : CacheCall → Session
  | .ask r => s.next r
  | .findHandle txn => ⟨((Action.findHandle txn).run s.node).2, s.tokens⟩
  | .shareHandle id => ⟨((Action.shareHandle id).run s.node).2, s.tokens⟩
  | .bindSafe id => ⟨((Action.bindSafe id).run s.node).2, s.tokens⟩

/-- Entries cannot be made up: a client knows one by a safe command or a handle. -/
def serve (s : Session) (call : CacheCall) : Session :=
  if ∀ id ∈ call.entry?, s.node.references id ≠ 0 then s.answer call else s

def service (policy : AcquirePolicy) (calls : List CacheCall) : Session :=
  calls.foldl serve (start policy)

theorem change_shareHandle {s : Session} {id : EntryId} (hknows : s.node.Knows id) :
    s.Change ⟨((Action.shareHandle id).run s.node).2, s.tokens⟩ := by
  refine .handled s.node s.tokens (id :: s.node.handles) fun id' hid' => ?_
  obtain rfl | hid' := List.mem_cons.1 hid'
  · exact .inr hknows
  · exact .inl hid'

theorem changes_findHandle (s : Session) (txn : TxnId) :
    s.Changes ⟨((Action.findHandle txn).run s.node).2, s.tokens⟩ := by
  cases hid : s.node.entryIdOf? txn with
  | none =>
    rw [Action.findHandle, Step.run_bind_of_ok (Step.run_get _), hid]
    exact .refl
  | some id =>
    rw [Action.findHandle, Step.run_bind_of_ok (Step.run_get _), hid]
    exact .single (change_shareHandle ⟨txn, hid⟩)

theorem change_bindSafe {s : Session} (h : s.Secure) {id : EntryId} (hknows : s.node.Knows id) :
    s.Change ⟨((Action.bindSafe id).run s.node).2, s.tokens⟩ := by
  obtain ⟨txn, htxn⟩ := hknows
  obtain ⟨e, he, rfl⟩ := Node.Secure.cached h txn id htxn
  rw [Action.run_bindSafe he]
  exact .safeAdded s.node s.tokens id e he htxn

theorem serve_cases {s : Session} (h : s.Secure) (hmapped : s.node.Mapped) (call : CacheCall) :
    s.Changes (s.serve call) ∨ ∃ id, s.node.InUse id ∧ s.Grant id (s.serve call) := by
  rw [serve]
  split
  · next hrefers =>
    cases call with
    | ask r =>
      obtain hchanges | ⟨id, policy, rfl, hgrant⟩ := next_cases h r
      · exact .inl hchanges
      · exact .inr ⟨id, Node.inUse_of_references (hrefers id rfl), hgrant⟩
    | findHandle txn => exact .inl (changes_findHandle s txn)
    | shareHandle id =>
      have hknows := hmapped id (Node.inUse_of_references (hrefers id rfl))
      exact .inl (.single (change_shareHandle hknows))
    | bindSafe id =>
      have hknows := hmapped id (Node.inUse_of_references (hrefers id rfl))
      exact .inl (.single (change_bindSafe h hknows))
  · exact .inl .refl

theorem mapped_changes {s s' : Session} (hchanges : s.Changes s') (hsecure : s.Secure)
    (h : s.Mapped) : s'.Mapped := by
  induction hchanges with
  | refl => exact h
  | tail hchanges hchange ih => exact mapped_change hchange (secure_changes hchanges hsecure) ih

theorem mapped_serve {s : Session} (hsecure : s.Secure) (h : s.Mapped) (call : CacheCall) :
    (s.serve call).Secure ∧ (s.serve call).Mapped := by
  obtain hchanges | ⟨id, huse, hgrant⟩ := serve_cases hsecure h.node call
  · exact ⟨secure_changes hchanges hsecure, mapped_changes hchanges hsecure h⟩
  · exact ⟨secure_grant hgrant hsecure, mapped_grant hgrant hsecure h huse⟩

theorem mapped_service (policy : AcquirePolicy) (calls : List CacheCall) :
    (service policy calls).Secure ∧ (service policy calls).Mapped := by
  have hgeneral : ∀ s : Session, s.Secure → s.Mapped →
      (calls.foldl serve s).Secure ∧ (calls.foldl serve s).Mapped := by
    induction calls with
    | nil => exact fun _ hsecure h => ⟨hsecure, h⟩
    | cons call calls ih =>
      intro s hsecure h
      obtain ⟨hsecure', h'⟩ := mapped_serve hsecure h call
      exact ih _ hsecure' h'
  exact hgeneral (start policy) (Node.Secure.empty policy)
    ⟨Node.Mapped.empty policy, fun _ hmem => absurd hmem List.not_mem_nil⟩

def tokensFor (s : Session) (txn : TxnId) : List Token :=
  (s.tokens ++ s.node.safes.filterMap (·.token)).filter fun token =>
    (s.node.entryAt? token.entry).map (·.key) = some txn

/-- All that refers to a transaction refers to the entry that the cache has for it. -/
structure Undivided (s : Session) : Prop where
  safes : ∀ w ∈ s.node.safes, s.node.entryIdOf? w.txn = some w.entry
  handles : ∀ id ∈ s.node.handles,
    ∃ e, s.node.entryAt? id = some e ∧ s.node.entryIdOf? e.key = some id
  held : ∀ id e, s.node.entryAt? id = some e → e.holder ≠ none →
    s.node.entryIdOf? e.key = some id
  tokens : ∀ txn, (s.tokensFor txn).length ≤ 1

end Session

/-- How eviction ends. -/
structure Node.Evicts (n : Node) (txn : TxnId) (outcome : Except Stop Bool × Node) : Prop where
  answers : ∃ evicted, outcome.1 = .ok evicted
  evicted_iff : outcome.1 = .ok true ↔ ∃ id e, n.entryIdOf? txn = some id ∧
    n.entryAt? id = some e ∧ (∀ w ∈ n.safes, w.entry ≠ id) ∧ id ∉ n.handles ∧ e.holder = none
  evicted : outcome.1 = .ok true → ∃ cached, outcome.2 = { n with cached := cached } ∧
    ∀ t, outcome.2.entryIdOf? t = if t = txn then none else n.entryIdOf? t
  kept : outcome.1 = .ok false → outcome.2 = n

theorem Node.evicts (n : Node) {tokens : List Token} (h : n.Secure tokens) (txn : TxnId) :
    n.Evicts txn ((Action.evict txn).run n) := by
  have hne : (Except.ok true : Except Stop Bool) ≠ .ok false := by simp
  have hplace : ∀ {id e}, n.entryIdOf? txn = some id → n.entryAt? id = some e →
      n.entryOf? txn = some e ∧ e.id = id := by
    intro id e hid he
    exact ⟨by rw [entryOf?, hid]; exact he, (h.entries id e he).1⟩
  obtain ⟨e, he, hidle, hfree, hrun⟩ | ⟨hbusy, hrun⟩ := Action.run_evict n txn
  · obtain ⟨id, hid, he⟩ := exists_entryIdOf? he
    rw [(hplace hid he).2, references_eq_zero_iff] at hidle
    rw [hrun]
    exact {
      answers := ⟨true, rfl⟩
      evicted_iff := iff_of_true rfl ⟨id, e, hid, he, hidle.1, hidle.2, hfree⟩
      evicted := fun _ => ⟨_, rfl, entryIdOf?_evicted txn⟩
      kept := fun hkept => absurd hkept hne }
  · rw [hrun]
    refine ⟨⟨false, rfl⟩, iff_of_false hne.symm ?_, fun h => absurd h hne.symm, fun _ => rfl⟩
    rintro ⟨id, e, hid, he, hsafes, hhandles, hfree⟩
    obtain ⟨hentry, hown⟩ := hplace hid he
    have hidle : n.references e.id = 0 := by
      rw [hown, references_eq_zero_iff]
      exact ⟨hsafes, hhandles⟩
    exact hbusy e hentry hidle hfree

namespace Session

theorem held_of_mem_tokensFor {s : Session} (hsecure : s.Secure) (h : s.Mapped) {txn : TxnId}
    {token : Token} (hmem : token ∈ s.tokensFor txn) :
    ∃ e, s.node.entryAt? token.entry = some e ∧ e.accepts token = true ∧
      s.node.entryIdOf? txn = some token.entry := by
  obtain ⟨hmem, hkey⟩ := List.mem_filter.1 hmem
  obtain ⟨e, he, haccepts⟩ : ∃ e, s.node.entryAt? token.entry = some e ∧
      e.accepts token = true := by
    obtain hhand | hsafe := List.mem_append.1 hmem
    · exact h.accepted token hhand
    · obtain ⟨w, hw, ht⟩ := List.mem_filterMap.1 hsafe
      obtain ⟨e, he, -, haccepts⟩ := Node.Secure.bound hsecure w hw
      have hentry := (Node.Secure.token_eq hsecure he (haccepts token ht)).1
      exact ⟨e, hentry ▸ he, haccepts token ht⟩
  have hheld : e.holder ≠ none := by
    rw [(CacheEntry.accepts_eq_true_iff.1 haccepts).2]
    exact Option.some_ne_none _
  have hknows := h.node _ (.held he hheld)
  have hmapped := Node.Secure.entryIdOf?_of_knows hsecure hknows he
  have htxn : e.key = txn := by
    rw [he] at hkey
    simpa using hkey
  exact ⟨e, he, haccepts, htxn ▸ hmapped⟩

theorem nodup_tokensFor {s : Session} (h : s.Secure) (txn : TxnId) : (s.tokensFor txn).Nodup := by
  apply List.Nodup.filter
  refine List.nodup_append.2 ⟨h.distinct, ?_, fun token hhand token' hsafe heq => ?_⟩
  · have hrefs : s.node.safes.Pairwise fun v w => v.ref ≠ w.ref := List.pairwise_map.1 h.refs
    refine List.pairwise_filterMap.2 (hrefs.imp_of_mem fun hv hw hne token ht token' ht' heq => ?_)
    exact hne (h.single _ hv _ hw token ht (heq ▸ ht'))
  · obtain ⟨w, hw, ht⟩ := List.mem_filterMap.1 hsafe
    exact h.apart w hw token' ht (heq ▸ hhand)

theorem undivided {s : Session} (hsecure : s.Secure) (h : s.Mapped) : s.Undivided where
  safes w hw := by
    obtain ⟨e, he, hkey, -⟩ := Node.Secure.bound hsecure w hw
    exact hkey ▸ Node.Secure.entryIdOf?_of_knows hsecure (h.node _ (.safe w hw)) he
  handles id hid := by
    have hknows := h.node id (.handle hid)
    obtain ⟨txn, htxn⟩ := hknows
    obtain ⟨e, he, rfl⟩ := Node.Secure.cached hsecure txn id htxn
    exact ⟨e, he, htxn⟩
  held id e he hheld :=
    Node.Secure.entryIdOf?_of_knows hsecure (h.node id (.held he hheld)) he
  tokens txn := by
    -- All of them are for the entry that the cache has, and that one accepts a single token.
    have hsame : ∀ token ∈ s.tokensFor txn, ∀ token' ∈ s.tokensFor txn, token = token' := by
      intro token hmem token' hmem'
      obtain ⟨e, he, haccepts, hid⟩ := held_of_mem_tokensFor hsecure h hmem
      obtain ⟨e', he', haccepts', hid'⟩ := held_of_mem_tokensFor hsecure h hmem'
      have hentry := Option.some.inj (hid.symm.trans hid')
      rw [hentry, he'] at he
      cases he
      exact CacheEntry.eq_of_accepts haccepts haccepts'
    have hnodup := nodup_tokensFor hsecure txn
    calc (s.tokensFor txn).length = (s.tokensFor txn).toFinset.card :=
          (List.toFinset_card_of_nodup hnodup).symm
      _ ≤ 1 := Finset.card_le_one.2 fun token hmem token' hmem' =>
          hsame token (List.mem_toFinset.1 hmem) token' (List.mem_toFinset.1 hmem')

/-- In every state that clients of the cache can bring about, in whatever order entries are taken,
given back, referred to and evicted. -/
theorem evict_undivided (policy : AcquirePolicy) (calls : List CacheCall) :
    let s := service policy calls
    s.Undivided ∧ ∀ txn, s.node.Evicts txn ((Action.evict txn).run s.node) := by
  intro s
  obtain ⟨hsecure, hmapped⟩ := mapped_service policy calls
  exact ⟨undivided hsecure hmapped, s.node.evicts hsecure⟩

/-- An entry that nothing refers to is kept as long as its token is about, and one that nobody holds
as long as there is a handle to it. Once it was evicted, the transaction gets another one. -/
theorem evict_undivided_sample :
    let t : TxnId := ⟨1, 10, 0, 1⟩
    let held : List CacheCall := [.ask (.acquire t), .ask (.takeToken ⟨1⟩), .ask (.drop ⟨1⟩)]
    let free : List CacheCall := held ++ [.findHandle t, .ask (.abandon ⟨0⟩ ⟨⟨0⟩, 1⟩)]
    let idle : List CacheCall := free ++ [.ask (.closeHandle ⟨0⟩)]
    let again := service .failFast (idle ++ [.ask (.evict t), .ask (.acquire t)])
    ((Action.evict t).run (service .failFast held).node).1 ≠ .ok true ∧
    ((Action.evict t).run (service .failFast free).node).1 ≠ .ok true ∧
    ((Action.evict t).run (service .failFast idle).node).1 = .ok true ∧
    again.node.entryIdOf? t = some ⟨1⟩ ∧ again.tokensFor t = [⟨⟨1⟩, 1⟩] := by
  intro t held free idle again
  have hheld : ((Action.evict t).run (service .failFast held).node).1 ≠ .ok true := by
    have hplace : (service .failFast held).node.entryIdOf? t = some ⟨0⟩ := by decide
    have hentry : (service .failFast held).node.entryAt? ⟨0⟩ =
        some ⟨⟨0⟩, t, none, some 1, 1⟩ := by decide
    intro htrue
    obtain ⟨id, e, hid, he, -, -, hfree⟩ :=
      ((evict_undivided .failFast held).2 t).evicted_iff.1 htrue
    rw [hplace] at hid
    cases hid
    rw [hentry] at he
    cases he
    cases hfree
  have hfree : ((Action.evict t).run (service .failFast free).node).1 ≠ .ok true := by
    have hplace : (service .failFast free).node.entryIdOf? t = some ⟨0⟩ := by decide
    have hhandle : ⟨0⟩ ∈ (service .failFast free).node.handles := by decide
    intro htrue
    obtain ⟨id, e, hid, -, -, hhandles, -⟩ :=
      ((evict_undivided .failFast free).2 t).evicted_iff.1 htrue
    rw [hplace] at hid
    cases hid
    exact hhandles hhandle
  have hidle : ((Action.evict t).run (service .failFast idle).node).1 = .ok true := by
    have hplace : (service .failFast idle).node.entryIdOf? t = some ⟨0⟩ := by decide
    have hentry : (service .failFast idle).node.entryAt? ⟨0⟩ =
        some ⟨⟨0⟩, t, none, none, 1⟩ := by decide
    have hsafes : ∀ w ∈ (service .failFast idle).node.safes, w.entry ≠ ⟨0⟩ := by decide
    have hhandles : ⟨0⟩ ∉ (service .failFast idle).node.handles := by decide
    exact ((evict_undivided .failFast idle).2 t).evicted_iff.2
      ⟨⟨0⟩, _, hplace, hentry, hsafes, hhandles, rfl⟩
  have hplace : again.node.entryIdOf? t = some ⟨1⟩ := by decide
  have htokens : again.tokensFor t = [⟨⟨1⟩, 1⟩] := by decide
  exact ⟨hheld, hfree, hidle, hplace, htokens⟩

end Session

end TxnDeps
