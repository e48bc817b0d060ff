import TxnDeps.Proofs.Cache.Node

namespace TxnDeps

open CacheEntry (accepts_eq_true_iff)

/-- Of a node whose clients have the given tokens in their hands. -/
structure Node.Secure (n : Node) (tokens : List Token) : Prop where
  entries : ∀ id e, n.entryAt? id = some e → e.id = id ∧ ∀ grant ∈ e.holder, grant ≤ e.grants
  cached : ∀ txn id, n.entryIdOf? txn = some id → ∃ e, n.entryAt? id = some e ∧ e.key = txn
  refs : (n.safes.map (·.ref)).Nodup
  fresh : ∀ w ∈ n.safes, w.ref.number < n.tracker.next
  bound : ∀ w ∈ n.safes, ∃ e, n.entryAt? w.entry = some e ∧ e.key = w.txn ∧
    ∀ token ∈ w.token, e.accepts token = true
  single : ∀ v ∈ n.safes, ∀ w ∈ n.safes, ∀ token ∈ v.token, token ∈ w.token → v.ref = w.ref
  apart : ∀ w ∈ n.safes, ∀ token ∈ w.token, token ∉ tokens
  issued : ∀ token ∈ tokens, ∃ e, n.entryAt? token.entry = some e ∧ token.grant ≤ e.grants
  distinct : tokens.Nodup

namespace Node.Secure

variable {n : Node} {tokens : List Token}

theorem empty (policy : AcquirePolicy) : (Node.empty policy).Secure [] where
  entries id e h := by
    rw [entryAt?, Node.empty, List.getElem?_nil] at h
    cases h
  cached txn id h := by
    rw [entryIdOf?, Node.empty, List.find?_nil] at h
    cases h
  refs := List.Pairwise.nil
  fresh _ hw := absurd hw List.not_mem_nil
  bound _ hw := absurd hw List.not_mem_nil
  single _ hv := absurd hv List.not_mem_nil
  apart _ hw := absurd hw List.not_mem_nil
  issued _ hmem := absurd hmem List.not_mem_nil
  distinct := List.Pairwise.nil

/-- An entry accepts one token at most, which tells its place. -/
theorem token_eq (h : n.Secure tokens) {id : EntryId} {e : CommandEntry} {token : Token}
    (he : n.entryAt? id = some e) (haccepts : e.accepts token = true) :
    token.entry = id ∧ e.holder = some token.grant := by
  obtain ⟨hentry, hholder⟩ := accepts_eq_true_iff.1 haccepts
  exact ⟨hentry.trans (h.entries id e he).1, hholder⟩

theorem exists_entry (h : n.Secure tokens) {w : SafeCommand} (hw : w ∈ n.safes) :
    ∃ e, n.entryAt? w.entry = some e ∧ e.id = w.entry ∧ e.key = w.txn ∧
      ∀ token ∈ w.token, e.accepts token = true := by
  obtain ⟨e, he, hkey, htoken⟩ := h.bound w hw
  exact ⟨e, he, (h.entries _ e he).1, hkey, htoken⟩

theorem entryIdOf?_eq_some_iff (h : n.Secure tokens) {id : EntryId} {e : CommandEntry}
    (he : n.entryAt? id = some e) (hplace : n.entryIdOf? e.key = some id) {txn : TxnId} :
    n.entryIdOf? txn = some id ↔ txn = e.key := by
  refine ⟨fun htxn => ?_, fun htxn => htxn ▸ hplace⟩
  obtain ⟨e', he', hkey⟩ := h.cached txn id htxn
  rw [he] at he'
  cases he'
  exact hkey.symm

theorem token_eq_none (h : n.Secure tokens) {w : SafeCommand} (hw : w ∈ n.safes) {e : CommandEntry}
    (he : n.entryAt? w.entry = some e) (hfree : e.holder = none) : w.token = none := by
  obtain ⟨e', he', -, htoken⟩ := h.bound w hw
  rw [he] at he'
  cases he'
  cases ht : w.token with
  | none => rfl
  | some token =>
    have hheld := (accepts_eq_true_iff.1 (htoken token ht)).2
    rw [hfree] at hheld
    cases hheld

theorem token_eq_none_of_ne (h : n.Secure tokens) {v w : SafeCommand} (hv : v ∈ n.safes)
    (hw : w ∈ n.safes) (hne : v.ref ≠ w.ref) (hentry : v.entry = w.entry) {token : Token}
    (ht : w.token = some token) : v.token = none := by
  obtain ⟨e, he, -, haccepts⟩ := h.bound w hw
  obtain ⟨e', he', -, haccepts'⟩ := h.bound v hv
  rw [hentry, he] at he'
  cases he'
  cases hvt : v.token with
  | none => rfl
  | some token' =>
    have hsame := CacheEntry.eq_of_accepts (haccepts' token' hvt) (haccepts token ht)
    exact absurd (h.single v hv w hw token' hvt (hsame ▸ ht)) hne

/-- No safe command has a token of an entry whose token is in hand. -/
theorem token_eq_none_of_hand {token : Token} (h : n.Secure (token :: tokens)) {w : SafeCommand}
    (hw : w ∈ n.safes) {e : CommandEntry} (he : n.entryAt? w.entry = some e)
    (haccepts : e.accepts token = true) : w.token = none := by
  obtain ⟨e', he', -, haccepts'⟩ := h.bound w hw
  rw [he] at he'
  cases he'
  cases ht : w.token with
  | none => rfl
  | some t =>
    have hsame : t = token := CacheEntry.eq_of_accepts (haccepts' t ht) haccepts
    exact absurd (hsame ▸ List.mem_cons_self) (h.apart w hw t ht)

theorem perm (h : n.Secure tokens) {tokens' : List Token} (hperm : tokens.Perm tokens') :
    n.Secure tokens' where
  entries := h.entries
  cached := h.cached
  refs := h.refs
  fresh := h.fresh
  bound := h.bound
  single := h.single
  apart w hw token ht hmem := h.apart w hw token ht (hperm.mem_iff.2 hmem)
  issued token hmem := h.issued token (hperm.mem_iff.2 hmem)
  distinct := hperm.nodup_iff.1 h.distinct

theorem tail {token : Token} (h : n.Secure (token :: tokens)) : n.Secure tokens where
  entries := h.entries
  cached := h.cached
  refs := h.refs
  fresh := h.fresh
  bound := h.bound
  single := h.single
  apart w hw t ht hmem := h.apart w hw t ht (List.mem_cons_of_mem token hmem)
  issued t hmem := h.issued t (List.mem_cons_of_mem token hmem)
  distinct := (List.nodup_cons.1 h.distinct).2

theorem cons (h : n.Secure tokens) {id : EntryId} {e : CommandEntry} {token : Token}
    (he : n.entryAt? id = some e) (hentry : token.entry = id) (hgrant : token.grant ≤ e.grants)
    (hsafes : ∀ w ∈ n.safes, token ∉ w.token) (hnew : token ∉ tokens) :
    n.Secure (token :: tokens) where
  entries := h.entries
  cached := h.cached
  refs := h.refs
  fresh := h.fresh
  bound := h.bound
  single := h.single
  apart w hw t ht hmem := by
    obtain rfl | hmem := List.mem_cons.1 hmem
    · exact hsafes w hw ht
    · exact h.apart w hw t ht hmem
  issued t hmem := by
    obtain rfl | hmem := List.mem_cons.1 hmem
    · exact ⟨e, hentry ▸ he, hgrant⟩
    · exact h.issued t hmem
  distinct := List.nodup_cons.2 ⟨hnew, h.distinct⟩

theorem withRest (h : n.Secure tokens) (journal : Journal) (handles : List EntryId)
    {tracker : RefTracker} (ht : tracker.next = n.tracker.next) :
    ({ n with journal := journal, handles := handles, tracker := tracker } : Node).Secure tokens
    where
  entries := h.entries
  cached := h.cached
  refs := h.refs
  fresh w hw := ht ▸ h.fresh w hw
  bound := h.bound
  single := h.single
  apart := h.apart
  issued := h.issued
  distinct := h.distinct

theorem evicted (h : n.Secure tokens) (txn : TxnId) : (n.evicted txn).Secure tokens where
  entries := h.entries
  cached t id hid := by
    rw [entryIdOf?_evicted] at hid
    split at hid
    · cases hid
    · exact h.cached t id hid
  refs := h.refs
  fresh := h.fresh
  bound := h.bound
  single := h.single
  apart := h.apart
  issued := h.issued
  distinct := h.distinct

theorem removeSafe (h : n.Secure tokens) (ref : RefId) : (n.removeSafe ref).Secure tokens where
  entries := h.entries
  cached := h.cached
  refs := h.refs.sublist (List.filter_sublist.map _)
  fresh w hw := h.fresh w (List.mem_filter.1 hw).1
  bound w hw := h.bound w (List.mem_filter.1 hw).1
  single v hv w hw := h.single v (List.mem_filter.1 hv).1 w (List.mem_filter.1 hw).1
  apart w hw := h.apart w (List.mem_filter.1 hw).1
  issued := h.issued
  distinct := h.distinct

theorem pushEntry (h : n.Secure tokens) (txn : TxnId) (value : Option Command) :
    (n.pushEntry txn value).Secure tokens where
  entries id e he := by
    rw [entryAt?_pushEntry] at he
    by_cases hid : id = n.nextEntry
    · rw [if_pos hid] at he
      cases he
      exact ⟨hid.symm, nofun⟩
    · rw [if_neg hid] at he
      exact h.entries id e he
  cached t id hid := by
    obtain ⟨e, he, hkey⟩ := h.cached t id hid
    exact ⟨e, entryAt?_pushEntry_of_some txn value he, hkey⟩
  refs := h.refs
  fresh := h.fresh
  bound w hw := by
    obtain ⟨e, he, hrest⟩ := h.bound w hw
    exact ⟨e, entryAt?_pushEntry_of_some txn value he, hrest⟩
  single := h.single
  apart := h.apart
  issued token hmem := by
    obtain ⟨e, he, hgrant⟩ := h.issued token hmem
    exact ⟨e, entryAt?_pushEntry_of_some txn value he, hgrant⟩
  distinct := h.distinct

theorem addEntry (h : n.Secure tokens) {txn : TxnId} (hnone : n.entryIdOf? txn = none) :
    (n.addEntry txn).Secure tokens := by
  have hpush := h.pushEntry txn none
  refine { hpush with cached := fun t id hid => ?_ }
  rw [entryIdOf?_addEntry hnone] at hid
  by_cases ht : t = txn
  · rw [if_pos ht] at hid
    cases hid
    have hget := entryAt?_addEntry (n := n) txn n.nextEntry
    rw [if_pos rfl] at hget
    exact ⟨_, hget, ht.symm⟩
  · rw [if_neg ht] at hid
    exact hpush.cached t id hid

theorem peek_addEntry (h : n.Secure tokens) {txn : TxnId} (hnone : n.entryIdOf? txn = none)
    (t : TxnId) : (n.addEntry txn).peek t = n.peek t := by
  have hid := entryIdOf?_addEntry hnone t
  by_cases ht : t = txn
  · rw [if_pos ht] at hid
    rw [peek_of_some hid, entryAt?_addEntry, if_pos rfl, ht, peek_of_none hnone]
    rfl
  · rw [if_neg ht] at hid
    cases hold : n.entryIdOf? t with
    | none => rw [peek_of_none (hid.trans hold), peek_of_none hold]
    | some id =>
      obtain ⟨e, he, -⟩ := h.cached t id hold
      rw [peek_of_some (hid.trans hold), peek_of_some hold, entryAt?_addEntry_of_some txn he, he]

theorem addSafe (h : n.Secure tokens) {id : EntryId} {e : CommandEntry}
    (he : n.entryAt? id = some e) : (n.addSafe id e.key).Secure tokens where
  entries := h.entries
  cached := h.cached
  refs := by
    change ((n.safes ++ [_]).map SafeCommand.ref).Nodup
    rw [List.map_append, List.map_singleton]
    refine List.nodup_append.2 ⟨h.refs, List.pairwise_singleton _ _, fun ref href ref' href' => ?_⟩
    obtain ⟨w, hw, rfl⟩ := List.mem_map.1 href
    rw [List.mem_singleton.1 href']
    intro heq
    have hlt := h.fresh w hw
    rw [heq] at hlt
    exact Nat.lt_irrefl _ hlt
  fresh w hw := by
    obtain hw | hw := List.mem_append.1 hw
    · exact Nat.lt_succ_of_lt (h.fresh w hw)
    · rw [List.mem_singleton.1 hw]
      exact Nat.lt_succ_self _
  bound w hw := by
    obtain hw | hw := List.mem_append.1 hw
    · exact h.bound w hw
    · rw [List.mem_singleton.1 hw]
      exact ⟨e, he, rfl, nofun⟩
  single v hv w hw token hvt hwt := by
    obtain hv | hv := List.mem_append.1 hv
    · obtain hw | hw := List.mem_append.1 hw
      · exact h.single v hv w hw token hvt hwt
      · rw [List.mem_singleton.1 hw] at hwt
        cases hwt
    · rw [List.mem_singleton.1 hv] at hvt
      cases hvt
  apart w hw token ht := by
    obtain hw | hw := List.mem_append.1 hw
    · exact h.apart w hw token ht
    · rw [List.mem_singleton.1 hw] at ht
      cases ht
  issued := h.issued
  distinct := h.distinct

section PutSafe

variable {w w' : SafeCommand} {token : Token}

/-- Tokens move between the safe command and the hands of clients, or get lost. -/
theorem moved (h : n.Secure tokens) {tokens' : List Token} (hw : w ∈ n.safes) (hsame : w.Same w')
    (htoken : ∀ t ∈ w'.token, t ∉ tokens' ∧ (t ∈ w.token ∨
      t ∈ tokens ∧ ∃ e, n.entryAt? w.entry = some e ∧ e.accepts t = true))
    (hhand : ∀ t ∈ tokens', t ∈ tokens ∨ t ∈ w.token) (hdistinct : tokens'.Nodup) :
    (n.putSafe w').Secure tokens' where
  entries := h.entries
  cached := h.cached
  refs := by
    rw [refs_putSafe]
    exact h.refs
  fresh v hv := by
    obtain rfl | ⟨hv, -⟩ := mem_putSafe hv
    · exact hsame.ref ▸ h.fresh w hw
    · exact h.fresh v hv
  bound v hv := by
    obtain rfl | ⟨hv, -⟩ := mem_putSafe hv
    · obtain ⟨e, he, hkey, haccepts⟩ := h.bound w hw
      refine ⟨e, hsame.entry ▸ he, hkey.trans hsame.txn.symm, fun t ht => ?_⟩
      obtain ⟨-, hold | ⟨-, e', he', haccepts'⟩⟩ := htoken t ht
      · exact haccepts t hold
      · rw [he] at he'
        cases he'
        exact haccepts'
    · exact h.bound v hv
  single u hu v hv t hut hvt := by
    -- What `w'` has came from `w` or from a hand, and no other safe command had it there.
    have hother : ∀ x ∈ n.safes, x.ref ≠ w'.ref → t ∈ x.token → t ∉ w'.token := by
      intro x hx hne hxt hwt
      obtain ⟨-, hold | ⟨hmem, -⟩⟩ := htoken t hwt
      · exact hne ((h.single x hx w hw t hxt hold).trans hsame.ref.symm)
      · exact h.apart x hx t hxt hmem
    obtain rfl | ⟨hu', hune⟩ := mem_putSafe hu
    · obtain rfl | ⟨hv', hvne⟩ := mem_putSafe hv
      · rfl
      · exact absurd hut (hother v hv' hvne hvt)
    · obtain rfl | ⟨hv', hvne⟩ := mem_putSafe hv
      · exact absurd hvt (hother u hu' hune hut)
      · exact h.single u hu' v hv' t hut hvt
  apart v hv t ht hmem := by
    obtain rfl | ⟨hv, hne⟩ := mem_putSafe hv
    · exact (htoken t ht).1 hmem
    · obtain hmem | hold := hhand t hmem
      · exact h.apart v hv t ht hmem
      · exact hne ((h.single v hv w hw t ht hold).trans hsame.ref.symm)
  issued t hmem := by
    obtain hmem | hold := hhand t hmem
    · exact h.issued t hmem
    · obtain ⟨e, he, -, haccepts⟩ := h.bound w hw
      obtain ⟨hentry, hholder⟩ := h.token_eq he (haccepts t hold)
      exact ⟨e, hentry ▸ he, (h.entries _ e he).2 _ hholder⟩
  distinct := hdistinct

theorem putSafe (h : n.Secure tokens) (hw : w ∈ n.safes) (hsame : w.Same w')
    (htoken : ∀ t ∈ w'.token, t ∈ w.token) : (n.putSafe w').Secure tokens :=
  h.moved hw hsame (fun t ht => ⟨h.apart w hw t (htoken t ht), .inl (htoken t ht)⟩)
    (fun _ hmem => .inl hmem) h.distinct

theorem taken (h : n.Secure tokens) (hw : w ∈ n.safes) (ht : w.token = some token)
    (state : SafeState) : (n.putSafe (w.spent state)).Secure (token :: tokens) := by
  refine h.moved hw (w.same_spent state) nofun (fun t hmem => ?_) ?_
  · obtain rfl | hmem := List.mem_cons.1 hmem
    · exact .inr ht
    · exact .inl hmem
  · exact List.nodup_cons.2 ⟨h.apart w hw token ht, h.distinct⟩

theorem given (h : n.Secure (token :: tokens)) (hw : w ∈ n.safes) (hsame : w.Same w')
    (ht : w'.token = some token) {e : CommandEntry} (he : n.entryAt? w.entry = some e)
    (haccepts : e.accepts token = true) : (n.putSafe w').Secure tokens := by
  obtain ⟨hnew, hdistinct⟩ := List.nodup_cons.1 h.distinct
  refine h.moved hw hsame (fun t hmem => ?_) (fun t hmem => .inl (List.mem_cons_of_mem _ hmem))
    hdistinct
  rw [ht] at hmem
  cases hmem
  exact ⟨hnew, .inr ⟨List.mem_cons_self, e, he, haccepts⟩⟩

end PutSafe

section PutEntry

variable {id : EntryId} {e e' : CommandEntry} {token : Token}

theorem putEntry (h : n.Secure tokens) (he : n.entryAt? id = some e) (hid : e'.id = e.id)
    (hkey : e'.key = e.key) (hgrants : e.grants ≤ e'.grants)
    (hholder : ∀ grant ∈ e'.holder, grant ≤ e'.grants)
    (haccepts : ∀ w ∈ n.safes, w.entry = id → ∀ t ∈ w.token, e'.accepts t = true) :
    (n.putEntry e').Secure tokens := by
  have hplace := (h.entries id e he).1
  have hget := entryAt?_putEntry he (hid.trans hplace)
  have hsome : ∀ id₁ e₁, n.entryAt? id₁ = some e₁ →
      ∃ e₂, (n.putEntry e').entryAt? id₁ = some e₂ ∧ e₂.key = e₁.key ∧ e₁.grants ≤ e₂.grants := by
    intro id₁ e₁ he₁
    rw [hget]
    by_cases heq : id₁ = id
    · rw [heq, he] at he₁
      cases he₁
      exact ⟨e', if_pos heq, hkey, hgrants⟩
    · exact ⟨e₁, (if_neg heq).trans he₁, rfl, Nat.le_refl _⟩
  exact {
    entries := fun id₁ e₁ he₁ => by
      rw [hget] at he₁
      by_cases heq : id₁ = id
      · rw [if_pos heq] at he₁
        cases he₁
        exact ⟨heq ▸ hid.trans hplace, hholder⟩
      · rw [if_neg heq] at he₁
        exact h.entries id₁ e₁ he₁
    cached := fun txn id₁ hid₁ => by
      obtain ⟨e₁, he₁, hkey₁⟩ := h.cached txn id₁ hid₁
      obtain ⟨e₂, he₂, hkey₂, -⟩ := hsome id₁ e₁ he₁
      exact ⟨e₂, he₂, hkey₂.trans hkey₁⟩
    refs := h.refs
    fresh := h.fresh
    bound := fun w hw => by
      obtain ⟨e₁, he₁, hkey₁, haccepts₁⟩ := h.bound w hw
      rw [hget]
      by_cases heq : w.entry = id
      · rw [heq, he] at he₁
        cases he₁
        exact ⟨e', if_pos heq, hkey.trans hkey₁, haccepts w hw heq⟩
      · exact ⟨e₁, (if_neg heq).trans he₁, hkey₁, haccepts₁⟩
    single := h.single
    apart := h.apart
    issued := fun t hmem => by
      obtain ⟨e₁, he₁, hgrant⟩ := h.issued t hmem
      obtain ⟨e₂, he₂, -, hgrants₂⟩ := hsome _ e₁ he₁
      exact ⟨e₂, he₂, Nat.le_trans hgrant hgrants₂⟩
    distinct := h.distinct }

/-- Who has the token in hand gives the entry back. No safe command has it then. -/
theorem freed (h : n.Secure (token :: tokens)) (he : n.entryAt? id = some e)
    (haccepts : e.accepts token = true) (value : Option Command) :
    (n.putEntry (e.freed value)).Secure tokens := by
  refine h.tail.putEntry he rfl rfl (Nat.le_refl _) nofun fun w hw hentry t ht => ?_
  rw [h.token_eq_none_of_hand hw (hentry ▸ he) haccepts] at ht
  cases ht

theorem granted (h : n.Secure tokens) (he : n.entryAt? id = some e) (hfree : e.holder = none) :
    (n.putEntry e.granted).Secure (e.nextToken :: tokens) := by
  have hplace := (h.entries id e he).1
  have hnone : ∀ w ∈ n.safes, w.entry = id → w.token = none := by
    intro w hw hentry
    subst hentry
    exact h.token_eq_none hw he hfree
  have hid : e.granted.id = id := hplace
  have hentry : (n.putEntry e.granted).entryAt? id = some e.granted := by
    rw [entryAt?_putEntry he hid, if_pos rfl]
  have hput : (n.putEntry e.granted).Secure tokens := by
    refine h.putEntry he rfl rfl (Nat.le_succ _) ?_ fun w hw hown t ht => ?_
    · rintro grant hgrant
      cases hgrant
      exact Nat.le_refl _
    · rw [hnone w hw hown] at ht
      cases ht
  refine hput.cons hentry hplace (Nat.le_refl _) (fun w hw ht => ?_) fun hmem => ?_
  · obtain ⟨e₁, he₁, -, haccepts⟩ := h.bound w hw
    have hown := (h.token_eq he₁ (haccepts _ ht)).1
    rw [hnone w hw (hown.symm.trans hplace)] at ht
    cases ht
  · obtain ⟨e₁, he₁, hgrant⟩ := h.issued _ hmem
    rw [CacheEntry.nextToken, hplace, he] at he₁
    cases he₁
    exact Nat.not_succ_le_self _ hgrant

end PutEntry

end Node.Secure

end TxnDeps
