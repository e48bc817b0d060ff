import TxnDeps.Proofs.Cache.Operations
import TxnDeps.Proofs.MessagePack.Packed

namespace TxnDeps

/-- The first update starts from `first`, each later one from where the one before it ended, and the
last one ends in `last`. -/
def Chained (first : Option Command) : List CommandUpdate → (last : Option Command) → Prop
  | [], last => first = last
  | u :: us, last => u.before = first ∧ Chained u.after us last

namespace Chained

variable {first mid last : Option Command} {us : List CommandUpdate}

theorem concat (h : Chained first us mid) {u : CommandUpdate} (hu : u.before = mid) :
    Chained first (us ++ [u]) u.after := by
  induction us generalizing first with
  | nil =>
    have hfirst : first = mid := h
    exact ⟨hu.trans hfirst.symm, rfl⟩
  | cons v us ih => exact ⟨h.1, ih h.2⟩

theorem last_eq (h : Chained none us last) : us.getLast?.bind (·.after) = last := by
  have hgeneral : ∀ first, Chained first us last →
      (us.getLast?.map (·.after)).getD first = last := by
    clear h
    intro first h
    induction us generalizing first with
    | nil => exact h
    | cons u us ih =>
      have htail := ih u.after h.2
      cases us with
      | nil => exact h.2
      | cons v us =>
        rw [List.getLast?_cons_cons]
        rw [List.getLast?_cons] at htail ⊢
        exact htail
  have hlast := hgeneral none h
  cases hu : us.getLast? with
  | none =>
    rw [hu] at hlast
    exact hlast
  | some u =>
    rw [hu] at hlast
    exact hlast

theorem recordable (h : Chained none us last) (hus : ∀ u ∈ us, u.Recordable) :
    ∀ c ∈ last, c.Recordable := by
  intro c hc
  rw [← h.last_eq] at hc
  obtain ⟨u, hu, hafter⟩ := Option.bind_eq_some_iff.1 hc
  exact (hus u (List.mem_of_getLast? hu)).after c hafter

end Chained

theorem filter_append_own {us : List CommandUpdate} {u : CommandUpdate} {txn : TxnId}
    (h : u.txn = txn) : (us ++ [u]).filter (·.txn = txn) = us.filter (·.txn = txn) ++ [u] := by
  have hown : [u].filter (·.txn = txn) = [u] := List.filter_cons_of_pos (decide_eq_true h)
  rw [List.filter_append, hown]

theorem filter_append_other {us : List CommandUpdate} {u : CommandUpdate} {txn : TxnId}
    (h : u.txn ≠ txn) : (us ++ [u]).filter (·.txn = txn) = us.filter (·.txn = txn) := by
  have hother : [u].filter (·.txn = txn) = [] := List.filter_cons_of_neg (by simpa using h)
  rw [List.filter_append, hother, List.append_nil]

theorem SafeCommand.recordable_initialised (w : SafeCommand)
    (h : ∀ c ∈ w.current, c.Recordable) : w.initialised.Recordable := by
  rw [initialised]
  cases hcurrent : w.current with
  | none => exact Command.recordable_uninitialised w.txn
  | some c => exact h c hcurrent

/-- The node agrees with the updates that were committed to its journal. No token is in the hands of
a client. -/
structure Node.Consistent (n : Node) (us : List CommandUpdate) : Prop where
  secure : n.Secure []
  recorded : n.journal.records = us.map (·.toBytes)
  recordable : ∀ u ∈ us, u.Recordable
  known : ∀ id e, n.entryAt? id = some e → n.entryIdOf? e.key = some id
  chains : ∀ txn, Chained none (us.filter (·.txn = txn)) (n.peek txn)
  snapshots : ∀ w ∈ n.safes, w.token ≠ none →
    ∀ e, n.entryAt? w.entry = some e → w.snapshot = e.value
  current : ∀ w ∈ n.safes, ∀ c ∈ w.current, c.Recordable

namespace Node.Consistent

variable {n : Node} {us : List CommandUpdate}

theorem empty (policy : AcquirePolicy) : (Node.empty policy).Consistent [] where
  secure := .empty policy
  recorded := rfl
  recordable _ hu := absurd hu List.not_mem_nil
  known id e h := by
    rw [entryAt?, Node.empty, List.getElem?_nil] at h
    cases h
  chains txn := by
    have hnone : (Node.empty policy).entryIdOf? txn = none := by
      rw [entryIdOf?, Node.empty, List.find?_nil]
      rfl
    rw [peek_of_none hnone]
    rfl
  snapshots _ hw := absurd hw List.not_mem_nil
  current _ hw := absurd hw List.not_mem_nil

theorem peek_eq (h : n.Consistent us) {id : EntryId} {e : CommandEntry}
    (he : n.entryAt? id = some e) : n.peek e.key = e.value := by
  rw [peek_of_some (h.known id e he), he]
  rfl

theorem recordable_value (h : n.Consistent us) {id : EntryId} {e : CommandEntry}
    (he : n.entryAt? id = some e) : ∀ c ∈ e.value, c.Recordable := by
  have hchain := h.chains e.key
  rw [h.peek_eq he] at hchain
  exact hchain.recordable fun u hu => h.recordable u (List.mem_filter.1 hu).1

theorem withTracker (h : n.Consistent us) {tracker : RefTracker}
    (ht : tracker.next = n.tracker.next) :
    ({ n with tracker := tracker } : Node).Consistent us where
  secure := h.secure.withRest n.journal n.handles ht
  recorded := h.recorded
  recordable := h.recordable
  known := h.known
  chains := h.chains
  snapshots := h.snapshots
  current := h.current

theorem removeSafe (h : n.Consistent us) (ref : RefId) : (n.removeSafe ref).Consistent us where
  secure := h.secure.removeSafe ref
  recorded := h.recorded
  recordable := h.recordable
  known := h.known
  chains := h.chains
  snapshots w hw := h.snapshots w (List.mem_filter.1 hw).1
  current w hw := h.current w (List.mem_filter.1 hw).1

theorem putSafe (h : n.Consistent us) {w w' : SafeCommand} (hw : w ∈ n.safes) (hsame : w.Same w')
    (htoken : ∀ t ∈ w'.token, t ∈ w.token) (hsnapshot : w'.snapshot = w.snapshot)
    (hcurrent : ∀ c ∈ w'.current, c.Recordable) : (n.putSafe w').Consistent us where
  secure := h.secure.putSafe hw hsame htoken
  recorded := h.recorded
  recordable := h.recordable
  known := h.known
  chains := h.chains
  snapshots v hv hvt e he := by
    obtain rfl | ⟨hv, -⟩ := mem_putSafe hv
    · obtain ⟨t, ht⟩ := Option.ne_none_iff_exists'.1 hvt
      have hwt : w.token ≠ none := by
        rw [htoken t ht]
        exact Option.some_ne_none t
      exact hsnapshot.trans (h.snapshots w hw hwt e (hsame.entry ▸ he))
    · exact h.snapshots v hv hvt e he
  current v hv := by
    obtain rfl | ⟨hv, -⟩ := mem_putSafe hv
    · exact hcurrent
    · exact h.current v hv

theorem addEntry (h : n.Consistent us) {txn : TxnId} (hnone : n.entryIdOf? txn = none) :
    (n.addEntry txn).Consistent us where
  secure := h.secure.addEntry hnone
  recorded := h.recorded
  recordable := h.recordable
  known id e he := by
    rw [entryAt?_addEntry] at he
    by_cases hid : id = n.nextEntry
    · rw [if_pos hid] at he
      cases he
      have hkey := entryIdOf?_addEntry hnone txn
      rw [if_pos rfl, ← hid] at hkey
      exact hkey
    · rw [if_neg hid] at he
      have hkey := h.known id e he
      have hne : e.key ≠ txn := by
        intro heq
        rw [heq, hnone] at hkey
        cases hkey
      rw [entryIdOf?_addEntry hnone, if_neg hne]
      exact hkey
  chains t := by
    rw [h.secure.peek_addEntry hnone]
    exact h.chains t
  snapshots w hw hwt e he := by
    obtain ⟨e', he', -⟩ := h.secure.bound w hw
    rw [entryAt?_addEntry_of_some txn he'] at he
    cases he
    exact h.snapshots w hw hwt e he'
  current := h.current

theorem addSafe (h : n.Consistent us) {id : EntryId} {e : CommandEntry}
    (he : n.entryAt? id = some e) : (n.addSafe id e.key).Consistent us where
  secure := h.secure.addSafe he
  recorded := h.recorded
  recordable := h.recordable
  known := h.known
  chains := h.chains
  snapshots w hw hwt := by
    obtain hw | hw := List.mem_append.1 hw
    · exact h.snapshots w hw hwt
    · rw [List.mem_singleton.1 hw] at hwt
      exact absurd rfl hwt
  current w hw := by
    obtain hw | hw := List.mem_append.1 hw
    · exact h.current w hw
    · rw [List.mem_singleton.1 hw]
      rintro _ ⟨⟩

section PutEntry

variable {w w' : SafeCommand} {e e' : CommandEntry}

theorem peek_putEntry (h : n.Consistent us) {id : EntryId} (he : n.entryAt? id = some e)
    (hid : e'.id = e.id) (txn : TxnId) :
    (n.putEntry e').peek txn = if txn = e.key then e'.value else n.peek txn := by
  have hown : n.entryIdOf? txn = some id ↔ txn = e.key :=
    h.secure.entryIdOf?_eq_some_iff he (h.known id e he)
  rw [Node.peek_putEntry he (hid.trans (h.secure.entries id e he).1), if_congr hown rfl rfl]

/-- An entry and the one safe command that works on it change together, and the journal may take
what they have changed. -/
theorem putEntry (h : n.Consistent us) {us' : List CommandUpdate} (j : Journal)
    (he : n.entryAt? w.entry = some e)
    (hsecure : ((n.putEntry e').putSafe w').Secure []) (hid : e'.id = e.id) (hkey : e'.key = e.key)
    (hsame : w.Same w') (hsnapshot : w'.token ≠ none → w'.snapshot = e'.value)
    (hcurrent : ∀ c ∈ w'.current, c.Recordable)
    (halone : ∀ v ∈ n.safes, v.ref ≠ w.ref → v.entry = w.entry → v.token = none)
    (hrecorded : j.records = us'.map (·.toBytes)) (hrecordable : ∀ u ∈ us', u.Recordable)
    (hchain : Chained none (us'.filter (·.txn = e.key)) e'.value)
    (hothers : ∀ txn, txn ≠ e.key → us'.filter (·.txn = txn) = us.filter (·.txn = txn)) :
    ({ (n.putEntry e').putSafe w' with journal := j } : Node).Consistent us' := by
  have hget := entryAt?_putEntry he (hid.trans (h.secure.entries _ e he).1)
  exact {
    secure := hsecure.withRest j n.handles rfl
    recorded := hrecorded
    recordable := hrecordable
    known := fun id₂ e₂ he₂ => by
      change (n.putEntry e').entryAt? id₂ = some e₂ at he₂
      rw [hget] at he₂
      by_cases heq : id₂ = w.entry
      · rw [if_pos heq] at he₂
        cases he₂
        rw [hkey, heq]
        exact h.known _ e he
      · rw [if_neg heq] at he₂
        exact h.known id₂ e₂ he₂
    chains := fun txn => by
      have hpeek := h.peek_putEntry he hid txn
      change Chained none _ ((n.putEntry e').peek txn)
      by_cases htxn : txn = e.key
      · rw [hpeek, if_pos htxn, htxn]
        exact hchain
      · rw [hpeek, if_neg htxn, hothers txn htxn]
        exact h.chains txn
    snapshots := fun v hv hvt e₂ he₂ => by
      change (n.putEntry e').entryAt? v.entry = some e₂ at he₂
      rw [hget] at he₂
      obtain rfl | ⟨hv, hne⟩ := mem_putSafe hv
      · rw [if_pos hsame.entry] at he₂
        cases he₂
        exact hsnapshot hvt
      · by_cases heq : v.entry = w.entry
        · exact absurd (halone v hv (fun href => hne (href.trans hsame.ref.symm)) heq) hvt
        · rw [if_neg heq] at he₂
          exact h.snapshots v hv hvt e₂ he₂
    current := fun v hv => by
      obtain rfl | ⟨hv, -⟩ := mem_putSafe hv
      · exact hcurrent
      · exact h.current v hv }

end PutEntry

theorem invariant (us : List CommandUpdate) :
    Node.Invariant (·.Consistent us) Command.Recordable where
  secure n h := ⟨[], h.secure⟩
  traced n tracker h ht := h.withTracker ht
  entryAdded n txn h hnone := h.addEntry hnone
  safeAdded n id e h he _ := h.addSafe he
  safeRemoved n ref h := h.removeSafe ref
  edited n w c h hw _ hc := by
    refine h.putSafe hw (w.same_edited (some c)) (fun t ht => ht) rfl fun c' hc' => ?_
    cases hc'
    exact hc
  initialised n w h hw := w.recordable_initialised (h.current w hw)
  granted n w e h hw _ he hfree := by
    have hchain := h.chains e.key
    rw [h.peek_eq he] at hchain
    have haccepts : e.granted.accepts e.nextToken = true := decide_eq_true ⟨rfl, rfl⟩
    have hput : (n.putEntry e.granted).entryAt? w.entry = some e.granted := by
      have hid : e.granted.id = w.entry := (h.secure.entries _ e he).1
      rw [entryAt?_putEntry he hid, if_pos rfl]
    have hsame := w.same_acquired e.value e.nextToken
    have hsecure := (h.secure.granted he hfree).given hw hsame rfl hput haccepts
    exact h.putEntry n.journal he hsecure rfl rfl hsame (fun _ => rfl) (h.recordable_value he)
      (fun v hv _ hentry => h.secure.token_eq_none hv (hentry ▸ he) hfree)
      h.recorded h.recordable hchain fun _ _ => rfl
  spent n w state h hw _ _ := h.putSafe hw (w.same_spent state) nofun rfl (h.current w hw)
  freed n w e token state h hw he ht haccepts _ := by
    have hchain := h.chains e.key
    rw [h.peek_eq he] at hchain
    have hsecure := (h.secure.taken hw ht state).freed he haccepts e.value
    exact h.putEntry n.journal he hsecure rfl rfl (w.same_spent state) (absurd rfl) (h.current w hw)
      (fun v hv hne hentry => h.secure.token_eq_none_of_ne hv hw hne hentry ht)
      h.recorded h.recordable hchain fun _ _ => rfl

section Commit

variable {w : SafeCommand}

/-- The entry is given back with the working copy, and the journal has the update that leads
there. -/
theorem recorded_update (h : n.Consistent us) {e : CommandEntry} {token : Token} (hw : w ∈ n.safes)
    (he : n.entryAt? w.entry = some e) (hkey : e.key = w.txn) (ht : w.token = some token)
    (haccepts : e.accepts token = true) :
    ((({ n with journal := n.journal.append w.toUpdate } : Node).putEntry
      (e.freed w.current)).ended w).Consistent (us ++ [w.toUpdate]) := by
  have hvalue : w.snapshot = e.value := h.snapshots w hw (ht ▸ Option.some_ne_none token) e he
  have hrecorded : (n.journal.append w.toUpdate).records =
      (us ++ [w.toUpdate]).map (·.toBytes) := by
    rw [Journal.append, h.recorded, List.map_append, List.map_singleton]
  have hupdate : w.toUpdate.Recordable := by
    refine ⟨?_, h.current w hw⟩
    change ∀ c ∈ w.snapshot, c.Recordable
    rw [hvalue]
    exact h.recordable_value he
  have hrecordable : ∀ u ∈ us ++ [w.toUpdate], u.Recordable := by
    intro u hu
    obtain hu | hu := List.mem_append.1 hu
    · exact h.recordable u hu
    · rw [List.mem_singleton.1 hu]
      exact hupdate
  have hchain : Chained none ((us ++ [w.toUpdate]).filter (·.txn = e.key)) w.current := by
    have hbefore := h.chains e.key
    rw [h.peek_eq he] at hbefore
    rw [filter_append_own hkey.symm]
    exact hbefore.concat hvalue
  have hothers : ∀ txn, txn ≠ e.key →
      (us ++ [w.toUpdate]).filter (·.txn = txn) = us.filter (·.txn = txn) :=
    fun txn hne => filter_append_other fun heq => hne (heq.symm.trans hkey.symm)
  have hsecure := (h.secure.taken hw ht .invalidated).freed he haccepts w.current
  have hput := h.putEntry (n.journal.append w.toUpdate) he hsecure rfl rfl
    (w.same_spent .invalidated) (absurd rfl) (h.current w hw)
    (fun v hv hne hentry => h.secure.token_eq_none_of_ne hv hw hne hentry ht)
    hrecorded hrecordable hchain hothers
  exact hput.withTracker rfl

/-- A commit either succeeds, and its update comes last in the journal, or leaves everything that
is recorded as it was. -/
theorem commit_cases (h : n.Consistent us) (ref : RefId) (recorder : Recorder) :
    (∃ u n', (Action.commit ref recorder).run n = (.ok u, n') ∧ n'.Consistent (us ++ [u])) ∨
      ∃ s n', (Action.commit ref recorder).run n = (.error s, n') ∧ n'.Consistent us := by
  have inv := invariant us
  obtain ⟨misuse, hrun⟩ | ⟨w, hw, ⟨ht, hrun⟩ | ⟨token, e, j, ht, he, hkey, haccepts, hrecorded⟩⟩ :=
    Action.commitTo_cases h.secure ref fun u => recorder.record u
  · exact .inr ⟨_, n, hrun, h⟩
  · have hspent := inv.spent n w .invalidated h hw ht (.inr rfl)
    exact .inr ⟨_, _, hrun, hspent.withTracker rfl⟩
  · cases recorder with
    | refusing error =>
      obtain ⟨_, ⟨⟩, hrun⟩ | ⟨⟨⟩, -⟩ := hrecorded
      have hfreed := inv.freed n w e token .invalidated h hw he ht haccepts (.inr rfl)
      exact .inr ⟨_, _, hrun, hfreed.withTracker rfl⟩
    | journal =>
      obtain ⟨_, ⟨⟩, -⟩ | ⟨⟨⟩, hrun⟩ := hrecorded
      exact .inl ⟨_, _, hrun, h.recorded_update hw he hkey ht haccepts⟩

end Commit

end Node.Consistent

end TxnDeps
