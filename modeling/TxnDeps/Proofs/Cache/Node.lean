import Mathlib.Data.List.Nodup
import TxnDeps.Cache.Node
import TxnDeps.Proofs.Cache.Grants

namespace TxnDeps

theorem find?_key_of_mem {α κ : Type} [DecidableEq κ] {key : α → κ} {l : List α}
    (h : (l.map key).Nodup) {a : α} (ha : a ∈ l) : l.find? (key · = key a) = some a := by
  obtain ⟨b, hb⟩ : ∃ b, l.find? (key · = key a) = some b := by
    apply Option.isSome_iff_exists.1
    rw [List.find?_isSome]
    exact ⟨a, ha, decide_eq_true rfl⟩
  have hkey : key b = key a := by simpa using List.find?_some hb
  rw [hb, List.inj_on_of_nodup_map h (List.mem_of_find?_eq_some hb) ha hkey]

theorem EntryId.number_ne {id id' : EntryId} (h : id ≠ id') : id.number ≠ id'.number := by
  intro hn
  apply h
  cases id
  cases id'
  cases hn
  rfl

/-- The same safe command, with other contents. -/
structure SafeCommand.Same (w w' : SafeCommand) : Prop where
  ref : w'.ref = w.ref
  entry : w'.entry = w.entry
  txn : w'.txn = w.txn

namespace SafeCommand.Same

theorem refl (w : SafeCommand) : w.Same w := ⟨rfl, rfl, rfl⟩

theorem trans {u v w : SafeCommand} (h : u.Same v) (h' : v.Same w) : u.Same w :=
  ⟨h'.ref.trans h.ref, h'.entry.trans h.entry, h'.txn.trans h.txn⟩

end SafeCommand.Same

def SafeState.Ends (s t : SafeState) : Prop := t = s ∨ t = .invalidated

namespace SafeCommand

variable {w : SafeCommand} {call : SafeCall}

theorem checkValid_eq_ok_iff : w.checkValid call = .ok () ↔ w.state ≠ .invalidated := by
  rw [checkValid]
  cases w.state <;> simp

theorem checkActive_eq_ok_iff : w.checkActive call = .ok () ↔ w.state = .active := by
  rw [checkActive]
  cases w.state <;> simp

theorem checkUnused_eq_ok_iff : w.checkUnused = .ok () ↔ w.state = .unacquired := by
  rw [checkUnused]
  cases w.state <;> simp

end SafeCommand

def SafeCommand.spent (w : SafeCommand) (state : SafeState) : SafeCommand :=
  { w with token := none, state := state }

namespace SafeCommand

variable (w : SafeCommand)

theorem same_spent (state : SafeState) : w.Same (w.spent state) := ⟨rfl, rfl, rfl⟩

theorem same_acquired (value : Option Command) (token : Token) :
    w.Same (w.acquired value token) := ⟨rfl, rfl, rfl⟩

theorem same_edited (current : Option Command) : w.Same { w with current := current } :=
  ⟨rfl, rfl, rfl⟩

end SafeCommand

namespace Node

variable {n : Node}

/-- The value of the entry of the transaction, none if it has no entry. -/
def peek (n : Node) (txn : TxnId) : Option Command := (n.entryOf? txn).bind (·.value)

theorem peek_of_some {txn : TxnId} {id : EntryId} (h : n.entryIdOf? txn = some id) :
    n.peek txn = (n.entryAt? id).bind (·.value) := by
  rw [peek, entryOf?, h]

theorem peek_of_none {txn : TxnId} (h : n.entryIdOf? txn = none) : n.peek txn = none := by
  rw [peek, entryOf?, h]
  rfl

theorem mem_of_safe? {ref : RefId} {w : SafeCommand} (h : n.safe? ref = some w) :
    w ∈ n.safes ∧ w.ref = ref :=
  ⟨List.mem_of_find?_eq_some h, by simpa using List.find?_some h⟩

theorem entryAt?_putEntry {e : CommandEntry} {id : EntryId} {e' : CommandEntry}
    (he : n.entryAt? id = some e) (hid : e'.id = id) (id' : EntryId) :
    (n.putEntry e').entryAt? id' = if id' = id then some e' else n.entryAt? id' := by
  have hlt : id.number < n.entries.length := (List.getElem?_eq_some_iff.1 he).1
  change (n.entries.set e'.id.number e')[id'.number]? = _
  rw [hid, List.getElem?_set]
  by_cases h : id' = id
  · subst h
    rw [if_pos rfl, if_pos hlt, if_pos rfl]
  · rw [if_neg (EntryId.number_ne (Ne.symm h)), if_neg h]
    rfl

theorem peek_putEntry {e : CommandEntry} {id : EntryId} {e' : CommandEntry}
    (he : n.entryAt? id = some e) (hid : e'.id = id) (txn : TxnId) :
    (n.putEntry e').peek txn = if n.entryIdOf? txn = some id then e'.value else n.peek txn := by
  have hsame : (n.putEntry e').entryIdOf? txn = n.entryIdOf? txn := rfl
  cases hplace : n.entryIdOf? txn with
  | none => rw [peek_of_none (hsame.trans hplace), peek_of_none hplace, if_neg nofun]
  | some id' =>
    rw [peek_of_some (hsame.trans hplace), peek_of_some hplace, entryAt?_putEntry he hid]
    by_cases heq : id' = id
    · rw [if_pos heq, if_pos (congrArg some heq)]
      rfl
    · rw [if_neg heq, if_neg fun hsome => heq (Option.some.inj hsome)]

theorem mem_putSafe {w v : SafeCommand} (h : v ∈ (n.putSafe w).safes) :
    v = w ∨ v ∈ n.safes ∧ v.ref ≠ w.ref := by
  obtain ⟨u, hu, rfl⟩ := List.mem_map.1 h
  by_cases href : u.ref = w.ref
  · rw [if_pos href]
    exact .inl rfl
  · rw [if_neg href]
    exact .inr ⟨hu, href⟩

theorem refs_putSafe (w : SafeCommand) :
    (n.putSafe w).safes.map (·.ref) = n.safes.map (·.ref) := by
  change (n.safes.map fun v => if v.ref = w.ref then w else v).map (·.ref) = _
  rw [List.map_map]
  apply List.map_congr_left
  intro v _
  by_cases href : v.ref = w.ref
  · simp [href]
  · simp [href]

theorem safe?_putSafe {w : SafeCommand} {ref : RefId} (h : n.safe? ref = some w)
    (w' : SafeCommand) (href : w'.ref = ref) : (n.putSafe w').safe? ref = some w' := by
  have hmem : w' ∈ (n.putSafe w').safes := by
    obtain ⟨hw, hwref⟩ := mem_of_safe? h
    exact List.mem_map.2 ⟨w, hw, if_pos (hwref.trans href.symm)⟩
  obtain ⟨v, hv⟩ : ∃ v, (n.putSafe w').safe? ref = some v := by
    apply Option.isSome_iff_exists.1
    rw [safe?, List.find?_isSome]
    exact ⟨w', hmem, decide_eq_true href⟩
  obtain ⟨hvmem, hvref⟩ := mem_of_safe? hv
  obtain rfl | ⟨-, hne⟩ := mem_putSafe hvmem
  · exact hv
  · exact absurd (hvref.trans href.symm) hne

def nextEntry (n : Node) : EntryId := ⟨n.entries.length⟩

def pushEntry (n : Node) (txn : TxnId) (value : Option Command) : Node :=
  { n with entries := n.entries ++ [CacheEntry.create n.nextEntry txn value] }

def addEntry (n : Node) (txn : TxnId) : Node :=
  { n with
    entries := n.entries ++ [CacheEntry.create n.nextEntry txn none],
    cached := n.cached ++ [(txn, n.nextEntry)] }

def addSafe (n : Node) (id : EntryId) (txn : TxnId) : Node :=
  { n with
    tracker := (n.tracker.register txn.text).2,
    safes := n.safes ++ [.create (n.tracker.register txn.text).1 id txn] }

theorem entryAt?_pushEntry (txn : TxnId) (value : Option Command) (id : EntryId) :
    (n.pushEntry txn value).entryAt? id =
      if id = n.nextEntry then some (CacheEntry.create n.nextEntry txn value)
      else n.entryAt? id := by
  change (n.entries ++ [CacheEntry.create n.nextEntry txn value])[id.number]? = _
  by_cases hlt : id.number < n.entries.length
  · have hne : id ≠ n.nextEntry := fun heq => Nat.lt_irrefl _ (heq ▸ hlt)
    rw [List.getElem?_append_left hlt, if_neg hne]
    rfl
  · rw [List.getElem?_append_right (Nat.not_lt.1 hlt)]
    by_cases heq : id = n.nextEntry
    · have hzero : id.number - n.entries.length = 0 := by
        rw [heq]
        exact Nat.sub_self _
      rw [if_pos heq, hzero]
      rfl
    · have hnumber : id.number ≠ n.entries.length := EntryId.number_ne heq
      have hpast : n.entryAt? id = none := List.getElem?_eq_none (Nat.not_lt.1 hlt)
      rw [if_neg heq, hpast]
      refine List.getElem?_eq_none ?_
      rw [List.length_singleton]
      omega

theorem entryAt?_addEntry (txn : TxnId) (id : EntryId) :
    (n.addEntry txn).entryAt? id =
      if id = n.nextEntry then some (CacheEntry.create n.nextEntry txn none)
      else n.entryAt? id :=
  entryAt?_pushEntry txn none id

theorem entryIdOf?_addEntry {txn : TxnId} (hnone : n.entryIdOf? txn = none) (t : TxnId) :
    (n.addEntry txn).entryIdOf? t = if t = txn then some n.nextEntry else n.entryIdOf? t := by
  change ((n.cached ++ [(txn, n.nextEntry)]).find? (·.1 = t)).map (·.2) = _
  by_cases ht : t = txn
  · have hfind : n.cached.find? (·.1 = t) = none := by
      rw [ht]
      exact Option.map_eq_none_iff.1 hnone
    rw [List.find?_append, hfind, if_pos ht, ht]
    simp
  · have hne : ¬txn = t := fun he => ht he.symm
    rw [List.find?_append, if_neg ht, List.find?_cons_of_neg (by simpa using hne),
      List.find?_nil, Option.or_none]
    rfl

def evicted (n : Node) (txn : TxnId) : Node :=
  { n with cached := n.cached.filter (·.1 ≠ txn) }

theorem entryIdOf?_evicted (txn t : TxnId) :
    (n.evicted txn).entryIdOf? t = if t = txn then none else n.entryIdOf? t := by
  change ((n.cached.filter (·.1 ≠ txn)).find? (·.1 = t)).map (·.2) = _
  by_cases ht : t = txn
  · simp [ht]
  · have hsame : (n.cached.filter (·.1 ≠ txn)).find? (·.1 = t) = n.cached.find? (·.1 = t) := by
      rw [List.find?_filter]
      congr 1
      funext entry
      by_cases hentry : entry.1 = t <;> simp_all
    rw [hsame, if_neg ht]
    rfl

theorem peek_evicted (txn t : TxnId) :
    (n.evicted txn).peek t = if t = txn then none else n.peek t := by
  have hid := entryIdOf?_evicted (n := n) txn t
  by_cases ht : t = txn
  · rw [if_pos ht] at hid ⊢
    exact peek_of_none hid
  · rw [if_neg ht] at hid ⊢
    rw [peek, entryOf?, hid]
    rfl

theorem ne_nextEntry {id : EntryId} {e : CommandEntry} (he : n.entryAt? id = some e) :
    id ≠ n.nextEntry := by
  intro heq
  subst heq
  exact Nat.lt_irrefl _ (List.getElem?_eq_some_iff.1 he).1

theorem entryAt?_pushEntry_of_some {id : EntryId} {e : CommandEntry} (txn : TxnId)
    (value : Option Command) (he : n.entryAt? id = some e) :
    (n.pushEntry txn value).entryAt? id = some e := by
  rw [entryAt?_pushEntry, if_neg (ne_nextEntry he)]
  exact he

theorem entryAt?_addEntry_of_some {id : EntryId} {e : CommandEntry} (txn : TxnId)
    (he : n.entryAt? id = some e) : (n.addEntry txn).entryAt? id = some e :=
  entryAt?_pushEntry_of_some txn none he

theorem putEntry_self {id : EntryId} {e : CommandEntry} (he : n.entryAt? id = some e)
    (hid : e.id = id) : n.putEntry e = n := by
  obtain ⟨hlt, hget⟩ := List.getElem?_eq_some_iff.1 he
  have hset : n.entries.set e.id.number e = n.entries := by
    rw [hid, ← hget]
    exact List.set_getElem_self hlt
  change { n with entries := n.entries.set e.id.number e } = n
  rw [hset]

theorem safe?_of_mem (hrefs : (n.safes.map (·.ref)).Nodup) {w : SafeCommand} (hw : w ∈ n.safes) :
    n.safe? w.ref = some w := find?_key_of_mem hrefs hw

theorem safe?_putSafe_of_ne {w : SafeCommand} {ref : RefId} (h : ref ≠ w.ref) :
    (n.putSafe w).safe? ref = n.safe? ref := by
  rw [safe?, putSafe, safe?]
  induction n.safes with
  | nil => rfl
  | cons v vs ih =>
    by_cases hv : v.ref = w.ref
    · simp_all [Ne.symm h]
    · by_cases href : v.ref = ref <;> simp_all

theorem putSafe_putSafe {v w : SafeCommand} (h : v.ref = w.ref) :
    (n.putSafe v).putSafe w = n.putSafe w := by
  have hsafes : (n.putSafe v).safes.map (fun u => if u.ref = w.ref then w else u) =
      n.safes.map fun u => if u.ref = w.ref then w else u := by
    rw [putSafe, List.map_map]
    apply List.map_congr_left
    intro u _
    by_cases hu : u.ref = w.ref <;> simp [h, hu]
  exact congrArg (fun safes => { n with safes := safes }) hsafes

theorem removeSafe_putSafe {w : SafeCommand} {ref : RefId} (href : w.ref = ref) :
    (n.putSafe w).removeSafe ref = n.removeSafe ref := by
  have hfilter : (n.safes.map fun v => if v.ref = w.ref then w else v).filter (·.ref ≠ ref) =
      n.safes.filter (·.ref ≠ ref) := by
    induction n.safes with
    | nil => rfl
    | cons v vs ih =>
      by_cases hv : v.ref = ref
      · simp [hv, href] at ih ⊢
        exact ih
      · simp [hv, href] at ih ⊢
        exact ih
  exact congrArg (fun safes => { n with safes := safes }) hfilter

end Node

end TxnDeps
