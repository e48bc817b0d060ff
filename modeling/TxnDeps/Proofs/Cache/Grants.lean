import Mathlib.Data.List.Nodup
import TxnDeps.Cache.Entry

namespace TxnDeps

variable {κ ν : Type}

namespace CacheEntry

def freed (e : CacheEntry κ ν) (value : ν) : CacheEntry κ ν :=
  { e with value := value, holder := none }

def granted (e : CacheEntry κ ν) : CacheEntry κ ν :=
  { e with holder := some (e.grants + 1), grants := e.grants + 1 }

def nextToken (e : CacheEntry κ ν) : Token := ⟨e.id, e.grants + 1⟩

theorem accepts_eq_true_iff {e : CacheEntry κ ν} {token : Token} :
    e.accepts token = true ↔ token.entry = e.id ∧ e.holder = some token.grant :=
  decide_eq_true_iff

theorem eq_of_accepts {e : CacheEntry κ ν} {token token' : Token} (h : e.accepts token = true)
    (h' : e.accepts token' = true) : token = token' := by
  obtain ⟨hentry, hholder⟩ := accepts_eq_true_iff.1 h
  obtain ⟨hentry', hholder'⟩ := accepts_eq_true_iff.1 h'
  have hgrant := Option.some.inj (hholder.symm.trans hholder')
  cases token
  cases token'
  simp_all

variable [Outline κ] {e : CacheEntry κ ν} {token : Token}

theorem run_getExclusive_of_free (policy : AcquirePolicy) (h : e.holder = none) :
    (getExclusive policy).run e = (.ok (e.value, e.nextToken), e.granted) := by
  change getExclusive policy e = _
  rw [getExclusive, h]
  rfl

theorem run_getExclusive_of_held {holder : Nat} (policy : AcquirePolicy)
    (h : e.holder = some holder) :
    (getExclusive policy).run e = (.error (e.refusal holder policy), e) := by
  change getExclusive policy e = _
  rw [getExclusive, h]

theorem run_release_of_accepts (h : e.accepts token = true) (value : ν) :
    (release token value).run e = (.ok (), e.freed value) := by
  change release token value e = _
  rw [release, if_pos h]
  rfl

theorem run_release_of_stale (h : ¬e.accepts token = true) (value : ν) :
    (release token value).run e = (.error (e.stale token), e) := by
  change release token value e = _
  rw [release, if_neg h]

theorem run_abandon_of_accepts (h : e.accepts token = true) :
    (abandon token).run e = (.ok (), e.freed e.value) := by
  change abandon token e = _
  rw [abandon, if_pos h]
  rfl

theorem run_abandon_of_stale (h : ¬e.accepts token = true) :
    (abandon token).run e = (.error (e.stale token), e) := by
  change abandon token e = _
  rw [abandon, if_neg h]

end CacheEntry

/-- The caller may come with any token. -/
inductive EntryCall (ν : Type) where
  | acquire (policy : AcquirePolicy)
  | release (token : Token) (value : ν)
  | abandon (token : Token)

inductive EntryEvent (ν : Type) where
  | created (entry : EntryId) (value : ν)
  | granted (value : ν) (token : Token)
  | released (token : Token) (value : ν)
  | abandoned (token : Token)

namespace EntryCall

variable [Outline κ]

def step : EntryCall ν → Step (CacheEntry κ ν) Stop (EntryEvent ν)
  | acquire policy => do
    let (value, token) ← CacheEntry.getExclusive policy
    pure (.granted value token)
  | release token value => do
    CacheEntry.release token value
    pure (.released token value)
  | abandon token => do
    CacheEntry.abandon token
    pure (.abandoned token)

theorem step_cases (c : EntryCall ν) (e : CacheEntry κ ν) :
    (∃ s, c.step.run e = (.error s, e)) ∨
      (e.holder = none ∧ c.step.run e = (.ok (.granted e.value e.nextToken), e.granted)) ∨
      (∃ token value, e.accepts token = true ∧
        c.step.run e = (.ok (.released token value), e.freed value)) ∨
      ∃ token, e.accepts token = true ∧
        c.step.run e = (.ok (.abandoned token), e.freed e.value) := by
  cases c with
  | acquire policy =>
    cases h : e.holder with
    | none =>
      exact .inr (.inl ⟨rfl, Step.run_bind_of_ok (CacheEntry.run_getExclusive_of_free policy h)⟩)
    | some holder =>
      exact .inl ⟨_, Step.run_bind_of_error (CacheEntry.run_getExclusive_of_held policy h)⟩
  | release token value =>
    by_cases h : e.accepts token = true
    · refine .inr (.inr (.inl ⟨token, value, h, ?_⟩))
      exact Step.run_bind_of_ok (CacheEntry.run_release_of_accepts h value)
    · exact .inl ⟨_, Step.run_bind_of_error (CacheEntry.run_release_of_stale h value)⟩
  | abandon token =>
    by_cases h : e.accepts token = true
    · refine .inr (.inr (.inr ⟨token, h, ?_⟩))
      exact Step.run_bind_of_ok (CacheEntry.run_abandon_of_accepts h)
    · exact .inl ⟨_, Step.run_bind_of_error (CacheEntry.run_abandon_of_stale h)⟩

end EntryCall

namespace EntryEvent

def entry : EntryEvent ν → EntryId
  | created entry _ => entry
  | granted _ token | released token _ | abandoned token => token.entry

def issued? : EntryEvent ν → Option Token
  | granted _ token => some token
  | _ => none

def stored? (id : EntryId) : EntryEvent ν → Option ν
  | created entry value => if entry = id then some value else none
  | released token value => if token.entry = id then some value else none
  | _ => none

def issued (events : List (EntryEvent ν)) : List Token := events.filterMap issued?

def grantsOf (id : EntryId) (events : List (EntryEvent ν)) : List Nat :=
  ((issued events).filter (·.entry = id)).map (·.grant)

/-- The value that was last given back to the entry, or else the one that it began with. -/
def lastStored (id : EntryId) (events : List (EntryEvent ν)) : Option ν :=
  (events.filterMap (stored? id)).getLast?

variable {id : EntryId} {events : List (EntryEvent ν)} {event : EntryEvent ν}

theorem issued_concat : issued (events ++ [event]) = issued events ++ event.issued?.toList := by
  cases h : event.issued? <;> simp [issued, h]

theorem grantsOf_concat : grantsOf id (events ++ [event]) = grantsOf id events ++
    ((event.issued?.toList).filter (·.entry = id)).map (·.grant) := by
  rw [grantsOf, issued_concat, List.filter_append, List.map_append, grantsOf]

theorem lastStored_concat : lastStored id (events ++ [event]) =
    (event.stored? id).or (lastStored id events) := by
  cases h : event.stored? id <;> simp [lastStored, h]

theorem views_concat_of_ne (events : List (EntryEvent ν)) (h : event.entry ≠ id) :
    grantsOf id (events ++ [event]) = grantsOf id events ∧
      lastStored id (events ++ [event]) = lastStored id events := by
  rw [grantsOf_concat, lastStored_concat]
  cases event <;> simp_all [entry, issued?, stored?]

theorem mem_grantsOf_iff {grant : Nat} :
    grant ∈ grantsOf id events ↔ ⟨id, grant⟩ ∈ issued events := by
  simp only [grantsOf, List.mem_map, List.mem_filter, decide_eq_true_iff]
  constructor
  · rintro ⟨⟨entry, grant⟩, ⟨hmem, rfl⟩, rfl⟩
    exact hmem
  · exact fun hmem => ⟨_, ⟨hmem, rfl⟩, rfl⟩

end EntryEvent

open EntryEvent (issued grantsOf lastStored)

namespace CacheEntry

/-- The entry is as the events have left it. -/
structure Follows (e : CacheEntry κ ν) (events : List (EntryEvent ν)) : Prop where
  holder : ∀ grant ∈ e.holder, grant = e.grants ∧ 0 < grant
  numbered : grantsOf e.id events = List.range' 1 e.grants
  stored : lastStored e.id events = some e.value

namespace Follows

variable {e : CacheEntry κ ν} {events : List (EntryEvent ν)}

theorem created {id : EntryId} (key : κ) (value : ν)
    (h : ∀ token ∈ issued events, token.entry ≠ id) :
    (create id key value).Follows (events ++ [.created id value]) where
  holder := nofun
  numbered := by
    have hnone : (issued events).filter (·.entry = id) = [] :=
      List.filter_eq_nil_iff.2 fun token hmem => by simpa using h token hmem
    rw [EntryEvent.grantsOf_concat, create, grantsOf, hnone]
    rfl
  stored := by
    rw [EntryEvent.lastStored_concat, create, EntryEvent.stored?, if_pos rfl]
    rfl

theorem granted (h : e.Follows events) :
    e.granted.Follows (events ++ [.granted e.value e.nextToken]) where
  holder := by
    rintro grant hgrant
    cases hgrant
    exact ⟨rfl, Nat.succ_pos _⟩
  numbered := by
    have hnew : (EntryEvent.granted e.value e.nextToken).issued?.toList.filter (·.entry = e.id) =
        [e.nextToken] := List.filter_cons_of_pos (decide_eq_true rfl)
    change grantsOf e.id _ = List.range' 1 (e.grants + 1)
    rw [EntryEvent.grantsOf_concat, h.numbered, hnew, List.range'_concat, Nat.one_mul,
      Nat.add_comm 1]
    rfl
  stored := by
    rw [EntryEvent.lastStored_concat]
    exact h.stored

theorem released (h : e.Follows events) {token : Token} (hentry : token.entry = e.id) (value : ν) :
    (e.freed value).Follows (events ++ [.released token value]) where
  holder := nofun
  numbered := by
    rw [EntryEvent.grantsOf_concat]
    exact (List.append_nil _).trans h.numbered
  stored := by
    rw [EntryEvent.lastStored_concat, EntryEvent.stored?, freed, if_pos hentry]
    rfl

theorem abandoned (h : e.Follows events) (token : Token) :
    (e.freed e.value).Follows (events ++ [.abandoned token]) where
  holder := nofun
  numbered := by
    rw [EntryEvent.grantsOf_concat]
    exact (List.append_nil _).trans h.numbered
  stored := by
    rw [EntryEvent.lastStored_concat]
    exact h.stored

theorem other (h : e.Follows events) {event : EntryEvent ν} (hne : event.entry ≠ e.id) :
    e.Follows (events ++ [event]) := by
  obtain ⟨hgrants, hvalue⟩ := EntryEvent.views_concat_of_ne events hne
  exact ⟨h.holder, hgrants.trans h.numbered, hvalue.trans h.stored⟩

/-- Of the tokens that were ever issued, an entry accepts that of its latest grant at most. -/
theorem filter_accepts (h : e.Follows events) (hdistinct : (issued events).Nodup) :
    (issued events).filter e.accepts = e.holder.toList.map (⟨e.id, ·⟩) := by
  cases hholder : e.holder with
  | none =>
    apply List.filter_eq_nil_iff.2
    intro token _ haccepts
    rw [accepts_eq_true_iff, hholder] at haccepts
    cases haccepts.2
  | some grant =>
    obtain ⟨rfl, hpos⟩ := h.holder grant hholder
    have hmem : (⟨e.id, e.grants⟩ : Token) ∈ issued events := by
      rw [← EntryEvent.mem_grantsOf_iff, h.numbered, List.mem_range'_1]
      omega
    have haccepts : ∀ token, e.accepts token = (token == ⟨e.id, e.grants⟩) := by
      intro token
      rw [Bool.eq_iff_iff, accepts_eq_true_iff, hholder, beq_iff_eq]
      cases token
      simp [eq_comm]
    rw [List.filter_congr fun token _ => haccepts token, List.filter_beq,
      List.count_eq_one_of_mem hdistinct hmem]
    rfl

end Follows

variable [Outline κ]

/-- Whoever has the entry was granted it last, and alone can give it back. -/
structure Exclusive (e : CacheEntry κ ν) (events : List (EntryEvent ν)) : Prop where
  holder : e.holder = none ∨
    ∃ grant, e.holder = some grant ∧ (grantsOf e.id events).getLast? = some grant
  numbered : grantsOf e.id events = List.range' 1 e.grants
  acquired : e.holder = none → ∀ policy, ∃ value, lastStored e.id events = some value ∧
    (getExclusive policy).run e = (.ok (value, ⟨e.id, e.grants + 1⟩),
      { e with holder := some (e.grants + 1), grants := e.grants + 1 })
  held : ∀ holder ∈ e.holder, ∀ policy,
    (getExclusive policy).run e = (.error (e.refusal holder policy), e)
  accepted : ∀ token : Token, token.entry = e.id ∧ e.holder = some token.grant →
    (∀ value, (release token value).run e = (.ok (), { e with value := value, holder := none })) ∧
      (abandon token).run e = (.ok (), { e with holder := none })
  stale : ∀ token : Token, ¬(token.entry = e.id ∧ e.holder = some token.grant) →
    (∀ value, (release token value).run e = (.error (e.stale token), e)) ∧
      (abandon token).run e = (.error (e.stale token), e)
  unique : (issued events).filter e.accepts = e.holder.toList.map (⟨e.id, ·⟩)

theorem Follows.exclusive {e : CacheEntry κ ν} {events : List (EntryEvent ν)}
    (h : e.Follows events) (hdistinct : (issued events).Nodup) : e.Exclusive events where
  holder := by
    cases hholder : e.holder with
    | none => exact .inl rfl
    | some grant =>
      obtain ⟨rfl, hpos⟩ := h.holder grant hholder
      refine .inr ⟨e.grants, rfl, ?_⟩
      rw [h.numbered, List.getLast?_range', if_neg (Nat.ne_of_gt hpos)]
      congr 1
      omega
  numbered := h.numbered
  acquired hfree policy := ⟨e.value, h.stored, run_getExclusive_of_free policy hfree⟩
  held holder hholder policy := run_getExclusive_of_held policy hholder
  accepted token htoken := by
    have haccepts := accepts_eq_true_iff.2 htoken
    exact ⟨run_release_of_accepts haccepts, run_abandon_of_accepts haccepts⟩
  stale token htoken := by
    have hstale := mt accepts_eq_true_iff.1 htoken
    exact ⟨run_release_of_stale hstale, run_abandon_of_stale hstale⟩
  unique := h.filter_accepts hdistinct

end CacheEntry

structure EntryPool (κ ν : Type) where
  entries : List (CacheEntry κ ν)
  events : List (EntryEvent ν)

inductive PoolCall (κ ν : Type) where
  | create (key : κ) (value : ν)
  | call (id : EntryId) (c : EntryCall ν)

namespace EntryPool

def empty : EntryPool κ ν := ⟨[], []⟩

/-- Each entry is as the events have left it, and no token was issued twice. -/
structure Sound (pool : EntryPool κ ν) : Prop where
  entries : ∀ (i : Nat) (e : CacheEntry κ ν), pool.entries[i]? = some e →
    e.id = ⟨i⟩ ∧ e.Follows pool.events
  known : ∀ token ∈ issued pool.events, token.entry.number < pool.entries.length
  distinct : (issued pool.events).Nodup

namespace Sound

theorem empty : (empty : EntryPool κ ν).Sound := ⟨nofun, nofun, .nil⟩

variable {pool : EntryPool κ ν} {id : EntryId} {e e' : CacheEntry κ ν} {event : EntryEvent ν}

theorem create (h : pool.Sound) (hid : id.number = pool.entries.length) (key : κ) (value : ν) :
    Sound ⟨pool.entries ++ [.create id key value], pool.events ++ [.created id value]⟩ := by
  have hissued : issued (pool.events ++ [.created id value]) = issued pool.events := by
    rw [EntryEvent.issued_concat]
    exact List.append_nil _
  refine ⟨fun i e he => ?_, ?_, ?_⟩
  · rw [List.getElem?_append] at he
    split at he
    · next hlt =>
      obtain ⟨hnumber, hfollows⟩ := h.entries i e he
      refine ⟨hnumber, hfollows.other ?_⟩
      rw [hnumber]
      rintro rfl
      exact Nat.ne_of_lt hlt hid
    · next hle =>
      rw [List.getElem?_singleton] at he
      split at he
      · next hi =>
        cases he
        have hplace : id = ⟨i⟩ := by
          rw [show i = id.number by omega]
        refine ⟨hplace, .created key value fun token htoken heq => ?_⟩
        have hknown := h.known token htoken
        rw [heq, hid] at hknown
        exact Nat.lt_irrefl _ hknown
      · cases he
  · rw [hissued]
    intro token htoken
    rw [List.length_append]
    exact Nat.lt_add_right 1 (h.known token htoken)
  · rw [hissued]
    exact h.distinct

theorem put (h : pool.Sound) (he : pool.entries[id.number]? = some e) (hid : e'.id = e.id)
    (hentry : event.entry = e.id) (hfollows : e'.Follows (pool.events ++ [event]))
    (hnew : ∀ token ∈ event.issued?, token.entry = e.id ∧ token ∉ issued pool.events) :
    Sound ⟨pool.entries.set id.number e', pool.events ++ [event]⟩ := by
  obtain ⟨hnumber, -⟩ := h.entries id.number e he
  have hlt : id.number < pool.entries.length := (List.getElem?_eq_some_iff.1 he).1
  refine ⟨fun i e₁ he₁ => ?_, ?_, ?_⟩
  · rw [List.getElem?_set] at he₁
    by_cases hi : id.number = i
    · subst hi
      rw [if_pos rfl, if_pos hlt] at he₁
      cases he₁
      exact ⟨hid.trans hnumber, hfollows⟩
    · rw [if_neg hi] at he₁
      obtain ⟨hnumber₁, hfollows₁⟩ := h.entries i e₁ he₁
      refine ⟨hnumber₁, hfollows₁.other ?_⟩
      rw [hentry, hnumber, hnumber₁]
      simpa using hi
  · intro token htoken
    rw [EntryEvent.issued_concat, List.mem_append, Option.mem_toList] at htoken
    rw [List.length_set]
    obtain htoken | htoken := htoken
    · exact h.known token htoken
    · rw [(hnew token htoken).1, hnumber]
      exact hlt
  · rw [EntryEvent.issued_concat]
    apply h.distinct.append
    · cases event.issued? <;> simp
    · intro token htoken hlast
      exact (hnew token (Option.mem_toList.1 hlast)).2 htoken

end Sound

variable [Outline κ]

def next (pool : EntryPool κ ν) : PoolCall κ ν → EntryPool κ ν
  | .create key value =>
    let id : EntryId := ⟨pool.entries.length⟩
    ⟨pool.entries ++ [.create id key value], pool.events ++ [.created id value]⟩
  | .call id c =>
    match pool.entries[id.number]? with
    | none => pool
    | some e =>
      match c.step.run e with
      | (.ok event, e') => ⟨pool.entries.set id.number e', pool.events ++ [event]⟩
      | (.error _, e') => ⟨pool.entries.set id.number e', pool.events⟩

def run (calls : List (PoolCall κ ν)) : EntryPool κ ν := calls.foldl next empty

theorem sound_next {pool : EntryPool κ ν} (h : pool.Sound) (call : PoolCall κ ν) :
    (pool.next call).Sound := by
  cases call with
  | create key value => exact h.create rfl key value
  | call id c =>
    rw [next]
    cases he : pool.entries[id.number]? with
    | none => exact h
    | some e =>
      obtain ⟨hid, hfollows⟩ := h.entries id.number e he
      obtain ⟨s, hrun⟩ | ⟨hfree, hrun⟩ | ⟨token, value, haccepts, hrun⟩ | ⟨token, haccepts, hrun⟩ :=
        c.step_cases e
      · have hset : pool.entries.set id.number e = pool.entries := by
          obtain ⟨hlt, rfl⟩ := List.getElem?_eq_some_iff.1 he
          exact List.set_getElem_self hlt
        simp only [hrun, hset]
        exact h
      · simp only [hrun]
        refine h.put he rfl rfl hfollows.granted fun token htoken => ?_
        cases htoken
        refine ⟨rfl, fun hmem => ?_⟩
        rw [CacheEntry.nextToken, ← EntryEvent.mem_grantsOf_iff, hfollows.numbered,
          List.mem_range'_1] at hmem
        omega
      · simp only [hrun]
        have hentry := (CacheEntry.accepts_eq_true_iff.1 haccepts).1
        exact h.put he rfl hentry (hfollows.released hentry value) nofun
      · simp only [hrun]
        have hentry := (CacheEntry.accepts_eq_true_iff.1 haccepts).1
        exact h.put he rfl hentry (hfollows.abandoned token) nofun

theorem sound_run (calls : List (PoolCall κ ν)) : (run calls).Sound := by
  have hgeneral : ∀ pool : EntryPool κ ν, pool.Sound → (calls.foldl next pool).Sound := by
    induction calls with
    | nil => exact fun _ h => h
    | cons call calls ih => exact fun pool h => ih _ (sound_next h call)
  exact hgeneral empty .empty

/-- However entries are called, each grant has a token of its own, and each entry is exclusive to
its latest grant. -/
theorem exclusive_run (calls : List (PoolCall κ ν)) :
    (issued (run calls).events).Nodup ∧
      ∀ e ∈ (run calls).entries, e.Exclusive (run calls).events := by
  have h := sound_run calls
  refine ⟨h.distinct, fun e he => ?_⟩
  obtain ⟨i, hi⟩ := List.mem_iff_getElem?.1 he
  exact (h.entries i e hi).2.exclusive h.distinct

/-- A token of another entry with the number of the grant, one that was used, and one that is forged
change nothing. -/
example :
    let calls : List (PoolCall Nat Nat) := [.create 0 10, .create 1 20, .call ⟨0⟩ (.acquire .block),
      .call ⟨1⟩ (.acquire .block), .call ⟨0⟩ (.release ⟨⟨1⟩, 1⟩ 11),
      .call ⟨1⟩ (.release ⟨⟨1⟩, 1⟩ 21), .call ⟨1⟩ (.acquire .failFast),
      .call ⟨1⟩ (.release ⟨⟨1⟩, 1⟩ 22), .call ⟨1⟩ (.abandon ⟨⟨1⟩, 3⟩)]
    (run calls).entries = [⟨⟨0⟩, 0, 10, some 1, 1⟩, ⟨⟨1⟩, 1, 21, some 2, 2⟩] := by
  decide

end EntryPool

end TxnDeps
