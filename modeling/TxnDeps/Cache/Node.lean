import TxnDeps.Cache.Journal
import TxnDeps.Cache.RefTracker
import TxnDeps.Cache.SafeCommand

/-!
The cache of a node: the entries of its commands, the safe commands and handles that refer to them,
and the journal to which commits go. Each operation is one step of the whole; the steps of several
clients may follow each other in any order.
-/

namespace TxnDeps

structure Node where
  policy : AcquirePolicy
  /-- All entries that were ever made; the entry with number `i` stands at place `i`. -/
  entries : List CommandEntry
  cached : List (TxnId × EntryId)
  safes : List SafeCommand
  /-- The entries to which handles are open, once for each handle. -/
  handles : List EntryId
  tracker : RefTracker
  journal : Journal
  deriving DecidableEq

abbrev Action (α : Type) := Step Node Stop α

namespace Node

def empty (policy : AcquirePolicy) : Node := ⟨policy, [], [], [], [], .empty, .empty⟩

def create (config : CacheConfig) : Except ConfigDefect Node :=
  match config.validate with
  | .ok () => .ok (empty config.policy)
  | .error defect => .error defect

def size (n : Node) : Nat := n.cached.length

def isEmpty (n : Node) : Bool := n.cached.isEmpty

def entryIdOf? (n : Node) (txn : TxnId) : Option EntryId :=
  (n.cached.find? (·.1 = txn)).map (·.2)

def entryAt? (n : Node) (id : EntryId) : Option CommandEntry := n.entries[id.number]?

def entryOf? (n : Node) (txn : TxnId) : Option CommandEntry :=
  match n.entryIdOf? txn with
  | some id => n.entryAt? id
  | none => none

def safe? (n : Node) (ref : RefId) : Option SafeCommand := n.safes.find? (·.ref = ref)

def references (n : Node) (id : EntryId) : Nat :=
  n.safes.countP (·.entry = id) + n.handles.count id

def putEntry (n : Node) (e : CommandEntry) : Node :=
  { n with entries := n.entries.set e.id.number e }

def putSafe (n : Node) (w : SafeCommand) : Node :=
  { n with safes := n.safes.map fun v => if v.ref = w.ref then w else v }

def removeSafe (n : Node) (ref : RefId) : Node :=
  { n with safes := n.safes.filter (·.ref ≠ ref) }

end Node

namespace Action

variable {α : Type}

def stop (s : Stop) : Action α := Step.fail s

def misuse (m : Misuse) : Action α := stop (.misused m)

/-- The answer or the failure of a step, which itself does not fail. -/
def attempt {ε : Type} (step : Step Node ε α) : Action (Except ε α) := fun n =>
  match step n with
  | (result, n') => (.ok result, n')

def safe (ref : RefId) : Action SafeCommand := do
  match (← Step.get).safe? ref with
  | some w => pure w
  | none => misuse (.unknownRef ref)

def putSafe (w : SafeCommand) : Action Unit := Step.modify (·.putSafe w)

def onEntry (id : EntryId) (step : Step CommandEntry Stop α) : Action α := fun n =>
  match n.entryAt? id with
  | none => (.error (.misused (.unknownEntry id)), n)
  | some e =>
    match step e with
    | (result, e') => (result, n.putEntry e')

def onJournal {ε : Type} (step : Step Journal ε α) : Step Node ε α := fun n =>
  match step n.journal with
  | (result, journal) => (result, { n with journal := journal })

def entryOf (txn : TxnId) : Action EntryId := do
  let n ← Step.get
  match n.entryIdOf? txn with
  | some id => pure id
  | none =>
    let id : EntryId := ⟨n.entries.length⟩
    Step.set { n with
      entries := n.entries ++ [CacheEntry.create id txn none], cached := n.cached ++ [(txn, id)] }
    pure id

/-- An entry with the given value, which the cache knows nothing of. -/
def makeEntry (txn : TxnId) (value : Option Command) : Action EntryId := do
  let n ← Step.get
  let id : EntryId := ⟨n.entries.length⟩
  Step.set { n with entries := n.entries ++ [CacheEntry.create id txn value] }
  pure id

def openHandle (txn : TxnId) : Action EntryId := do
  let id ← entryOf txn
  Step.modify fun n => { n with handles := id :: n.handles }
  pure id

def shareHandle (id : EntryId) : Action Unit :=
  Step.modify fun n => { n with handles := id :: n.handles }

def findHandle (txn : TxnId) : Action (Option EntryId) := do
  let n ← Step.get
  match n.entryIdOf? txn with
  | some id =>
    shareHandle id
    pure (some id)
  | none => pure none

def closeHandle (id : EntryId) : Action Unit :=
  Step.modify fun n => { n with handles := n.handles.erase id }

def getExclusive (id : EntryId) (policy : AcquirePolicy) : Action (Option Command × Token) :=
  onEntry id (CacheEntry.getExclusive policy)

def release (id : EntryId) (token : Token) (value : Option Command) : Action Unit :=
  onEntry id (CacheEntry.release token value)

def abandon (id : EntryId) (token : Token) : Action Unit := onEntry id (CacheEntry.abandon token)

def createSafe (txn : TxnId) : Action RefId := do
  let id ← entryOf txn
  let n ← Step.get
  let (ref, tracker) := n.tracker.register txn.text
  Step.set { n with tracker := tracker, safes := n.safes ++ [.create ref id txn] }
  pure ref

def bindSafe (id : EntryId) : Action RefId := do
  let n ← Step.get
  match n.entryAt? id with
  | some e =>
    let (ref, tracker) := n.tracker.register e.key.text
    Step.set { n with tracker := tracker, safes := n.safes ++ [.create ref id e.key] }
    pure ref
  | none => misuse (.unknownEntry id)

def preExecute (ref : RefId) (policy : AcquirePolicy) : Action Unit := do
  let w ← safe ref
  Step.ofExcept w.checkUnused
  let (value, token) ← getExclusive w.entry policy
  putSafe (w.acquired value token)
  Step.modify fun n => { n with tracker := n.tracker.trace ref "acquired" }

def initialise (ref : RefId) : Action Command := do
  let w ← safe ref
  Step.ofExcept (w.checkActive .initialise)
  putSafe { w with current := some w.initialised }
  pure w.initialised

def current (ref : RefId) : Action (Option Command) := do
  let w ← safe ref
  Step.ofExcept (w.checkValid .current)
  pure w.current

def snapshot (ref : RefId) : Action (Option Command) := do
  let w ← safe ref
  Step.ofExcept (w.checkValid .snapshot)
  pure w.snapshot

def global (ref : RefId) : Action EntryId := do
  let w ← safe ref
  Step.ofExcept (w.checkValid .global)
  pure w.entry

def set (ref : RefId) (c : Command) : Action Unit := do
  let w ← safe ref
  Step.ofExcept (w.checkActive .set)
  putSafe { w with current := some c }

def update (ref : RefId) : Action CommandUpdate := do
  let w ← safe ref
  Step.ofExcept (w.checkActive .update)
  pure w.toUpdate

def takeToken (ref : RefId) : Action (Option Token) := do
  let w ← safe ref
  Step.ofExcept (w.checkValid .takeToken)
  putSafe { w with token := none }
  pure w.token

/-- Gives the entry back if the safe command still has the token; whether that works does not
matter. -/
def giveBack (w : SafeCommand) : Action Unit :=
  match w.token with
  | some token => do
    let _ ← attempt (abandon w.entry token)
    pure ()
  | none => pure ()

def invalidate (ref : RefId) : Action Unit := do
  let w ← safe ref
  giveBack w
  putSafe { w with token := none, state := .invalidated }
  Step.modify fun n => { n with tracker := n.tracker.release ref }

/-- Lets go of the safe command. The tracker goes on to list it unless it was invalidated. -/
def drop (ref : RefId) : Action Unit := do
  let w ← safe ref
  giveBack w
  Step.modify (·.removeSafe ref)

/-- A safe command that has taken the entry, by the policy of the cache. A call that would wait
leaves no trace. -/
def acquire (txn : TxnId) : Action RefId := fun n =>
  let take : Action RefId := do
    let ref ← createSafe txn
    match ← attempt (preExecute ref n.policy) with
    | .ok () => pure ref
    | .error s =>
      invalidate ref
      drop ref
      stop s
  match take n with
  | (.error .blocked, _) => (.error .blocked, n)
  | result => result

/-- Records the update of a safe command, gives the entry back with the new command, and
invalidates the safe command. If the update is not recorded, the entry keeps its command. The
journal may do with an update what it will. -/
def commitTo (ref : RefId) (record : CommandUpdate → Step Journal Error Unit) :
    Action CommandUpdate := do
  let u ← update ref
  let entry ← global ref
  match ← takeToken ref with
  | none =>
    invalidate ref
    stop (.failed (.argument (.accessGone u.txn)))
  | some token =>
    -- Others may act before the next two steps and between them. They find the entry held, with its
    -- old value, and cannot keep the token from giving it back: `Session.commit_between`.
    match ← attempt (onJournal (record u)) with
    | .error e =>
      let abandoned ← attempt (abandon entry token)
      invalidate ref
      Step.ofExcept abandoned
      stop (.failed e)
    | .ok () =>
      let released ← attempt (release entry token u.after)
      invalidate ref
      Step.ofExcept released
      pure u

def commit (ref : RefId) (recorder : Recorder) : Action CommandUpdate :=
  commitTo ref fun u => recorder.record u

def releaseUnchanged (ref : RefId) : Action Unit := do
  let abandoned ← match ← takeToken ref with
    | some token => do
      let entry ← global ref
      attempt (abandon entry token)
    | none => pure (.ok ())
  invalidate ref
  Step.ofExcept abandoned

/-- Forgets the entry of the transaction, if nothing refers to it and nobody holds it. -/
def evict (txn : TxnId) : Action Bool := do
  let n ← Step.get
  match n.entryOf? txn with
  | none => pure false
  | some e =>
    if n.references e.id = 0 ∧ !e.isHeld then
      Step.set { n with cached := n.cached.filter (·.1 ≠ txn) }
      pure true
    else pure false

end Action

end TxnDeps
