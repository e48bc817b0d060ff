import TxnDeps.Proofs.Cache.Operations

namespace TxnDeps

/-- All that clients ask for that is not just read. -/
inductive Request where
  | acquire (txn : TxnId)
  | createSafe (txn : TxnId)
  | preExecute (ref : RefId) (policy : AcquirePolicy)
  | initialise (ref : RefId)
  | set (ref : RefId) (c : Command)
  | commit (ref : RefId) (record : CommandUpdate → Step Journal Error Unit)
  | releaseUnchanged (ref : RefId)
  | invalidate (ref : RefId)
  | drop (ref : RefId)
  | takeToken (ref : RefId)
  | openHandle (txn : TxnId)
  | closeHandle (id : EntryId)
  | getExclusive (id : EntryId) (policy : AcquirePolicy)
  | release (id : EntryId) (token : Token) (value : Option Command)
  | abandon (id : EntryId) (token : Token)
  | forget (token : Token)
  | evict (txn : TxnId)
  | journal (step : Step Journal Error Unit)

namespace Request

/-- The step, which answers the token that comes into the hands of the client. -/
def action : Request → Action (Option Token)
  | acquire txn => (fun _ => none) <$> Action.acquire txn
  | createSafe txn => (fun _ => none) <$> Action.createSafe txn
  | preExecute ref policy => (fun _ => none) <$> Action.preExecute ref policy
  | initialise ref => (fun _ => none) <$> Action.initialise ref
  | set ref c => (fun _ => none) <$> Action.set ref c
  | commit ref record => (fun _ => none) <$> Action.commitTo ref record
  | releaseUnchanged ref => (fun _ => none) <$> Action.releaseUnchanged ref
  | invalidate ref => (fun _ => none) <$> Action.invalidate ref
  | drop ref => (fun _ => none) <$> Action.drop ref
  | takeToken ref => Action.takeToken ref
  | openHandle txn => (fun _ => none) <$> Action.openHandle txn
  | closeHandle id => (fun _ => none) <$> Action.closeHandle id
  | getExclusive id policy => (fun granted => some granted.2) <$> Action.getExclusive id policy
  | release id token value => (fun _ => none) <$> Action.release id token value
  | abandon id token => (fun _ => none) <$> Action.abandon id token
  | forget _ => pure none
  | evict txn => (fun _ => none) <$> Action.evict txn
  | journal step => (fun _ => none) <$> Action.attempt (Action.onJournal step)

/-- The token that the client lets go of, whether or not the step succeeds. -/
def token? : Request → Option Token
  | release _ token _ | abandon _ token | forget token => some token
  | _ => none

end Request

def gained : Except Stop (Option Token) → List Token
  | .ok token? => token?.toList
  | .error _ => []

structure Session where
  node : Node
  tokens : List Token

namespace Session

def start (policy : AcquirePolicy) : Session := ⟨.empty policy, []⟩

/-- Tokens cannot be made up or copied: a client that has none cannot ask with it. -/
def next (s : Session) (r : Request) : Session :=
  if ∀ token ∈ r.token?, token ∈ s.tokens then
    let kept := r.token?.elim s.tokens s.tokens.erase
    let (result, n) := r.action.run s.node
    ⟨n, gained result ++ kept⟩
  else s

def run (policy : AcquirePolicy) (requests : List Request) : Session :=
  requests.foldl next (start policy)

end Session

namespace Node.Secure

theorem invariant (tokens : List Token) : Node.Invariant (·.Secure tokens) fun _ => True where
  secure n h := ⟨tokens, h⟩
  traced n tracker h ht := h.withRest n.journal n.handles ht
  entryAdded n txn h hnone := h.addEntry hnone
  safeAdded n id e h he _ := h.addSafe he
  safeRemoved n ref h := h.removeSafe ref
  edited n w c h hw _ _ := h.putSafe hw (w.same_edited (some c)) fun _ ht => ht
  initialised _ _ _ _ := trivial
  granted n w e h hw _ he hfree := by
    have hsame := w.same_acquired e.value e.nextToken
    have hid : e.granted.id = w.entry := (h.entries _ e he).1
    have hput : (n.putEntry e.granted).entryAt? w.entry = some e.granted := by
      rw [entryAt?_putEntry he hid, if_pos rfl]
    exact (h.granted he hfree).given hw hsame rfl hput (decide_eq_true ⟨rfl, rfl⟩)
  spent n w state h hw _ _ := h.putSafe hw (w.same_spent state) nofun
  freed n w e token state h hw he ht haccepts _ := (h.taken hw ht state).freed he haccepts e.value

end Node.Secure

namespace Session

def Secure (s : Session) : Prop := s.node.Secure s.tokens

end Session

end TxnDeps
