import TxnDeps.Cache.Stop

namespace TxnDeps

def RefId.text (ref : RefId) : String := s!"ref#{ref.number}"

structure Tracked where
  ref : RefId
  label : String
  trail : List String
  deriving DecidableEq

/-- `live` is in the order of registration. -/
structure RefTracker where
  next : Nat
  live : List Tracked
  deriving DecidableEq

namespace RefTracker

def empty : RefTracker := ⟨1, []⟩

instance : Inhabited RefTracker := ⟨empty⟩

def register (t : RefTracker) (label : String) : RefId × RefTracker :=
  (⟨t.next⟩, ⟨t.next + 1, t.live ++ [⟨⟨t.next⟩, label, ["created"]⟩]⟩)

def trace (t : RefTracker) (ref : RefId) (message : String) : RefTracker :=
  { t with live := t.live.map fun r =>
      if r.ref = ref then { r with trail := r.trail ++ [message] } else r }

def isLive (t : RefTracker) (ref : RefId) : Bool := t.live.any (·.ref = ref)

def release (t : RefTracker) (ref : RefId) : RefTracker :=
  { t with live := t.live.filter (·.ref ≠ ref) }

def liveRefs (t : RefTracker) : List (RefId × String) := t.live.map fun r => (r.ref, r.label)

def find? (t : RefTracker) (ref : RefId) : Option Tracked := t.live.find? (·.ref = ref)

def trail? (t : RefTracker) (ref : RefId) : Option (List String) := (t.find? ref).map (·.trail)

def leaks (t : RefTracker) (refs : List RefId) : List Tracked := refs.filterMap t.find?

def report (name : RefId → String) (leaks : List Tracked) : String :=
  let line (r : Tracked) := name r.ref ++ " (" ++ r.label ++ "): " ++ " -> ".intercalate r.trail
  s!"{leaks.length} safe command(s) never invalidated:\n" ++ "\n".intercalate (leaks.map line)

def assertReleased (t : RefTracker) (refs : List RefId) : Except String Unit :=
  match t.leaks refs with
  | [] => .ok ()
  | leaks => .error (report RefId.text leaks)

end RefTracker

end TxnDeps
