import Mathlib.Data.List.Induction
import TxnDeps.Proofs.Cache.Turns

namespace TxnDeps

/-- The safe commands that were seen so far, in the order in which they were made and each as it was
seen last, once the given ones are seen. -/
def SafeCommand.noted (roll safes : List SafeCommand) : List SafeCommand :=
  (roll.map fun w => (safes.find? (·.ref = w.ref)).getD w) ++
    safes.filter (·.ref ∉ roll.map (·.ref))

namespace SafeCommand

variable {roll safes : List SafeCommand}

theorem ref_ne_of_lt {v w : SafeCommand} (h : v.ref.number < w.ref.number) : v.ref ≠ w.ref := by
  intro heq
  rw [heq] at h
  exact Nat.lt_irrefl _ h

theorem eq_of_ascending (h : roll.Pairwise fun v w => v.ref.number < w.ref.number)
    {v w : SafeCommand} (hv : v ∈ roll) (hw : w ∈ roll) (href : v.ref = w.ref) : v = w := by
  have hnodup : (roll.map (·.ref)).Nodup := List.pairwise_map.2 (h.imp ref_ne_of_lt)
  exact List.inj_on_of_nodup_map hnodup hv hw href

theorem filter_unseen_eq_nil (hseen : ∀ w ∈ safes, w.ref ∈ roll.map (·.ref)) :
    safes.filter (·.ref ∉ roll.map (·.ref)) = [] :=
  List.filter_eq_nil_iff.2 fun w hw hnew => of_decide_eq_true hnew (hseen w hw)

theorem noted_eq_map (h : roll.Pairwise fun v w => v.ref.number < w.ref.number)
    {f : SafeCommand → SafeCommand} (href : ∀ v, (f v).ref = v.ref)
    (hseen : ∀ w ∈ safes, ∃ v ∈ roll, f v = w) (hchanged : ∀ v ∈ roll, f v ≠ v → f v ∈ safes) :
    noted roll safes = roll.map f := by
  have hold : ∀ v ∈ roll, (safes.find? (·.ref = v.ref)).getD v = f v := by
    intro v hv
    cases hfind : safes.find? (·.ref = v.ref) with
    | none =>
      by_contra hne
      have hnone := List.find?_eq_none.1 hfind (f v) (hchanged v hv (Ne.symm hne))
      exact hnone (decide_eq_true (href v))
    | some w =>
      obtain ⟨u, hu, rfl⟩ := hseen w (List.mem_of_find?_eq_some hfind)
      have hsame : (f u).ref = v.ref := by simpa using List.find?_some hfind
      exact congrArg f (eq_of_ascending h hu hv ((href u).symm.trans hsame))
  have hknown : ∀ w ∈ safes, w.ref ∈ roll.map (·.ref) := by
    intro w hw
    obtain ⟨u, hu, rfl⟩ := hseen w hw
    exact List.mem_map.2 ⟨u, hu, (href u).symm⟩
  rw [noted, filter_unseen_eq_nil hknown, List.append_nil]
  exact List.map_congr_left hold

/-- What stands for the safe command after another one was put in place of all of that number. -/
def replacedBy (v w : SafeCommand) : SafeCommand := if v.ref = w.ref then w else v

theorem ref_replacedBy (v w : SafeCommand) : (v.replacedBy w).ref = v.ref := by
  by_cases hv : v.ref = w.ref
  · rw [replacedBy, if_pos hv, hv]
  · rw [replacedBy, if_neg hv]

section Replaced

variable {n : Node} {w w' : SafeCommand}

theorem replacedBy_cases (h : roll.Pairwise fun v w => v.ref.number < w.ref.number) (hw : w ∈ roll)
    (hsame : w.Same w') {v : SafeCommand} (hv : v ∈ roll) :
    v = w ∧ v.replacedBy w' = w' ∨ v.ref ≠ w.ref ∧ v.replacedBy w' = v := by
  by_cases heq : v.ref = w.ref
  · exact .inl ⟨eq_of_ascending h hv hw heq, if_pos (heq.trans hsame.ref.symm)⟩
  · exact .inr ⟨heq, if_neg fun heq' => heq (heq'.trans hsame.ref)⟩

theorem noted_putSafe (h : roll.Pairwise fun v w => v.ref.number < w.ref.number)
    (hseen : ∀ w ∈ n.safes, w ∈ roll) (hw : w ∈ n.safes) (hsame : w.Same w') :
    noted roll (n.putSafe w').safes = roll.map (·.replacedBy w') := by
  refine noted_eq_map h (fun v => v.ref_replacedBy w') (fun u hu => ?_) fun v hv hne => ?_
  · obtain ⟨v, hv, hplace⟩ := List.mem_map.1 hu
    exact ⟨v, hseen v hv, hplace⟩
  · obtain ⟨rfl, -⟩ | ⟨-, hstays⟩ := replacedBy_cases h (hseen w hw) hsame hv
    · exact List.mem_map.2 ⟨v, hw, rfl⟩
    · exact absurd hstays hne

end Replaced

theorem noted_concat (h : roll.Pairwise fun v w => v.ref.number < w.ref.number)
    (hseen : ∀ w ∈ safes, w ∈ roll) {w : SafeCommand} (hnew : ∀ v ∈ roll, v.ref ≠ w.ref) :
    noted roll (safes ++ [w]) = roll ++ [w] := by
  have hold : ∀ v ∈ roll, ((safes ++ [w]).find? (·.ref = v.ref)).getD v = v := by
    intro v hv
    cases hfind : (safes ++ [w]).find? (·.ref = v.ref) with
    | none => rfl
    | some u =>
      have hsame : u.ref = v.ref := by simpa using List.find?_some hfind
      obtain hu | hu := List.mem_append.1 (List.mem_of_find?_eq_some hfind)
      · exact eq_of_ascending h (hseen u hu) hv hsame
      · rw [List.mem_singleton.1 hu] at hsame
        exact absurd hsame.symm (hnew v hv)
  have hlast : [w].filter (·.ref ∉ roll.map (·.ref)) = [w] := by
    refine List.filter_cons_of_pos (decide_eq_true fun hmem => ?_)
    obtain ⟨v, hv, href⟩ := List.mem_map.1 hmem
    exact hnew v hv href
  rw [noted, List.map_congr_left hold, List.map_id', List.filter_append, hlast,
    filter_unseen_eq_nil fun u hu => List.mem_map_of_mem (hseen u hu), List.nil_append]

/-- Those that are there count as they are now, all others as they were. -/
theorem mem_noted_iff (h : (safes.map (·.ref)).Nodup) {w : SafeCommand} :
    w ∈ noted roll safes ↔ w ∈ safes ∨ w ∈ roll ∧ ∀ v ∈ safes, v.ref ≠ w.ref := by
  have hnone : ∀ v : SafeCommand, safes.find? (·.ref = v.ref) = none ↔
      ∀ u ∈ safes, u.ref ≠ v.ref := by
    intro v
    simp only [List.find?_eq_none, decide_eq_true_eq, ne_eq]
  rw [noted, List.mem_append, List.mem_map, List.mem_filter]
  constructor
  · rintro (⟨v, hv, rfl⟩ | ⟨hw, -⟩)
    · cases hfind : safes.find? (·.ref = v.ref) with
      | none => exact .inr ⟨hv, (hnone v).1 hfind⟩
      | some u => exact .inl (List.mem_of_find?_eq_some hfind)
    · exact .inl hw
  · rintro (hw | ⟨hw, hgone⟩)
    · by_cases hknown : w.ref ∈ roll.map (·.ref)
      · obtain ⟨v, hv, href⟩ := List.mem_map.1 hknown
        refine .inl ⟨v, hv, ?_⟩
        rw [href, find?_key_of_mem h hw]
        rfl
      · exact .inr ⟨hw, decide_eq_true hknown⟩
    · refine .inl ⟨w, hw, ?_⟩
      rw [(hnone w).2 hgone]
      rfl

end SafeCommand

/-- A safe command is listed until it is invalidated. -/
def SafeCommand.shown (taken : List RefId) (w : SafeCommand) : Option Tracked :=
  if w.state = .invalidated then none else some (w.record taken)

namespace SafeCommand

variable {w : SafeCommand} {taken : List RefId} {r : Tracked}

theorem shown_eq_some_iff :
    w.shown taken = some r ↔ w.state ≠ .invalidated ∧ w.record taken = r := by
  rw [shown]
  split <;> simp_all

theorem record_congr {taken' : List RefId} (h : w.ref ∈ taken ↔ w.ref ∈ taken') :
    w.record taken = w.record taken' := by
  simp only [record, h]

theorem shown_congr {taken' : List RefId} (h : w.ref ∈ taken ↔ w.ref ∈ taken') :
    w.shown taken = w.shown taken' := by
  rw [shown, shown, record_congr h]

theorem filterMap_shown (roll : List SafeCommand) (taken : List RefId) :
    roll.filterMap (·.shown taken) =
      (roll.filter (·.state ≠ .invalidated)).map (·.record taken) := by
  induction roll with
  | nil => rfl
  | cons w ws ih =>
    by_cases hw : w.state = .invalidated
    · have hnone : w.shown taken = none := if_pos hw
      rw [List.filterMap_cons_none hnone, ih, List.filter_cons_of_neg (by simpa using hw)]
    · have hsome : w.shown taken = some (w.record taken) := if_neg hw
      rw [List.filterMap_cons_some hsome, ih, List.filter_cons_of_pos (by simpa using hw),
        List.map_cons]

theorem shown_of_same {w' : SafeCommand} (hsame : w.Same w') (hstate : w'.state = w.state) :
    w'.shown taken = w.shown taken := by
  rw [shown, shown, record, record, hstate, hsame.ref, hsame.txn]

end SafeCommand

theorem RefTracker.assertReleased_eq_error_iff (t : RefTracker) (refs : List RefId) :
    (∃ message, t.assertReleased refs = .error message) ↔ ∃ r ∈ t.live, r.ref ∈ refs := by
  have hleaks : t.leaks refs = [] ↔ ¬∃ r ∈ t.live, r.ref ∈ refs := by
    rw [leaks, List.filterMap_eq_nil_iff]
    simp only [find?, List.find?_eq_none, decide_eq_true_eq]
    exact ⟨fun h ⟨r, hr, href⟩ => h r.ref href r hr rfl,
      fun h ref href r hr heq => h ⟨r, hr, heq ▸ href⟩⟩
  rw [← not_iff_not, ← hleaks, assertReleased]
  cases t.leaks refs <;> simp

/-- The register of the node lists what was seen and not invalidated. -/
structure Node.Registers (n : Node) (roll : List SafeCommand) (taken : List RefId) : Prop where
  present : ∀ w ∈ n.safes, w ∈ roll
  ascending : roll.Pairwise fun v w => v.ref.number < w.ref.number
  issued : ∀ w ∈ roll, w.ref.number < n.tracker.next
  known : ∀ ref ∈ taken, ref.number < n.tracker.next
  unused : ∀ w ∈ roll, w.state = .unacquired → w.ref ∉ taken
  live : n.tracker.live = roll.filterMap (·.shown taken)

namespace Node.Registers

variable {n n' : Node} {roll : List SafeCommand} {taken : List RefId}

theorem empty (policy : AcquirePolicy) : (Node.empty policy).Registers [] [] where
  present _ hw := absurd hw List.not_mem_nil
  ascending := .nil
  issued _ hw := absurd hw List.not_mem_nil
  known _ hmem := absurd hmem List.not_mem_nil
  unused _ hw := absurd hw List.not_mem_nil
  live := rfl

theorem fresh (h : n.Registers roll taken) : n.tracker.Fresh := by
  intro r hr
  rw [h.live] at hr
  obtain ⟨w, hw, hshown⟩ := List.mem_filterMap.1 hr
  obtain ⟨-, rfl⟩ := SafeCommand.shown_eq_some_iff.1 hshown
  exact h.issued w hw

theorem kept (h : n.Registers roll taken) (hsafes : ∀ w ∈ n'.safes, w ∈ n.safes)
    (hlive : n'.tracker.live = n.tracker.live) (hnext : n.tracker.next ≤ n'.tracker.next) :
    n'.Registers (SafeCommand.noted roll n'.safes) taken := by
  have hroll : SafeCommand.noted roll n'.safes = roll := by
    have hnoted := SafeCommand.noted_eq_map h.ascending (f := id) (fun _ => rfl)
      (fun w hw => ⟨w, h.present w (hsafes w hw), rfl⟩) fun _ _ hne => absurd rfl hne
    rwa [List.map_id] at hnoted
  rw [hroll]
  exact {
    present := fun w hw => h.present w (hsafes w hw)
    ascending := h.ascending
    issued := fun w hw => Nat.lt_of_lt_of_le (h.issued w hw) hnext
    known := fun ref href => Nat.lt_of_lt_of_le (h.known ref href) hnext
    unused := h.unused
    live := hlive.trans h.live }

theorem made (h : n.Registers roll taken) {w : SafeCommand} {taken? : Option RefId}
    (hsafes : n'.safes = n.safes ++ [w]) (href : w.ref = ⟨n.tracker.next⟩)
    (hvalid : w.state ≠ .invalidated) (hunused : w.state = .unacquired → taken? = none)
    (htaken : ∀ ref ∈ taken?, ref = w.ref)
    (hlive : n'.tracker.live = n.tracker.live ++ [w.record taken?.toList])
    (hnext : n'.tracker.next = n.tracker.next + 1) :
    n'.Registers (SafeCommand.noted roll n'.safes) (taken?.toList ++ taken) := by
  have hlt : ∀ v ∈ roll, v.ref.number < w.ref.number := by
    rw [href]
    exact h.issued
  have hnew : ∀ v ∈ roll, v.ref ≠ w.ref := fun v hv => SafeCommand.ref_ne_of_lt (hlt v hv)
  have hunasked : ∀ v ∈ roll, v.ref ∉ taken?.toList := fun v hv hmem =>
    hnew v hv (htaken v.ref (Option.mem_toList.1 hmem))
  -- The number has not been given before, so that nobody can have taken an entry under it.
  have hlast : w.ref ∉ taken := by
    intro hmem
    have hknown := h.known w.ref hmem
    rw [href] at hknown
    exact Nat.lt_irrefl _ hknown
  have hroll : SafeCommand.noted roll n'.safes = roll ++ [w] := by
    rw [hsafes]
    exact SafeCommand.noted_concat h.ascending h.present hnew
  have hold : ∀ v ∈ roll, v.shown taken = v.shown (taken?.toList ++ taken) := by
    intro v hv
    rw [SafeCommand.shown_congr (List.mem_append.trans (or_iff_right (hunasked v hv)))]
  have hshown : w.shown (taken?.toList ++ taken) = some (w.record taken?.toList) :=
    SafeCommand.shown_eq_some_iff.2
      ⟨hvalid, SafeCommand.record_congr (List.mem_append.trans (or_iff_left hlast))⟩
  have hrefs : w.ref.number < n'.tracker.next := by
    rw [hnext, href]
    exact Nat.lt_succ_self _
  have hgrown : n.tracker.next ≤ n'.tracker.next := by
    rw [hnext]
    exact Nat.le_succ _
  rw [hroll]
  exact {
    present := fun v hv => by
      rw [hsafes] at hv
      obtain hv | hv := List.mem_append.1 hv
      · exact List.mem_append_left _ (h.present v hv)
      · exact List.mem_append_right _ hv
    ascending := List.pairwise_append.2 ⟨h.ascending, List.pairwise_singleton _ _, fun v hv u hu =>
      List.mem_singleton.1 hu ▸ hlt v hv⟩
    issued := fun v hv => by
      obtain hv | hv := List.mem_append.1 hv
      · exact Nat.lt_of_lt_of_le (h.issued v hv) hgrown
      · exact List.mem_singleton.1 hv ▸ hrefs
    known := fun ref hmem => by
      obtain hmem | hmem := List.mem_append.1 hmem
      · exact htaken ref (Option.mem_toList.1 hmem) ▸ hrefs
      · exact Nat.lt_of_lt_of_le (h.known ref hmem) hgrown
    unused := fun v hv hstate hmem => by
      obtain hv | hv := List.mem_append.1 hv
      · obtain hmem | hmem := List.mem_append.1 hmem
        · exact hunasked v hv hmem
        · exact h.unused v hv hstate hmem
      · rw [List.mem_singleton.1 hv] at hstate hmem
        rw [hunused hstate] at hmem
        exact hlast hmem
    live := by
      rw [hlive, h.live, List.filterMap_append, List.filterMap_congr hold, List.filterMap_cons,
        hshown]
      rfl }

theorem put (h : n.Registers roll taken) {w w' : SafeCommand} (hw : w ∈ n.safes) (hsame : w.Same w')
    {taken? : Option RefId} (hsafes : n'.safes = (n.putSafe w').safes)
    (hnext : n'.tracker.next = n.tracker.next) (htaken : ∀ ref ∈ taken?, ref = w.ref)
    (hunused : w'.state = .unacquired → w.state = .unacquired ∧ taken? = none)
    {change : Tracked → Option Tracked} (hlive : n'.tracker.live = n.tracker.live.filterMap change)
    (hchange : (w.shown taken).bind change = w'.shown (taken?.toList ++ taken))
    (hothers : ∀ r : Tracked, r.ref ≠ w.ref → change r = some r) :
    n'.Registers (SafeCommand.noted roll n'.safes) (taken?.toList ++ taken) := by
  have hcases : ∀ v ∈ roll, v = w ∧ v.replacedBy w' = w' ∨ v.ref ≠ w.ref ∧ v.replacedBy w' = v :=
    fun _ => SafeCommand.replacedBy_cases h.ascending (h.present w hw) hsame
  have hunasked : ∀ v : SafeCommand, v.ref ≠ w.ref → v.ref ∉ taken?.toList := fun v hne hmem =>
    hne (htaken v.ref (Option.mem_toList.1 hmem))
  have hroll : SafeCommand.noted roll n'.safes = roll.map (·.replacedBy w') := by
    rw [hsafes]
    exact SafeCommand.noted_putSafe h.ascending h.present hw hsame
  -- The register changes the line of this safe command alone, and so does the list of those seen.
  have hshown : ∀ v ∈ roll, (v.shown taken).bind change =
      (v.replacedBy w').shown (taken?.toList ++ taken) := by
    intro v hv
    obtain ⟨rfl, hplace⟩ | ⟨hne, hplace⟩ := hcases v hv
    · rw [hplace, hchange]
    · rw [hplace, SafeCommand.shown_congr (List.mem_append.trans (or_iff_right (hunasked v hne)))]
      cases hr : v.shown taken with
      | none => rfl
      | some r =>
        obtain ⟨-, rfl⟩ := SafeCommand.shown_eq_some_iff.1 hr
        exact hothers _ hne
  rw [hroll]
  exact {
    present := fun u hu => by
      rw [hsafes] at hu
      obtain ⟨v, hv, hplace⟩ := List.mem_map.1 hu
      exact List.mem_map.2 ⟨v, h.present v hv, hplace⟩
    ascending := List.pairwise_map.2 (h.ascending.imp fun {v u} hlt => by
      rwa [v.ref_replacedBy, u.ref_replacedBy])
    issued := fun u hu => by
      obtain ⟨v, hv, rfl⟩ := List.mem_map.1 hu
      rw [v.ref_replacedBy, hnext]
      exact h.issued v hv
    known := fun ref hmem => by
      rw [hnext]
      obtain hmem | hmem := List.mem_append.1 hmem
      · exact htaken ref (Option.mem_toList.1 hmem) ▸ h.issued w (h.present w hw)
      · exact h.known ref hmem
    unused := fun u hu hstate hmem => by
      obtain ⟨v, hv, rfl⟩ := List.mem_map.1 hu
      rw [v.ref_replacedBy] at hmem
      obtain ⟨rfl, hplace⟩ | ⟨hne, hplace⟩ := hcases v hv
      · rw [hplace] at hstate
        obtain ⟨hold, rfl⟩ := hunused hstate
        exact h.unused v hv hold hmem
      · rw [hplace] at hstate
        exact h.unused v hv hstate ((List.mem_append.1 hmem).resolve_left (hunasked v hne))
    live := by
      rw [hlive, h.live, List.filterMap_filterMap, List.filterMap_map]
      exact List.filterMap_congr hshown }

theorem turn (h : n.Registers roll taken) {taken? : Option RefId} (hturn : n.Turn n' taken?) :
    n'.Registers (SafeCommand.noted roll n'.safes) (taken?.toList ++ taken) := by
  cases hturn with
  | kept hsafes hlive hnext => exact h.kept hsafes hlive hnext
  | made w _ hsafes href hvalid hunused htaken hlive hnext =>
    exact h.made hsafes href hvalid hunused htaken hlive hnext
  | edited w w' hw hsame hstate hsafes htracker =>
    have hlive : n'.tracker.live = n.tracker.live.filterMap some := by
      rw [htracker, List.filterMap_some]
    refine h.put hw hsame hsafes (congrArg RefTracker.next htracker) nofun
      (fun hunused => ⟨hstate.symm.trans hunused, rfl⟩) hlive ?_ fun _ _ => rfl
    exact (Option.bind_fun_some _).trans (SafeCommand.shown_of_same hsame hstate).symm
  | acquired w w' hw hsame hunused hactive hsafes htracker =>
    have hnext : n'.tracker.next = n.tracker.next := by
      rw [htracker]
      rfl
    have hlive : n'.tracker.live = n.tracker.live.filterMap (some ∘ fun r =>
        if r.ref = w.ref then { r with trail := r.trail ++ ["acquired"] } else r) := by
      rw [htracker, List.filterMap_eq_map]
      rfl
    have hnew : w.ref ∉ taken := h.unused w (h.present w hw) hunused
    have hbefore : w.shown taken = some ⟨w.ref, w.txn.text, ["created"]⟩ := by
      simp [SafeCommand.shown, SafeCommand.record, hunused, hnew]
    have hafter : w'.shown ([w.ref] ++ taken) =
        some ⟨w.ref, w.txn.text, ["created", "acquired"]⟩ := by
      simp [SafeCommand.shown, SafeCommand.record, hactive, hsame.ref, hsame.txn]
    refine h.put hw hsame hsafes hnext (fun _ hmem => (Option.some.inj hmem).symm)
      (fun hstate => ?_) hlive ?_ fun r hne => ?_
    · rw [hactive] at hstate
      cases hstate
    · rw [hbefore]
      exact (congrArg some (if_pos rfl)).trans hafter.symm
    · exact congrArg some (if_neg hne)
  | ended w w' hw hsame hends hsafes htracker =>
    have hnext : n'.tracker.next = n.tracker.next := by
      rw [htracker]
      rfl
    have hlive : n'.tracker.live =
        n.tracker.live.filterMap (Option.guard fun r => r.ref ≠ w.ref) := by
      rw [htracker, List.filterMap_eq_filter]
      rfl
    refine h.put hw hsame hsafes hnext nofun (fun hstate => ?_) hlive ?_ fun r hne =>
      Option.guard_pos (decide_eq_true hne)
    · rw [hends] at hstate
      cases hstate
    · have hafter : w'.shown taken = none := if_pos hends
      cases hr : w.shown taken with
      | none => exact hafter.symm
      | some r =>
        obtain ⟨-, rfl⟩ := SafeCommand.shown_eq_some_iff.1 hr
        exact (if_neg (by simp [SafeCommand.record])).trans hafter.symm

end Node.Registers

namespace Session

/-- The safe command as it was seen last: at some time it was there like that, and since then it has
not been there in any other way. -/
def LastSeen (policy : AcquirePolicy) (events : List Event) (w : SafeCommand) : Prop :=
  ∃ earlier, earlier <+: events ∧ w ∈ (trace policy earlier).node.safes ∧
    ∀ later, earlier <+: later → later <+: events →
      ∀ v ∈ (trace policy later).node.safes, v.ref = w.ref → v = w

def Took (policy : AcquirePolicy) (events : List Event) (ref : RefId) : Prop :=
  ∃ earlier event, earlier ++ [event] <+: events ∧
    event.taken? (trace policy earlier).node = some ref

variable {policy : AcquirePolicy} {events : List Event} {event : Event}

theorem orderly_trace (policy : AcquirePolicy) (events : List Event) :
    (trace policy events).Orderly :=
  (advances_foldl (orderly_start policy) events).orderly

theorem trace_concat (policy : AcquirePolicy) (events : List Event) (event : Event) :
    trace policy (events ++ [event]) = (trace policy events).happen event :=
  List.foldl_concat _ _ _ _

theorem lastSeen_concat {w : SafeCommand} :
    LastSeen policy (events ++ [event]) w ↔
      w ∈ (trace policy (events ++ [event])).node.safes ∨ LastSeen policy events w ∧
        ∀ v ∈ (trace policy (events ++ [event])).node.safes, v.ref ≠ w.ref := by
  have hgrown : events <+: events ++ [event] := List.prefix_append _ _
  constructor
  · rintro ⟨earlier, hearlier, hw, hsame⟩
    by_cases hgone : ∀ v ∈ (trace policy (events ++ [event])).node.safes, v.ref ≠ w.ref
    · obtain rfl | hearlier := List.prefix_concat_iff.1 hearlier
      · exact .inl hw
      · exact .inr ⟨⟨earlier, hearlier, hw, fun later hlater hend =>
          hsame later hlater (hend.trans hgrown)⟩, hgone⟩
    · push Not at hgone
      obtain ⟨v, hv, href⟩ := hgone
      exact .inl (hsame _ hearlier (List.prefix_refl _) v hv href ▸ hv)
  · rintro (hw | ⟨⟨earlier, hearlier, hw, hsame⟩, hgone⟩)
    · refine ⟨_, List.prefix_refl _, hw, fun later hlater hend v hv href => ?_⟩
      rw [hend.eq_of_length_le hlater.length_le] at hv
      exact List.inj_on_of_nodup_map (orderly_trace policy _).secure.refs hv hw href
    · refine ⟨earlier, hearlier.trans hgrown, hw, fun later hlater hend v hv href => ?_⟩
      obtain rfl | hend := List.prefix_concat_iff.1 hend
      · exact absurd href (hgone v hv)
      · exact hsame later hlater hend v hv href

theorem took_concat {ref : RefId} :
    Took policy (events ++ [event]) ref ↔
      event.taken? (trace policy events).node = some ref ∨ Took policy events ref := by
  constructor
  · rintro ⟨earlier, event', hprefix, htaken⟩
    obtain heq | hprefix := List.prefix_concat_iff.1 hprefix
    · obtain ⟨rfl, hlast⟩ := List.append_inj' heq rfl
      cases hlast
      exact .inl htaken
    · exact .inr ⟨earlier, event', hprefix, htaken⟩
  · rintro (htaken | ⟨earlier, event', hprefix, htaken⟩)
    · exact ⟨events, event, List.prefix_refl _, htaken⟩
    · exact ⟨earlier, event', hprefix.trans (List.prefix_append _ _), htaken⟩

theorem exists_registers (policy : AcquirePolicy) (events : List Event) :
    ∃ roll taken, (trace policy events).node.Registers roll taken ∧
      (∀ w, w ∈ roll ↔ LastSeen policy events w) ∧
      ∀ ref, ref ∈ taken ↔ Took policy events ref := by
  -- From the end, as it is the last event that tells what was seen last.
  induction events using List.reverseRecOn with
  | nil =>
    refine ⟨[], [], .empty policy, fun w => ⟨fun hw => absurd hw List.not_mem_nil, ?_⟩, fun ref =>
      ⟨fun hmem => absurd hmem List.not_mem_nil, ?_⟩⟩
    · rintro ⟨earlier, hearlier, hw, -⟩
      rw [List.prefix_nil.1 hearlier] at hw
      exact absurd hw List.not_mem_nil
    · rintro ⟨earlier, event, hprefix, -⟩
      exact absurd (List.prefix_nil.1 hprefix) (List.concat_ne_nil event earlier)
  | append_singleton events event ih =>
    obtain ⟨roll, taken, h, hroll, htaken⟩ := ih
    have hstep := trace_concat policy events event
    have hrefs := (orderly_trace policy (events ++ [event])).secure.refs
    have hturn := turn_happen (orderly_trace policy events).secure h.fresh event
    rw [← hstep] at hturn
    refine ⟨_, _, h.turn hturn, fun w => ?_, fun ref => ?_⟩
    · rw [SafeCommand.mem_noted_iff hrefs, lastSeen_concat, hroll]
    · rw [List.mem_append, Option.mem_toList, took_concat, htaken]

theorem turn_trace (policy : AcquirePolicy) (events : List Event) (event : Event) :
    (trace policy events).node.Turn (trace policy (events ++ [event])).node
      (event.taken? (trace policy events).node) := by
  obtain ⟨roll, taken, h, -⟩ := exists_registers policy events
  rw [trace_concat]
  exact turn_happen (orderly_trace policy events).secure h.fresh event

def Seen (policy : AcquirePolicy) (events : List Event) (ref : RefId) : Prop :=
  ∃ earlier, earlier <+: events ∧ ∃ w ∈ (trace policy earlier).node.safes, w.ref = ref

/-- The one has been there at a time when the other had not. -/
def MadeBefore (policy : AcquirePolicy) (events : List Event) (ref ref' : RefId) : Prop :=
  ∃ earlier, earlier <+: events ∧ Seen policy earlier ref ∧ ¬Seen policy earlier ref'

theorem seen_concat {ref : RefId} :
    Seen policy (events ++ [event]) ref ↔
      (∃ w ∈ (trace policy (events ++ [event])).node.safes, w.ref = ref) ∨
        Seen policy events ref := by
  constructor
  · rintro ⟨earlier, hearlier, hw⟩
    obtain rfl | hearlier := List.prefix_concat_iff.1 hearlier
    · exact .inl hw
    · exact .inr ⟨earlier, hearlier, hw⟩
  · rintro (hw | ⟨earlier, hearlier, hw⟩)
    · exact ⟨_, List.prefix_refl _, hw⟩
    · exact ⟨earlier, hearlier.trans (List.prefix_append _ _), hw⟩

theorem advances_trace (policy : AcquirePolicy) {earlier : List Event} (h : earlier <+: events) :
    (trace policy earlier).Advances (trace policy events) := by
  obtain ⟨later, rfl⟩ := h
  have hsplit : trace policy (earlier ++ later) = later.foldl happen (trace policy earlier) :=
    List.foldl_append
  rw [hsplit]
  exact advances_foldl (orderly_trace policy earlier) later

theorem seen_of_lt {w : SafeCommand} (hw : w ∈ (trace policy (events ++ [event])).node.safes)
    (hlt : w.ref.number < (trace policy events).node.tracker.next) : Seen policy events w.ref := by
  have hadvances := advances_trace policy (List.prefix_append events [event])
  obtain ⟨v, hv, hsame, -⟩ := hadvances.precedes.descends w hw hlt
  exact ⟨events, List.prefix_refl _, v, hv, hsame.ref.symm⟩

theorem lt_next_of_seen {ref : RefId} (h : Seen policy events ref) :
    ref.number < (trace policy events).node.tracker.next := by
  obtain ⟨earlier, hearlier, w, hw, rfl⟩ := h
  exact Nat.lt_of_lt_of_le ((orderly_trace policy earlier).secure.fresh w hw)
    (advances_trace policy hearlier).precedes.next_le

theorem madeBefore_of_lt {ref ref' : RefId} (h : Seen policy events ref)
    (h' : Seen policy events ref') (hlt : ref.number < ref'.number) :
    MadeBefore policy events ref ref' := by
  induction events using List.reverseRecOn with
  | nil =>
    obtain ⟨earlier, hearlier, w, hw, -⟩ := h
    rw [List.prefix_nil.1 hearlier] at hw
    exact absurd hw List.not_mem_nil
  | append_singleton events event ih =>
    have hgrown : events <+: events ++ [event] := List.prefix_append _ _
    by_cases hold' : Seen policy events ref'
    · have hold : Seen policy events ref := by
        obtain ⟨w, hw, rfl⟩ | hold := seen_concat.1 h
        · exact seen_of_lt hw (Nat.lt_trans hlt (lt_next_of_seen hold'))
        · exact hold
      obtain ⟨earlier, hearlier, hboth⟩ := ih hold hold'
      exact ⟨earlier, hearlier.trans hgrown, hboth⟩
    · by_cases hold : Seen policy events ref
      · exact ⟨events, hgrown, hold, hold'⟩
      · -- Both would be new, but one event makes no more than one.
        obtain ⟨w, hw, rfl⟩ := (seen_concat.1 h).resolve_right hold
        obtain ⟨w', hw', rfl⟩ := (seen_concat.1 h').resolve_right hold'
        have heq : w = w' := (turn_trace policy events event).eq_of_new hw hw'
          (fun u hu href => hold ⟨events, List.prefix_refl _, u, hu, href⟩)
          fun u hu href => hold' ⟨events, List.prefix_refl _, u, hu, href⟩
        rw [heq] at hlt
        exact absurd hlt (Nat.lt_irrefl _)

/-- At any time the register lists the safe commands that were never invalidated, be they dropped or
not, each once and in the order in which they were made. It tells of each whether it took its entry,
and finds it among any references that should have been released. Who fails to acquire an entry
leaves nothing behind. -/
theorem tracker_exact (policy : AcquirePolicy) (events : List Event) :
    let n := (trace policy events).node
    ∃ live : List SafeCommand,
      (∀ w, w ∈ live ↔ LastSeen policy events w ∧ w.state ≠ .invalidated) ∧
      live.Pairwise (fun v w => v.ref.number < w.ref.number ∧
        MadeBefore policy events v.ref w.ref) ∧
      n.tracker.liveRefs = live.map (fun w => (w.ref, w.txn.text)) ∧
      (∀ w ∈ live, (Took policy events w.ref →
          n.tracker.trail? w.ref = some ["created", "acquired"]) ∧
        (¬Took policy events w.ref → n.tracker.trail? w.ref = some ["created"])) ∧
      (∀ refs, (∃ message, n.tracker.assertReleased refs = .error message) ↔
        ∃ w ∈ live, w.ref ∈ refs) ∧
      ∀ txn stop n', (Action.acquire txn).run n = (.error stop, n') →
        n'.safes = n.safes ∧ n'.tracker.live = n.tracker.live := by
  intro n
  obtain ⟨roll, taken, h, hroll, htaken⟩ := exists_registers policy events
  let live := roll.filter (·.state ≠ .invalidated)
  have hlive : n.tracker.live = live.map (·.record taken) :=
    h.live.trans (SafeCommand.filterMap_shown roll taken)
  have hmem : ∀ w, w ∈ live ↔ LastSeen policy events w ∧ w.state ≠ .invalidated := by
    intro w
    rw [List.mem_filter, hroll, decide_eq_true_eq]
  have hascending : live.Pairwise fun v w => v.ref.number < w.ref.number := h.ascending.filter _
  have hseen : ∀ w ∈ live, Seen policy events w.ref := by
    intro w hw
    obtain ⟨⟨earlier, hearlier, hthere, -⟩, -⟩ := (hmem w).1 hw
    exact ⟨earlier, hearlier, w, hthere, rfl⟩
  have htrail : ∀ w ∈ live, n.tracker.trail? w.ref = some (w.record taken).trail := by
    intro w hw
    have hnodup : (n.tracker.live.map (·.ref)).Nodup := by
      rw [hlive, List.map_map]
      exact List.pairwise_map.2 (hascending.imp SafeCommand.ref_ne_of_lt)
    have hrecord : w.record taken ∈ n.tracker.live := hlive ▸ List.mem_map_of_mem hw
    exact congrArg (Option.map Tracked.trail) (find?_key_of_mem hnodup hrecord)
  refine ⟨live, hmem, ?_, ?_, fun w hw => ⟨fun htook => ?_, fun hnot => ?_⟩, fun refs => ?_,
    fun txn stop n' hrun => ?_⟩
  · exact hascending.imp_of_mem fun hv hw hlt =>
      ⟨hlt, madeBefore_of_lt (hseen _ hv) (hseen _ hw) hlt⟩
  · rw [RefTracker.liveRefs, hlive, List.map_map]
    rfl
  · rw [htrail w hw, SafeCommand.record, if_pos ((htaken w.ref).2 htook)]
  · rw [htrail w hw, SafeCommand.record, if_neg fun hold => hnot ((htaken w.ref).1 hold)]
  · rw [RefTracker.assertReleased_eq_error_iff, hlive]
    simp only [List.mem_map, exists_exists_and_eq_and]
    rfl
  · obtain ⟨_, _, hcase, hsafes, hsame, -⟩ | ⟨w, _, hcase, -⟩ :=
      (orderly_trace policy events).secure.acquire_leaves h.fresh txn
    · cases hrun.symm.trans hcase
      exact ⟨hsafes, hsame⟩
    · cases hrun.symm.trans hcase

/-- A safe command that was dropped before it took its entry, and one that has taken it, so that the
next to come does not get it. -/
theorem tracker_exact_dropped :
    let t : TxnId := ⟨1, 10, 0, 1⟩
    let events : List Event := [.ask (.createSafe t), .ask (.drop ⟨1⟩), .ask (.acquire t)]
    let n := (trace .failFast events).node
    n.tracker.liveRefs = [(⟨1⟩, t.text), (⟨2⟩, t.text)] ∧ Took .failFast events ⟨2⟩ ∧
      n.tracker.trail? ⟨2⟩ = some ["created", "acquired"] ∧
      (∃ w, LastSeen .failFast events w ∧ w.ref = ⟨1⟩ ∧ w.state ≠ .invalidated ∧ w ∉ n.safes) ∧
      (∃ message, n.tracker.assertReleased [⟨1⟩] = .error message) ∧
      ∃ stop n', (Action.acquire t).run n = (.error stop, n') ∧
        n'.tracker.live = n.tracker.live := by
  intro t events n
  obtain ⟨live, hmem, -, hrefs, htrail, hleaks, hfailed⟩ := tracker_exact .failFast events
  have hlisted : n.tracker.liveRefs = [(⟨1⟩, t.text), (⟨2⟩, t.text)] := by decide
  obtain ⟨v, rest, rfl, hv, hrest⟩ := List.map_eq_cons_iff.1 (hrefs.symm.trans hlisted)
  obtain ⟨w, rest, rfl, hw, -⟩ := List.map_eq_cons_iff.1 hrest
  have hvref : v.ref = ⟨1⟩ := congrArg Prod.fst hv
  have hwref : w.ref = ⟨2⟩ := congrArg Prod.fst hw
  have htook : Took .failFast events ⟨2⟩ :=
    ⟨[.ask (.createSafe t), .ask (.drop ⟨1⟩)], .ask (.acquire t), List.prefix_refl _, rfl⟩
  have htaken := (htrail w (List.mem_cons_of_mem v List.mem_cons_self)).1
  rw [hwref] at htaken
  obtain ⟨hseen, hvalid⟩ := (hmem v).1 List.mem_cons_self
  have hgone : ∀ u ∈ n.safes, u.ref ≠ ⟨1⟩ := by decide
  have hleak := (hleaks [⟨1⟩]).2 ⟨v, List.mem_cons_self, hvref ▸ List.mem_singleton_self _⟩
  have hbusy : ((Action.acquire t).run n).1.toOption = none := by decide
  rcases hrun : (Action.acquire t).run n with ⟨stop | ref, n'⟩
  · exact ⟨hlisted, htook, htaken htook, ⟨v, hseen, hvref, hvalid, fun hv => hgone v hv hvref⟩,
      hleak, stop, n', rfl, (hfailed t stop n' hrun).2⟩
  · rw [hrun] at hbusy
    cases hbusy

end Session

end TxnDeps
