import Mathlib.Algebra.Group.Nat.Defs
import TxnDeps.Graph.Shape
import TxnDeps.Proofs.Halt

namespace TxnDeps.Links

/-- The places where runs end that are laid end to end from `start` on. -/
def stops : (start : Nat) → List (List UInt32) → List Nat
  | _, [] => []
  | start, run :: rest => (start + run.length) :: stops (start + run.length) rest

/-- The array has the places where the runs end, and behind them the runs. -/
structure Holds (links : List UInt32) (runs : List (List UInt32)) : Prop where
  ends : (links.take runs.length).map (·.toNat) = stops runs.length runs
  indexes : links.drop runs.length = runs.flatten

theorem length_stops (start : Nat) (runs : List (List UInt32)) :
    (stops start runs).length = runs.length := by
  induction runs generalizing start with
  | nil => rfl
  | cons run runs ih => simp [stops, ih]

theorem getElem?_stops (start : Nat) (runs : List (List UInt32)) (i : Nat) (h : i < runs.length) :
    (stops start runs)[i]? = some (start + (runs.take (i + 1)).flatten.length) := by
  induction runs generalizing start i with
  | nil => simp at h
  | cons run runs ih =>
    cases i with
    | zero => simp [stops]
    | succ i =>
      have hi : i < runs.length := by simpa using h
      simp only [stops, List.getElem?_cons_succ, ih _ _ hi, List.take_succ_cons,
        List.flatten_cons, List.length_append]
      rw [Nat.add_assoc]

theorem flatten_eq_append (runs : List (List UInt32)) (i : Nat) (h : i < runs.length) :
    runs.flatten = (runs.take i).flatten ++ (runs[i] ++ (runs.drop (i + 1)).flatten) := by
  rw [← List.flatten_cons, ← List.drop_eq_getElem_cons h, ← List.flatten_append,
    List.take_append_drop]

theorem length_flatten_take_succ (runs : List (List UInt32)) (i : Nat) (h : i < runs.length) :
    (runs.take (i + 1)).flatten.length = (runs.take i).flatten.length + runs[i].length := by
  rw [List.take_succ_eq_append_getElem h, List.flatten_append, List.length_append,
    List.flatten_singleton]

theorem length_flatten_take_le (runs : List (List UInt32)) (i : Nat) :
    (runs.take i).flatten.length ≤ runs.flatten.length := by
  have h : runs.flatten = (runs.take i).flatten ++ (runs.drop i).flatten := by
    rw [← List.flatten_append, List.take_append_drop]
  rw [h, List.length_append]
  omega

theorem slice?_eq_some {links : List UInt32} {start stop : Nat} (h : start ≤ stop)
    (hs : stop ≤ links.length) :
    slice? links start stop = some ((links.drop start).take (stop - start)) :=
  if_pos ⟨h, hs⟩

namespace Holds

variable {links : List UInt32} {runs : List (List UInt32)}

theorem length_runs_le (h : Holds links runs) : runs.length ≤ links.length := by
  have hl := congrArg List.length h.ends
  rw [List.length_map, List.length_take, length_stops] at hl
  omega

theorem length (h : Holds links runs) : links.length = runs.length + runs.flatten.length := by
  have hl := congrArg List.length h.indexes
  have hle := h.length_runs_le
  rw [List.length_drop] at hl
  omega

theorem stop (h : Holds links runs) {i : Nat} (hi : i < runs.length) :
    links[i]?.map (·.toNat) = some (runs.length + (runs.take (i + 1)).flatten.length) := by
  rw [← getElem?_stops _ _ _ hi, ← h.ends, List.getElem?_map, List.getElem?_take_of_lt hi]

/-- The last of the places, which an entry of the array tells, is the length of the array. -/
theorem length_lt (h : Holds links runs) : links.length < 2 ^ 32 := by
  have hlen := h.length
  obtain hnil | hpos := Nat.eq_zero_or_pos runs.length
  · rw [List.length_eq_zero_iff.1 hnil] at hlen
    simp at hlen
    simp [hlen]
  · obtain ⟨stop, -, hstop⟩ := Option.map_eq_some_iff.1 (h.stop (Nat.sub_lt hpos Nat.one_pos))
    rw [Nat.sub_add_cancel hpos, List.take_length, ← hlen] at hstop
    rw [← hstop]
    exact stop.toNat_lt

theorem run?_eq_some (h : Holds links runs) {i : Nat} (hi : i < runs.length) :
    run? runs.length links i = some runs[i] := by
  have hstart : (if i = 0 then some runs.length else links[i - 1]?.map (·.toNat)) =
      some (runs.length + (runs.take i).flatten.length) := by
    cases i with
    | zero => simp
    | succ i => simpa using h.stop (Nat.lt_of_succ_lt hi)
  obtain ⟨stop, hstop, hstop'⟩ := Option.map_eq_some_iff.1 (h.stop hi)
  have hsucc := length_flatten_take_succ runs i hi
  have hle := length_flatten_take_le runs (i + 1)
  have hlen := h.length
  rw [run?, hstart, hstop]
  change slice? links (runs.length + (runs.take i).flatten.length) stop.toNat = _
  rw [hstop', slice?_eq_some (by omega) (by omega), ← List.drop_drop, h.indexes, hsucc]
  rw [show runs.length + ((runs.take i).flatten.length + runs[i].length) -
    (runs.length + (runs.take i).flatten.length) = runs[i].length by omega]
  rw [flatten_eq_append runs i hi, List.drop_left, List.take_left]

end Holds

@[simp]
theorem length_runEnds (start : Nat) (runs : List (List UInt32)) :
    (runEnds start runs).length = runs.length := by
  induction runs generalizing start with
  | nil => rfl
  | cons run runs ih => simp [runEnds, ih]

theorem map_runEnds (start : Nat) (runs : List (List UInt32))
    (h : start + runs.flatten.length < 2 ^ 32) :
    (runEnds start runs).map (·.toNat) = stops start runs := by
  induction runs generalizing start with
  | nil => rfl
  | cons run runs ih =>
    rw [List.flatten_cons, List.length_append] at h
    rw [runEnds, List.map_cons, stops, ih _ (by omega), UInt32.toNat_ofNat',
      Nat.mod_eq_of_lt (by omega)]

theorem holds_ofRuns {runs : List (List UInt32)}
    (h : runs.length + runs.flatten.length < 2 ^ 32) : Holds (ofRuns runs) runs := by
  have hends := map_runEnds runs.length runs h
  have hlen := length_runEnds runs.length runs
  refine ⟨?_, ?_⟩
  · rw [ofRuns, List.take_left' hlen, hends]
  · rw [ofRuns, List.drop_left' hlen]

theorem lastEnd_of_stops (length key start : Nat) (ends : List UInt32)
    (runs : List (List UInt32)) (h : ends.map (·.toNat) = stops start runs)
    (hle : start + runs.flatten.length ≤ length) :
    lastEnd length key start ends = .ok (start + runs.flatten.length) := by
  induction ends generalizing key start runs with
  | nil =>
    cases runs with
    | nil => rfl
    | cons run runs => simp [stops] at h
  | cons stop ends ih =>
    cases runs with
    | nil => simp [stops] at h
    | cons run runs =>
      simp only [List.map_cons, stops, List.cons.injEq] at h
      simp only [List.flatten_cons, List.length_append] at hle ⊢
      have hin : ¬(stop.toNat < start ∨ length < stop.toNat) := by omega
      rw [lastEnd, if_neg hin, ih _ _ runs (h.1 ▸ h.2) (by omega), h.1, Nat.add_assoc]

/-- Ends that pass cut what follows `start` into runs. -/
theorem stops_of_lastEnd {length key start last : Nat} {ends : List UInt32}
    (h : lastEnd length key start ends = .ok last) (xs : List UInt32)
    (hxs : start + xs.length = length) :
    ∃ runs, ends.map (·.toNat) = stops start runs ∧
      runs.flatten = xs.take (last - start) ∧ start ≤ last ∧ last ≤ length := by
  -- `xs` is what the ends have left, and each of them cuts its run off the front.
  induction ends generalizing key start xs with
  | nil =>
    simp only [lastEnd, Except.ok.injEq] at h
    subst h
    exact ⟨[], rfl, by simp, Nat.le_refl _, by omega⟩
  | cons stop ends ih =>
    rw [lastEnd] at h
    split at h
    · cases h
    · next hin =>
      have hdrop : stop.toNat + (xs.drop (stop.toNat - start)).length = length := by
        rw [List.length_drop]
        omega
      obtain ⟨runs, hends, hflat, hlow, hhigh⟩ := ih h _ hdrop
      have hlen : (xs.take (stop.toNat - start)).length = stop.toNat - start := by
        rw [List.length_take]
        omega
      have hstart : start + (xs.take (stop.toNat - start)).length = stop.toNat := by omega
      refine ⟨xs.take (stop.toNat - start) :: runs, ?_, ?_, by omega, hhigh⟩
      · rw [stops, hstart, List.map_cons, hends]
      · rw [List.flatten_cons, hflat, ← List.take_add]
        congr 1
        omega

theorem safe_lastEnd (length key start : Nat) (ends : List UInt32) :
    Halt.Safe (lastEnd length key start ends) fun _ => True := by
  induction ends generalizing key start with
  | nil => exact trivial
  | cons stop ends ih =>
    rw [lastEnd]
    split
    · exact trivial
    · exact ih _ _

theorem checkShape_of_holds {links : List UInt32} {runs : List (List UInt32)} {txns : Nat}
    (h : Holds links runs) (hindex : ∀ run ∈ runs, ∀ i ∈ run, i.toNat < txns) :
    checkShape runs.length txns links = .ok () := by
  have hlen := h.length
  have hfind : runs.flatten.find? (fun i => decide (txns ≤ i.toNat)) = none := by
    rw [List.find?_eq_none]
    intro i hi
    obtain ⟨run, hrun, hi⟩ := List.mem_flatten.1 hi
    simpa using hindex run hrun i hi
  rw [checkShape, if_neg (by omega), slice?_eq_some (by omega) (by omega),
    slice?_eq_some (by omega) (by omega)]
  simp only [Halt.expect_some, List.drop_zero, Nat.sub_zero]
  rw [← List.length_drop, List.take_length, h.indexes]
  change (lastEnd links.length 0 runs.length (links.take runs.length) >>= _) = _
  rw [lastEnd_of_stops _ _ _ _ _ h.ends (by omega), ← hlen]
  change (if links.length ≠ links.length then _ else _) = _
  rw [if_neg (by simp)]
  simp [bind, Except.bind, hfind]

theorem safe_checkShape (keys txns : Nat) (links : List UInt32) :
    Halt.Safe (checkShape keys txns links) fun _ =>
      ∃ runs, runs.length = keys ∧ Holds links runs ∧
        ∀ run ∈ runs, ∀ i ∈ run, i.toNat < txns := by
  rw [checkShape]
  split
  · exact trivial
  · next hshort =>
    have hkeys : keys ≤ links.length := by omega
    rw [slice?_eq_some (Nat.zero_le _) hkeys, slice?_eq_some hkeys (Nat.le_refl _)]
    simp only [Halt.expect_some, List.drop_zero, Nat.sub_zero]
    rw [← List.length_drop, List.take_length]
    apply Halt.Safe.bind ((safe_lastEnd _ _ _ _).and_of_ok fun _ hlast => hlast)
    intro last hlast
    obtain ⟨-, hlast⟩ := hlast
    split
    · exact trivial
    · next heq =>
      obtain ⟨runs, hends, hflat, -, -⟩ := stops_of_lastEnd hlast (links.drop keys)
        (by rw [List.length_drop]; omega)
      have hlen : runs.length = keys := by
        have hl := congrArg List.length hends
        rw [List.length_map, List.length_take, length_stops] at hl
        omega
      have hindexes : links.drop keys = runs.flatten := by
        rw [hflat, Decidable.not_not.1 heq, ← List.length_drop, List.take_length]
      subst hlen
      apply Halt.Safe.bind (Halt.Safe.ok (p := (· = links.drop runs.length)) rfl)
      rintro _ rfl
      cases hfind : (links.drop runs.length).find? (fun i => decide (txns ≤ i.toNat)) with
      | some index => exact trivial
      | none =>
        refine ⟨runs, rfl, ⟨hends, hindexes⟩, ?_⟩
        intro run hrun i hi
        rw [hindexes, List.find?_eq_none] at hfind
        simpa using hfind i (List.mem_flatten.2 ⟨run, hrun, hi⟩)

end TxnDeps.Links
