import TxnDeps.Proofs.Range.Coverage

namespace TxnDeps

open Std (LawfulEqOrd OrientedCmp)

theorem RoutingKey.isLE_table {j k : RoutingKey} (h : j ≤ k) :
    (compare j.table k.table).isLE = true :=
  Ordering.isLE_left_of_isLE_then h

theorem RoutingKey.table_eq_of_between {i j k : RoutingKey} (htable : i.table = k.table)
    (hlow : i ≤ j) (hhigh : j ≤ k) : j.table = i.table := by
  have hle := isLE_table hlow
  have hge := isLE_table hhigh
  rw [← htable] at hge
  exact LawfulEqOrd.eq_of_compare (OrientedCmp.isLE_antisymm hge hle)

namespace TokenRange

variable {r s : TokenRange} {start stop k : RoutingKey}

theorem create_eq_ok_iff :
    create start stop = .ok r ↔ start.table = stop.table ∧ r = ⟨start, stop⟩ := by
  rw [create]
  by_cases h : start.table = stop.table
  · rw [if_pos h, Except.ok.injEq]
    exact ⟨fun he => ⟨h, he.symm⟩, fun he => he.2.symm⟩
  · rw [if_neg h]
    exact ⟨nofun, fun he => absurd he.1 h⟩

theorem SingleTable.of_create (h : create start stop = .ok r) : r.SingleTable := by
  obtain ⟨htable, rfl⟩ := create_eq_ok_iff.1 h
  exact htable

theorem SingleTable.table_eq (h : r.SingleTable) (hk : r.contains k = true) :
    k.table = r.table := by
  obtain ⟨hlow, hhigh⟩ := contains_eq_true_iff.1 hk
  exact RoutingKey.table_eq_of_between h (Std.le_of_lt hlow) hhigh

theorem start_le_of_lt (h : compare r s = .lt) : r.start ≤ s.start := by
  have hle : (compare r s).isLE = true := by
    rw [h]
    rfl
  exact Ordering.isLE_left_of_isLE_then hle

end TokenRange

namespace Ranges

/-- Beyond what the sweep reaches, the next range starts too late for the key at the gap, or there
is no range left. -/
theorem exists_gap_of_reach_lt {target reached : RoutingKey} {rs : List TokenRange}
    (hsorted : rs.Pairwise fun r s => r.start ≤ s.start) (h : reach target reached rs < target) :
    ∃ k, reached < k ∧ k ≤ target ∧ ∀ r ∈ rs, ¬r.contains k = true := by
  induction rs generalizing reached with
  | nil => exact ⟨target, h, Std.le_refl target, nofun⟩
  | cons r rs ih =>
    obtain ⟨hfirst, hrest⟩ := List.pairwise_cons.1 hsorted
    rw [reach] at h
    split at h
    · next hstop =>
      have hgap : reached < r.start := hstop.resolve_left (Std.not_le.2 h)
      have hlater : ∀ s ∈ r :: rs, r.start ≤ s.start := by
        intro s hs
        obtain rfl | hs := List.mem_cons.1 hs
        · exact Std.le_refl s.start
        · exact hfirst s hs
      -- The first key after the gap or the target, whichever comes first.
      have huncovered : ∀ k ≤ r.start, ∀ s ∈ r :: rs, ¬s.contains k = true := by
        intro k hk s hs hcontains
        have hlow := (TokenRange.contains_eq_true_iff.1 hcontains).1
        exact Std.not_lt.2 (Std.le_trans hk (hlater s hs)) hlow
      by_cases hle : r.start ≤ target
      · exact ⟨r.start, hgap, hle, huncovered _ (Std.le_refl r.start)⟩
      · have hlt : target < r.start := Std.not_le.1 hle
        exact ⟨target, h, Std.le_refl target, huncovered _ (Std.le_of_lt hlt)⟩
    · obtain ⟨k, hlow, hhigh, hnone⟩ := ih hrest h
      have hbeyond : reached < k ∧ r.stop < k := by
        split at hlow
        · next hlt => exact ⟨Std.lt_trans hlt hlow, hlow⟩
        · next hle => exact ⟨hlow, Std.lt_of_le_of_lt (Std.not_lt.1 hle) hlow⟩
      refine ⟨k, hbeyond.1, hhigh, fun s hs hcontains => ?_⟩
      obtain rfl | hs := List.mem_cons.1 hs
      · have hstop := (TokenRange.contains_eq_true_iff.1 hcontains).2
        exact Std.not_le.2 hbeyond.2 hstop
      · exact hnone s hs hcontains

/-- Ranges of other tables contain no key of the range, and the sweep may leave them out. -/
theorem coversRange_eq_true_iff {rs : Ranges} (hrs : ∀ r ∈ rs, r.SingleTable) {q : TokenRange}
    (hq : q.SingleTable) :
    rs.coversRange q = true ↔ ∀ k, q.contains k = true → rs.containsKey k = true := by
  constructor
  · intro h k hk
    exact containsKey_of_coversRange h hk
  · intro h
    apply decide_eq_true
    apply Std.not_lt.1
    intro hshort
    have hsorted : (rs.toList.filter (·.table = q.table)).Pairwise fun r s => r.start ≤ s.start :=
      (rs.ascending.filter _).imp TokenRange.start_le_of_lt
    obtain ⟨k, hlow, hhigh, hnone⟩ := exists_gap_of_reach_lt hsorted hshort
    have hk : q.contains k = true := TokenRange.contains_eq_true_iff.2 ⟨hlow, hhigh⟩
    obtain ⟨r, hr, hcontains⟩ := containsKey_eq_true_iff.1 (h k hk)
    have htable : r.table = q.table :=
      ((hrs r hr).table_eq hcontains).symm.trans (hq.table_eq hk)
    exact hnone r (List.mem_filter.2 ⟨hr, decide_eq_true htable⟩) hcontains

/-- Ranges cover another range exactly if each of its keys lies in one of them, whatever gaps,
overlaps, empty ranges and other tables there are. -/
theorem coversRange_exact {rs : Ranges}
    (hrs : ∀ r ∈ rs, ∃ start stop, TokenRange.create start stop = .ok r)
    {start stop : RoutingKey} {q : TokenRange} (hq : TokenRange.create start stop = .ok q) :
    rs.coversRange q = true ↔ ∀ k, q.contains k = true → ∃ r ∈ rs, r.contains k = true := by
  have hsingle : ∀ r ∈ rs, r.SingleTable := by
    intro r hr
    obtain ⟨_, _, hcreate⟩ := hrs r hr
    exact .of_create hcreate
  rw [coversRange_eq_true_iff hsingle (.of_create hq)]
  simp only [containsKey_eq_true_iff]

/-- Two ranges that touch cover a range across their border, in spite of a shorter one inside the
first. Neither a range whose ends are in the wrong order nor one of another table helps beyond. -/
theorem coversRange_exact_touching :
    let key := RoutingKey.token (.ofNat 7)
    let rs : Ranges := .ofList [⟨key 0, key 10⟩, ⟨key 2, key 4⟩, ⟨key 10, key 20⟩,
      ⟨key 40, key 15⟩, ⟨.token (.ofNat 8) 15, .token (.ofNat 8) 40⟩]
    let inner : TokenRange := ⟨key 5, key 15⟩
    let beyond : TokenRange := ⟨key 15, key 40⟩
    (∀ r ∈ rs, ∃ start stop, TokenRange.create start stop = .ok r) ∧
      TokenRange.create (key 5) (key 15) = .ok inner ∧
      TokenRange.create (key 15) (key 40) = .ok beyond ∧
      (∀ k, inner.contains k = true → ∃ r ∈ rs, r.contains k = true) ∧
      ¬∀ k, beyond.contains k = true → ∃ r ∈ rs, r.contains k = true := by
  intro key rs inner beyond
  have hsingle : ∀ r ∈ rs.toList, r.SingleTable := by decide
  have hrs : ∀ r ∈ rs, ∃ start stop, TokenRange.create start stop = .ok r := fun r hr =>
    ⟨r.start, r.stop, TokenRange.create_eq_ok_iff.2 ⟨hsingle r hr, rfl⟩⟩
  have hinner : TokenRange.create (key 5) (key 15) = .ok inner := rfl
  have hbeyond : TokenRange.create (key 15) (key 40) = .ok beyond := rfl
  have hcovered : rs.coversRange inner = true := by decide
  have hgap : ¬rs.coversRange beyond = true := by decide
  refine ⟨hrs, hinner, hbeyond, (coversRange_exact hrs hinner).1 hcovered, fun hall => ?_⟩
  exact hgap ((coversRange_exact hrs hbeyond).2 hall)

end Ranges

end TxnDeps
