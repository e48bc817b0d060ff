import TxnDeps.Participants
import TxnDeps.Proofs.Sorted.Bisect

namespace TxnDeps

open Std (LawfulOrderOrd LawfulOrderLT IsLinearOrder)

instance : LawfulOrderOrd RoutingKey where
  isLE_compare _ _ := Iff.rfl
  isGE_compare a b := by
    change (compare a b).isGE ↔ (compare b a).isLE
    rw [Std.OrientedOrd.eq_swap (a := b), Ordering.isLE_swap]

instance : IsLinearOrder RoutingKey := .of_ord

instance : LawfulOrderLT RoutingKey := .of_ord _ fun _ _ => Iff.rfl

namespace TokenRange

theorem contains_eq_true_iff {r : TokenRange} {k : RoutingKey} :
    r.contains k = true ↔ r.start < k ∧ k ≤ r.stop :=
  decide_eq_true_iff

theorem intersects_eq_true_iff {r s : TokenRange} :
    r.intersects s = true ↔ r.start < s.stop ∧ s.start < r.stop :=
  decide_eq_true_iff

theorem intersects_of_contains {r s : TokenRange} {k : RoutingKey} (hr : r.contains k = true)
    (hs : s.contains k = true) : r.intersects s = true := by
  obtain ⟨hrs, hre⟩ := contains_eq_true_iff.1 hr
  obtain ⟨hss, hse⟩ := contains_eq_true_iff.1 hs
  exact intersects_eq_true_iff.2 ⟨Std.lt_of_lt_of_le hrs hse, Std.lt_of_lt_of_le hss hre⟩

end TokenRange

namespace Ranges

theorem containsKey_eq_true_iff {rs : Ranges} {k : RoutingKey} :
    rs.containsKey k = true ↔ ∃ r ∈ rs, r.contains k = true :=
  List.any_eq_true

theorem intersects_eq_true_iff {rs : Ranges} {s : TokenRange} :
    rs.intersects s = true ↔ ∃ r ∈ rs, r.intersects s = true :=
  List.any_eq_true

/-- As far as the sweep gets beyond `reached`, each key lies in one of the ranges. -/
theorem exists_contains_of_le_reach {target reached k : RoutingKey} {rs : List TokenRange}
    (h : target ≤ reach target reached rs) (hlow : reached < k) (hhigh : k ≤ target) :
    ∃ r ∈ rs, r.contains k = true := by
  induction rs generalizing reached with
  | nil => exact absurd (Std.le_trans hhigh h) (Std.not_le.2 hlow)
  | cons r rs ih =>
    rw [reach] at h
    split at h
    · exact absurd (Std.le_trans hhigh h) (Std.not_le.2 hlow)
    · next hgo =>
      have hstart : r.start ≤ reached := Std.not_lt.1 fun hlt => hgo (.inr hlt)
      by_cases hk : k ≤ r.stop
      · exact ⟨r, List.mem_cons_self,
          TokenRange.contains_eq_true_iff.2 ⟨Std.lt_of_le_of_lt hstart hlow, hk⟩⟩
      · have hnext : (if reached < r.stop then r.stop else reached) < k := by
          split
          · exact Std.not_le.1 hk
          · exact hlow
        obtain ⟨s, hs, hc⟩ := ih h hnext
        exact ⟨s, List.mem_cons_of_mem r hs, hc⟩

theorem containsKey_of_coversRange {rs : Ranges} {r : TokenRange} {k : RoutingKey}
    (h : rs.coversRange r = true) (hk : r.contains k = true) : rs.containsKey k = true := by
  obtain ⟨hlow, hhigh⟩ := TokenRange.contains_eq_true_iff.1 hk
  obtain ⟨s, hs, hc⟩ := exists_contains_of_le_reach (decide_eq_true_iff.1 h) hlow hhigh
  exact containsKey_eq_true_iff.2 ⟨s, (List.mem_filter.1 hs).1, hc⟩

end Ranges

namespace Participants

theorem containsKey_of_covers {p q : Participants} {k : RoutingKey} (h : p.covers q = true)
    (hk : q.containsKey k = true) : p.containsKey k = true := by
  cases p with
  | keys mine =>
    cases q with
    | keys theirs =>
      have hsub : ∀ x ∈ theirs, x ∈ mine := SortedList.isSubsetOf_eq_true_iff.1 h
      exact SortedList.contains_eq_true_iff.2 (hsub k (SortedList.contains_eq_true_iff.1 hk))
    | ranges theirs =>
      have hnil : theirs.toList = [] := List.isEmpty_iff.1 h
      obtain ⟨r, hr, -⟩ := Ranges.containsKey_eq_true_iff.1 hk
      have hr' : r ∈ theirs.toList := hr
      simp [hnil] at hr'
  | ranges mine =>
    cases q with
    | keys theirs =>
      exact List.all_eq_true.1 h k (SortedList.contains_eq_true_iff.1 hk)
    | ranges theirs =>
      obtain ⟨r, hr, hc⟩ := Ranges.containsKey_eq_true_iff.1 hk
      exact Ranges.containsKey_of_coversRange (List.all_eq_true.1 h r hr) hc

theorem intersectsRange_of_contains {p : Participants} {r : TokenRange} {k : RoutingKey}
    (hp : p.containsKey k = true) (hr : r.contains k = true) : p.intersectsRange r = true := by
  cases p with
  | keys ks =>
    exact List.any_eq_true.2 ⟨k, SortedList.contains_eq_true_iff.1 hp, hr⟩
  | ranges rs =>
    obtain ⟨s, hs, hc⟩ := Ranges.containsKey_eq_true_iff.1 hp
    exact Ranges.intersects_eq_true_iff.2 ⟨s, hs, TokenRange.intersects_of_contains hc hr⟩

end Participants

end TxnDeps
