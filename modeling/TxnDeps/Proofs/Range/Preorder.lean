import TxnDeps.Deps
import TxnDeps.Proofs.Halt
import TxnDeps.Proofs.Range.Sweep
import TxnDeps.Proofs.Range.Union

namespace TxnDeps

namespace Participants

def Created (p : Participants) : Prop :=
  ∀ r ∈ p.rangeSet, ∃ start stop, TokenRange.create start stop = .ok r

def Includes (p q : Participants) : Prop :=
  ∀ k, q.containsKey k = true → p.containsKey k = true

variable {a b c p q u : Participants}

theorem Created.singleTable (h : p.Created) {r : TokenRange} (hr : r ∈ p.rangeSet) :
    r.SingleTable := by
  obtain ⟨_, _, hcreate⟩ := h r hr
  exact .of_create hcreate

theorem Created.of_singleTable (h : ∀ r ∈ p.rangeSet, r.SingleTable) : p.Created := fun r hr =>
  ⟨r.start, r.stop, TokenRange.create_eq_ok_iff.2 ⟨h r hr, rfl⟩⟩

theorem Includes.refl (p : Participants) : p.Includes p := fun _ hk => hk

theorem Includes.trans (h : a.Includes b) (h' : b.Includes c) : a.Includes c := fun k hk =>
  h k (h' k hk)

theorem containsKey_of_mem {r : TokenRange} {k : RoutingKey} (hr : r ∈ p.rangeSet)
    (hk : r.contains k = true) : p.containsKey k = true := by
  cases p with
  | keys ks => exact absurd hr List.not_mem_nil
  | ranges rs => exact Ranges.containsKey_eq_true_iff.2 ⟨r, hr, hk⟩

theorem not_mem_rangeSet_of_key (h : p.domain = .key) (r : TokenRange) : r ∉ p.rangeSet := by
  cases p with
  | keys ks => exact List.not_mem_nil
  | ranges rs => cases h

theorem eq_empty_of_range (hdomain : p.domain = .range) (h : ∀ r, r ∉ p.rangeSet) :
    p = empty .range :=
  ext_elements hdomain
    (fun k => by
      cases p with
      | keys ks => cases hdomain
      | ranges rs => rfl)
    fun r => iff_of_false (h r) List.not_mem_nil

/-- The four tests for coverage, one for each pair of domains, are one test. -/
theorem covers_iff (hp : p.Created) (hq : q.Created) :
    p.covers q = true ↔ p.Includes q ∧ (p.domain = .key → ∀ r, r ∉ q.rangeSet) := by
  -- Only where keys meet ranges is there more to say than which keys are included.
  constructor
  · intro h
    refine ⟨fun k hk => containsKey_of_covers h hk, fun hdomain r hr => ?_⟩
    cases p with
    | keys mine =>
      cases q with
      | keys theirs => exact List.not_mem_nil hr
      | ranges theirs =>
        have hnil : theirs.toList = [] := List.isEmpty_iff.1 h
        have hr' : r ∈ theirs.toList := hr
        simp [hnil] at hr'
    | ranges mine => cases hdomain
  · rintro ⟨hkeys, hranges⟩
    cases p with
    | keys mine =>
      cases q with
      | keys theirs =>
        refine SortedList.isSubsetOf_eq_true_iff.2 fun k hk => ?_
        exact SortedList.contains_eq_true_iff.1
          (hkeys k (SortedList.contains_eq_true_iff.2 hk))
      | ranges theirs =>
        have hnil : theirs.toList = [] := List.eq_nil_iff_forall_not_mem.2 (hranges rfl)
        exact List.isEmpty_iff.2 hnil
    | ranges mine =>
      cases q with
      | keys theirs =>
        refine List.all_eq_true.2 fun k hk => hkeys k (SortedList.contains_eq_true_iff.2 hk)
      | ranges theirs =>
        refine List.all_eq_true.2 fun r hr => ?_
        refine (Ranges.coversRange_eq_true_iff (fun s hs => hp.singleTable hs)
          (hq.singleTable hr)).2 fun k hk => ?_
        exact hkeys k (containsKey_of_mem hr hk)

theorem covers_refl (hp : p.Created) : p.covers p = true :=
  (covers_iff hp hp).2 ⟨.refl p, not_mem_rangeSet_of_key⟩

/-- The keys cover the empty set of ranges, and this covers the ranges, of which none has a key. -/
structure Hollow (a b c : Participants) : Prop where
  keys : a.domain = .key
  empty : b = .empty .range
  ranges : ∃ r, r ∈ c.rangeSet
  hollow : ∀ r ∈ c.rangeSet, r.stop ≤ r.start

theorem covers_trans_iff (ha : a.Created) (hb : b.Created) (hc : c.Created)
    (hab : a.covers b = true) (hbc : b.covers c = true) :
    a.covers c = true ↔ ¬Hollow a b c := by
  obtain ⟨hleft, hkeys⟩ := (covers_iff ha hb).1 hab
  obtain ⟨hright, hkeys'⟩ := (covers_iff hb hc).1 hbc
  rw [covers_iff ha hc, and_iff_right (hleft.trans hright)]
  constructor
  · intro h hhollow
    obtain ⟨r, hr⟩ := hhollow.ranges
    exact h hhollow.keys r hr
  · intro hno hdomain r hr
    cases hbd : b.domain with
    | key => exact hkeys' hbd r hr
    | range =>
      have hempty : b = .empty .range := eq_empty_of_range hbd (hkeys hdomain)
      refine hno ⟨hdomain, hempty, ⟨r, hr⟩, fun s hs => Std.not_lt.1 fun hlt => ?_⟩
      -- The upper end of a range that is not empty is a key, and the empty set has none.
      have hstop : s.contains s.stop = true :=
        TokenRange.contains_eq_true_iff.2 ⟨hlt, Std.le_refl _⟩
      have hin : b.containsKey s.stop = true := hright _ (containsKey_of_mem hs hstop)
      rw [hempty] at hin
      cases hin

theorem IsUnion.congr {cs cs' : List Participants} (h : IsUnion cs u)
    (hmem : ∀ c, c ∈ cs' ↔ c ∈ cs) : IsUnion cs' u where
  domain c hc := h.domain c ((hmem c).1 hc)
  keys k := by simp only [h.keys, hmem]
  ranges r := by simp only [h.ranges, hmem]

theorem domain_eq_of_union (h : p.union q = .ok u) : p.domain = q.domain := by
  cases p <;> cases q <;> first | rfl | cases h

theorem union_eq_ok_iff {cs cs' : List Participants} {v w : Participants} (hv : IsUnion cs v)
    (hw : IsUnion cs' w) (hcs : cs ≠ []) (hcs' : cs' ≠ []) :
    v.union w = .ok u ↔ IsUnion (cs ++ cs') u := by
  constructor
  · intro h
    obtain ⟨u', hu', hunion⟩ := hv.append hw (domain_eq_of_union h)
    rw [h, Except.ok.injEq] at hu'
    exact hu' ▸ hunion
  · intro h
    obtain ⟨c, hc⟩ := List.exists_mem_of_ne_nil cs hcs
    obtain ⟨c', hc'⟩ := List.exists_mem_of_ne_nil cs' hcs'
    have hleft : v.domain = u.domain :=
      (hv.domain c hc).symm.trans (h.domain c (List.mem_append_left _ hc))
    have hright : w.domain = u.domain :=
      (hw.domain c' hc').symm.trans (h.domain c' (List.mem_append_right _ hc'))
    obtain ⟨u', hu', hunion⟩ := hv.append hw (hleft.trans hright.symm)
    rw [hu', hunion.unique h (List.append_ne_nil_of_left_ne_nil hcs _) fun _ => Iff.rfl]

theorem union_eq_ok_iff_isUnion : p.union q = .ok u ↔ IsUnion [p, q] u :=
  union_eq_ok_iff (isUnion_singleton p) (isUnion_singleton q) (List.cons_ne_nil _ _)
    (List.cons_ne_nil _ _)

theorem exists_union_iff : (∃ u, p.union q = .ok u) ↔ p.domain = q.domain := by
  constructor
  · rintro ⟨u, hu⟩
    exact domain_eq_of_union hu
  · intro h
    obtain ⟨u, hu, -⟩ := (isUnion_singleton p).append (isUnion_singleton q) h
    exact ⟨u, hu⟩

theorem union_comm : p.union q = .ok u ↔ q.union p = .ok u := by
  have hmem : ∀ c, c ∈ [p, q] ↔ c ∈ [q, p] := fun c => by simp [or_comm]
  rw [union_eq_ok_iff_isUnion, union_eq_ok_iff_isUnion]
  exact ⟨fun h => h.congr fun c => (hmem c).symm, fun h => h.congr hmem⟩

theorem union_self (p : Participants) : p.union p = .ok p :=
  union_eq_ok_iff_isUnion.2 ((isUnion_singleton p).congr fun c => by simp)

theorem bind_union_eq_ok_iff :
    (do let v ← a.union b; v.union c) = .ok u ↔ IsUnion [a, b, c] u := by
  have hvu {v : Participants} (hv : a.union b = .ok v) : v.union c = .ok u ↔ IsUnion [a, b, c] u :=
    union_eq_ok_iff (union_eq_ok_iff_isUnion.1 hv) (isUnion_singleton c) (List.cons_ne_nil _ _)
      (List.cons_ne_nil _ _)
  rw [Halt.bind_eq_ok_iff]
  constructor
  · rintro ⟨v, hv, hu⟩
    exact (hvu hv).1 hu
  · intro h
    have hdomain : a.domain = b.domain := (h.domain a (by simp)).trans (h.domain b (by simp)).symm
    obtain ⟨v, hv⟩ := exists_union_iff.2 hdomain
    exact ⟨v, hv, (hvu hv).2 h⟩

theorem union_assoc :
    (do let v ← a.union b; v.union c) = .ok u ↔ (do let v ← b.union c; a.union v) = .ok u := by
  have hswap : (do let v ← b.union c; a.union v) = .ok u ↔
      (do let v ← b.union c; v.union a) = .ok u := by
    simp only [Halt.bind_eq_ok_iff, union_comm (p := a)]
  have hmem : ∀ d, d ∈ [a, b, c] ↔ d ∈ [b, c, a] := fun d => by
    simp only [List.mem_cons, List.not_mem_nil, or_false]
    exact or_comm.trans or_assoc
  rw [hswap, bind_union_eq_ok_iff, bind_union_eq_ok_iff]
  exact ⟨fun h => h.congr fun d => (hmem d).symm, fun h => h.congr hmem⟩

theorem Created.union (hp : p.Created) (hq : q.Created) (h : p.union q = .ok u) : u.Created := by
  intro r hr
  obtain ⟨c, hc, hrc⟩ := ((union_eq_ok_iff_isUnion.1 h).ranges r).1 hr
  obtain rfl | hc := List.mem_cons.1 hc
  · exact hp r hrc
  · obtain rfl := List.mem_singleton.1 hc
    exact hq r hrc

theorem covers_union_left (hp : p.Created) (hq : q.Created) (hc : c.Created)
    (h : p.union q = .ok u) (hcovers : p.covers c = true) : u.covers c = true := by
  obtain ⟨hkeys, hranges⟩ := (covers_iff hp hc).1 hcovers
  refine (covers_iff (hp.union hq h) hc).2 ⟨fun k hk => ?_, fun hdomain => ?_⟩
  · rw [containsKey_union h, hkeys k hk, Bool.true_or]
  · have hp' : p.domain = u.domain := (union_eq_ok_iff_isUnion.1 h).domain p (by simp)
    exact hranges (hp'.trans hdomain)

theorem covers_union (hp : p.Created) (hq : q.Created) (hc : c.Created) (h : p.union q = .ok u)
    (hcovers : p.covers c = true ∨ q.covers c = true) : u.covers c = true := by
  obtain hcovers | hcovers := hcovers
  · exact covers_union_left hp hq hc h hcovers
  · exact covers_union_left hq hp hc (union_comm.1 h) hcovers

end Participants

theorem PartialDeps.combine_eq_ok_iff {p q s : PartialDeps} :
    p.combine q = .ok s ↔
      ∃ u, p.covering.union q.covering = .ok u ∧ s = ⟨u, .merge [p.deps, q.deps]⟩ := by
  rw [combine]
  cases hu : p.covering.union q.covering with
  | error cause => exact ⟨nofun, fun ⟨_, h, _⟩ => by cases h⟩
  | ok u =>
    simp only [Except.ok.injEq, exists_eq_left']
    exact eq_comm

namespace Participants

/-- Sets of ranges that lie in one table each are in order by coverage, but for ranges without
keys, and their unions are upper bounds in this order. What is put together keeps the coverage of
both parts. -/
theorem coverage_preorder {a b c : Participants} (ha : a.Created) (hb : b.Created)
    (hc : c.Created) :
    a.covers a = true ∧
    (a.covers b = true → b.covers c = true → (a.covers c = true ↔ ¬Hollow a b c)) ∧
    ((∃ u, a.union b = .ok u) ↔ a.domain = b.domain) ∧
    (∀ u, a.union b = .ok u →
      (a.covers c = true ∨ b.covers c = true → u.covers c = true) ∧
      (∀ k, u.containsKey k = true ↔ a.containsKey k = true ∨ b.containsKey k = true) ∧
      ∀ r, u.intersectsRange r = true ↔ a.intersectsRange r = true ∨ b.intersectsRange r = true) ∧
    (∀ u, a.union b = .ok u ↔ b.union a = .ok u) ∧
    (∀ u, (do let v ← a.union b; v.union c) = .ok u ↔
      (do let v ← b.union c; a.union v) = .ok u) ∧
    a.union a = .ok a ∧
    ∀ p q : PartialDeps, p.covering = a → q.covering = b →
      ((∃ s, p.combine q = .ok s) ↔ a.domain = b.domain) ∧
      ∀ s, p.combine q = .ok s → p.covers c = true ∨ q.covers c = true → s.covers c = true := by
  refine ⟨covers_refl ha, covers_trans_iff ha hb hc, exists_union_iff, fun u hu => ?_,
    fun u => union_comm, fun u => union_assoc, union_self a, ?_⟩
  · refine ⟨covers_union ha hb hc hu, fun k => ?_, fun r => ?_⟩
    · rw [containsKey_union hu, Bool.or_eq_true]
    · rw [intersectsRange_union hu, Bool.or_eq_true]
  · rintro p q rfl rfl
    refine ⟨?_, fun s hs => ?_⟩
    · rw [← exists_union_iff]
      simp only [PartialDeps.combine_eq_ok_iff]
      exact ⟨fun ⟨_, u, hu, _⟩ => ⟨u, hu⟩, fun ⟨u, hu⟩ => ⟨_, u, hu, rfl⟩⟩
    · obtain ⟨u, hu, rfl⟩ := PartialDeps.combine_eq_ok_iff.1 hs
      exact covers_union ha hb hc hu

/-- A key in a range, this across the border of two ranges that touch, and the union of all
three ranges. -/
theorem coverage_preorder_touching :
    let key := RoutingKey.token (.ofNat 7)
    let a := Participants.ranges (.ofList [⟨key 0, key 4⟩, ⟨key 4, key 8⟩])
    let b := Participants.ranges (.ofList [⟨key 2, key 6⟩])
    let c := Participants.keys (.ofList [key 5])
    a.Created ∧ b.Created ∧ c.Created ∧ a.covers b = true ∧ b.covers c = true ∧
      a.covers c = true ∧ ∃ u, a.union b = .ok u ∧ u.covers c = true := by
  intro key a b c
  have hleft : ∀ r ∈ a.rangeSet.toList, r.SingleTable := by decide
  have hright : ∀ r ∈ b.rangeSet.toList, r.SingleTable := by decide
  have ha : a.Created := .of_singleTable hleft
  have hb : b.Created := .of_singleTable hright
  have hc : c.Created := fun r hr => absurd hr List.not_mem_nil
  have hab : a.covers b = true := by decide
  have hbc : b.covers c = true := by decide
  obtain ⟨-, htrans, hunion, hcovers, -⟩ := coverage_preorder ha hb hc
  have hac : a.covers c = true := (htrans hab hbc).2 fun h => by cases h.keys
  obtain ⟨u, hu⟩ := hunion.2 rfl
  exact ⟨ha, hb, hc, hab, hbc, hac, u, hu, (hcovers u hu).1 (.inl hac)⟩

/-- No keys cover no ranges, and these cover the range between a key and itself, which is a range
and hence not covered by keys. -/
theorem covers_not_trans :
    let key := RoutingKey.token (.ofNat 7) 5
    let a := Participants.keys .empty
    let b := Participants.ranges .empty
    let c := Participants.ranges (.ofList [⟨key, key⟩])
    TokenRange.create key key = .ok ⟨key, key⟩ ∧ a.covers b = true ∧ b.covers c = true ∧
      a.covers c = false :=
  ⟨rfl, by decide⟩

end Participants

end TxnDeps
