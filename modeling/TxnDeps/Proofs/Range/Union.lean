import TxnDeps.Proofs.Range.Coverage

namespace TxnDeps.Participants

def keySet : Participants → RoutingKeys
  | keys ks => ks
  | ranges _ => .empty

def rangeSet : Participants → Ranges
  | keys _ => .empty
  | ranges rs => rs

structure IsUnion (cs : List Participants) (u : Participants) : Prop where
  domain : ∀ c ∈ cs, c.domain = u.domain
  keys : ∀ k, k ∈ u.keySet ↔ ∃ c ∈ cs, k ∈ c.keySet
  ranges : ∀ r, r ∈ u.rangeSet ↔ ∃ c ∈ cs, r ∈ c.rangeSet

theorem ext_elements {p q : Participants} (hdomain : p.domain = q.domain)
    (hkeys : ∀ k, k ∈ p.keySet ↔ k ∈ q.keySet) (hranges : ∀ r, r ∈ p.rangeSet ↔ r ∈ q.rangeSet) :
    p = q := by
  cases p with
  | keys ks =>
    cases q with
    | keys ks' => exact congrArg keys (SortedList.ext_mem hkeys)
    | ranges rs' => cases hdomain
  | ranges rs =>
    cases q with
    | keys ks' => cases hdomain
    | ranges rs' => exact congrArg ranges (SortedList.ext_mem hranges)

theorem isUnion_singleton (c : Participants) : IsUnion [c] c where
  domain _ hc := by rw [List.mem_singleton.1 hc]
  keys _ := by simp
  ranges _ := by simp

namespace IsUnion

variable {cs cs' : List Participants} {u u' : Participants}

theorem unique (h : IsUnion cs u) (h' : IsUnion cs' u') (hcs : cs ≠ [])
    (hmem : ∀ c, c ∈ cs ↔ c ∈ cs') : u = u' := by
  obtain ⟨c, hc⟩ := List.exists_mem_of_ne_nil cs hcs
  have hdomain : u.domain = u'.domain :=
    (h.domain c hc).symm.trans (h'.domain c ((hmem c).1 hc))
  refine ext_elements hdomain (fun k => ?_) fun r => ?_
  · simp only [h.keys, h'.keys, hmem]
  · simp only [h.ranges, h'.ranges, hmem]

theorem append (h : IsUnion cs u) (h' : IsUnion cs' u') (hdomain : u.domain = u'.domain) :
    ∃ w, u.union u' = .ok w ∧ IsUnion (cs ++ cs') w := by
  have hmem : ∀ {p : Participants → Prop},
      (∃ c ∈ cs ++ cs', p c) ↔ (∃ c ∈ cs, p c) ∨ ∃ c ∈ cs', p c := by
    intro p
    simp only [List.mem_append, or_and_right, exists_or]
  have hall : ∀ c ∈ cs ++ cs', c.domain = u.domain := fun c hc =>
    (List.mem_append.1 hc).elim (h.domain c) fun hc => (h'.domain c hc).trans hdomain.symm
  cases u with
  | keys ks =>
    cases u' with
    | keys ks' =>
      refine ⟨.keys (ks.union ks'), rfl, hall, fun k => ?_, fun r => ?_⟩
      · rw [hmem, ← h.keys, ← h'.keys]
        exact SortedList.mem_union
      · rw [hmem, ← h.ranges, ← h'.ranges]
        exact or_self_iff.symm
    | ranges rs' => cases hdomain
  | ranges rs =>
    cases u' with
    | keys ks' => cases hdomain
    | ranges rs' =>
      refine ⟨.ranges (rs.union rs'), rfl, hall, fun k => ?_, fun r => ?_⟩
      · rw [hmem, ← h.keys, ← h'.keys]
        exact or_self_iff.symm
      · rw [hmem, ← h.ranges, ← h'.ranges]
        exact SortedList.mem_union

end IsUnion

theorem containsKey_union {p q u : Participants} (h : p.union q = .ok u) (k : RoutingKey) :
    u.containsKey k = (p.containsKey k || q.containsKey k) := by
  rw [Bool.eq_iff_iff, Bool.or_eq_true]
  cases p with
  | keys ks =>
    cases q with
    | keys ks' =>
      cases h
      simp only [containsKey, SortedList.contains_eq_true_iff, SortedList.mem_union]
    | ranges rs' => cases h
  | ranges rs =>
    cases q with
    | keys ks' => cases h
    | ranges rs' =>
      cases h
      simp only [containsKey, Ranges.containsKey_eq_true_iff, SortedList.mem_union, or_and_right,
        exists_or]

theorem intersectsRange_union {p q u : Participants} (h : p.union q = .ok u) (r : TokenRange) :
    u.intersectsRange r = (p.intersectsRange r || q.intersectsRange r) := by
  rw [Bool.eq_iff_iff, Bool.or_eq_true]
  cases p with
  | keys ks =>
    cases q with
    | keys ks' =>
      cases h
      have hmem : ∀ k, k ∈ (ks.union ks').toList ↔ k ∈ ks.toList ∨ k ∈ ks'.toList :=
        fun _ => mem_mergeOrdered
      simp only [intersectsRange, List.any_eq_true, hmem, or_and_right, exists_or]
    | ranges rs' => cases h
  | ranges rs =>
    cases q with
    | keys ks' => cases h
    | ranges rs' =>
      cases h
      simp only [intersectsRange, Ranges.intersects_eq_true_iff, SortedList.mem_union,
        or_and_right, exists_or]

end TxnDeps.Participants
