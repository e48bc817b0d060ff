import Mathlib.Data.Bool.Count
import TxnDeps.Proofs.Sorted.Membership
import TxnDeps.Proofs.Wire.Uvarint
import TxnDeps.Wire.Subset

namespace TxnDeps

open Std (TransOrd LawfulEqOrd TransCmp)
open Step (Reads Safe)

namespace Marks

theorem absentBits_lt (marks : List Bool) : absentBits marks < 2 ^ marks.length := by
  induction marks with
  | nil => exact Nat.one_pos
  | cons mark marks ih =>
    rw [absentBits, List.length_cons, Nat.pow_succ]
    cases mark
    · rw [if_neg Bool.false_ne_true]
      omega
    · rw [if_pos rfl]
      omega

theorem and_two_pow_beq_zero (bits i : Nat) : (bits &&& 2 ^ i == 0) = !bits.testBit i := by
  have hset : (bits &&& 2 ^ i).testBit i = bits.testBit i := by
    rw [Nat.testBit_and, Nat.testBit_two_pow_self, Bool.and_true]
  cases h : bits.testBit i
  · have hzero : bits &&& 2 ^ i = 0 := by
      apply Nat.eq_of_testBit_eq
      intro j
      rw [Nat.testBit_and, Nat.testBit_two_pow, Nat.zero_testBit]
      by_cases hij : i = j
      · rw [← hij, h, Bool.false_and]
      · rw [decide_eq_false hij, Bool.and_false]
    rw [hzero]
    rfl
  · have hne : bits &&& 2 ^ i ≠ 0 := by
      intro hzero
      rw [hzero, h, Nat.zero_testBit] at hset
      cases hset
    exact beq_false_of_ne hne

theorem ofAbsentBits_eq_ok {bits i : Nat} {marks : List Bool} (hi : i + marks.length ≤ 64)
    (hbits : bits >>> i = absentBits marks) :
    ofAbsentBits bits marks.length i = .ok marks := by
  induction marks generalizing i with
  | nil => rfl
  | cons mark marks ih =>
    rw [List.length_cons] at hi ⊢
    rw [absentBits] at hbits
    have htail : bits >>> (i + 1) = absentBits marks := by
      rw [Nat.shiftRight_succ, hbits]
      cases mark
      · rw [if_neg Bool.false_ne_true]
        omega
      · rw [if_pos rfl]
        omega
    have hbit : (!bits.testBit i) = mark := by
      rw [Nat.testBit, Nat.and_comm, Nat.and_one_is_mod, hbits]
      cases mark
      · rw [if_neg Bool.false_ne_true, Nat.add_mul_mod_self_left]
        rfl
      · rw [if_pos rfl, Nat.add_mul_mod_self_left]
        rfl
    rw [ofAbsentBits, Halt.shiftLeft_one (by omega), ih (by omega) htail]
    change Except.ok ((bits &&& 2 ^ i == 0) :: marks) = _
    rw [and_two_pow_beq_zero, hbit]

theorem safe_ofAbsentBits (bits size i : Nat) (h : i + size ≤ 64) :
    Halt.Safe (ofAbsentBits bits size i) fun marks => marks.length = size := by
  induction size generalizing i with
  | zero => exact rfl
  | succ size ih =>
    have htail := ih (i + 1) (by omega)
    rw [ofAbsentBits, Halt.shiftLeft_one (by omega)]
    rcases hmarks : ofAbsentBits bits size (i + 1) with (_ | _) | marks
    · exact trivial
    · rw [hmarks] at htail
      exact htail
    · rw [hmarks] at htail
      exact congrArg Nat.succ htail

theorem le_of_mem_positions {wanted : Bool} {i p : Nat} {marks : List Bool}
    (h : p ∈ positions wanted i marks) : i ≤ p ∧ p < i + marks.length := by
  induction marks generalizing i with
  | nil => exact absurd h List.not_mem_nil
  | cons mark marks ih =>
    rw [positions] at h
    rw [List.length_cons]
    split at h
    · obtain rfl | h := List.mem_cons.1 h
      · omega
      · have := ih h
        omega
    · have := ih h
      omega

theorem pairwise_positions (wanted : Bool) (i : Nat) (marks : List Bool) :
    (positions wanted i marks).Pairwise (· < ·) := by
  induction marks generalizing i with
  | nil => exact List.Pairwise.nil
  | cons mark marks ih =>
    rw [positions]
    split
    · exact List.pairwise_cons.2 ⟨fun p hp => (le_of_mem_positions hp).1, ih (i + 1)⟩
    · exact ih (i + 1)

theorem length_positions (wanted : Bool) (i : Nat) (marks : List Bool) :
    (positions wanted i marks).length = marks.count wanted := by
  induction marks generalizing i with
  | nil => rfl
  | cons mark marks ih =>
    rw [positions]
    split
    · next h => rw [h, List.count_cons_self, List.length_cons, ih]
    · next h => rw [List.count_cons_of_ne h, ih]

theorem ofPositions?_positions (wanted : Bool) (i : Nat) (marks : List Bool) :
    ofPositions? wanted marks.length i (positions wanted i marks) = some marks := by
  induction marks generalizing i with
  | nil => rfl
  | cons mark marks ih =>
    rw [positions, List.length_cons]
    split
    · next h =>
      rw [ofPositions?, if_pos rfl, ih, h]
      rfl
    · next h =>
      have hmark : (!wanted) = mark := by
        cases wanted <;> cases mark <;> simp_all
      have htail := ih (i + 1)
      -- The next position, if there is one, lies beyond this mark.
      cases hp : positions wanted (i + 1) marks with
      | nil =>
        rw [hp] at htail
        rw [ofPositions?, htail, hmark]
        rfl
      | cons p ps =>
        have hle := (le_of_mem_positions (hp ▸ List.mem_cons_self)).1
        rw [hp] at htail
        rw [ofPositions?, if_neg (by omega), htail, hmark]
        rfl

theorem forall_mem_cons_of_lt {size i p : Nat} {ps : List Nat} (h : (p :: ps).Pairwise (· < ·))
    (hps : ∀ q ∈ p :: ps, q < i + (size + 1)) (hp : i < p) :
    ∀ q ∈ p :: ps, i + 1 ≤ q ∧ q < i + 1 + size := by
  intro q hq
  have hlt := hps q hq
  obtain rfl | hq := List.mem_cons.1 hq
  · omega
  · have hlater := (List.pairwise_cons.1 h).1 q hq
    omega

theorem exists_ofPositions? (wanted : Bool) {size i : Nat} {ps : List Nat}
    (horder : ps.Pairwise (· < ·)) (hps : ∀ p ∈ ps, i ≤ p ∧ p < i + size) :
    ∃ marks, ofPositions? wanted size i ps = some marks ∧ marks.length = size := by
  induction size generalizing i ps with
  | zero =>
    cases ps with
    | nil => exact ⟨[], rfl, rfl⟩
    | cons p ps =>
      have := hps p List.mem_cons_self
      omega
  | succ size ih =>
    cases ps with
    | nil =>
      obtain ⟨marks, hmarks, hlen⟩ := ih (i := i + 1) List.Pairwise.nil nofun
      rw [ofPositions?, hmarks]
      exact ⟨(!wanted) :: marks, rfl, congrArg Nat.succ hlen⟩
    | cons p ps =>
      obtain ⟨hlater, horder'⟩ := List.pairwise_cons.1 horder
      by_cases h : p = i
      · have htail : ∀ q ∈ ps, i + 1 ≤ q ∧ q < i + 1 + size := by
          intro q hq
          have := hlater q hq
          have := hps q (List.mem_cons_of_mem p hq)
          omega
        obtain ⟨marks, hmarks, hlen⟩ := ih horder' htail
        rw [ofPositions?, if_pos h, hmarks]
        exact ⟨wanted :: marks, rfl, congrArg Nat.succ hlen⟩
      · have hp := hps p List.mem_cons_self
        have htail := forall_mem_cons_of_lt horder (fun q hq => (hps q hq).2) (by omega)
        obtain ⟨marks, hmarks, hlen⟩ := ih horder htail
        rw [ofPositions?, if_neg h, hmarks]
        exact ⟨(!wanted) :: marks, rfl, congrArg Nat.succ hlen⟩

theorem exists_marks (wanted : Bool) {size : Nat} {ps : List Nat} (horder : ps.Pairwise (· < ·))
    (hps : ∀ p ∈ ps, p < size) :
    ∃ marks, ofPositions? wanted size 0 ps = some marks ∧ marks.length = size := by
  apply exists_ofPositions? wanted horder
  intro p hp
  have hlt := hps p hp
  omega

theorem count_eq (marks : List Bool) (wanted : Bool) :
    marks.count wanted = if wanted then present marks else marks.length - present marks := by
  have h := List.count_false_add_count_true marks
  cases wanted
  · rw [if_neg Bool.false_ne_true, present]
    omega
  · rfl

end Marks

namespace Reader

theorem not_any_le_iff {previous : Option Nat} {p : Nat} :
    ¬previous.any (p ≤ ·) = true ↔ ∀ q ∈ previous, q < p := by
  cases previous with
  | none => simp
  | some q => simp

theorem reads_increasing {size : Nat} (hsize : size < 2 ^ 64) {ps : List Nat}
    (horder : ps.Pairwise (· < ·)) (hps : ∀ p ∈ ps, p < size) {previous : Option Nat}
    (hprevious : ∀ q ∈ previous, ∀ p ∈ ps, q < p) :
    Reads (increasing size ps.length previous) (ps.flatMap Uvarint.encode) ps := by
  induction ps generalizing previous with
  | nil => exact Reads.pure []
  | cons p ps ih =>
    obtain ⟨hlater, horder'⟩ := List.pairwise_cons.1 horder
    have hp := hps p List.mem_cons_self
    have hinside : ¬size ≤ p := Nat.not_le.2 hp
    have habove := not_any_le_iff.2 fun q hq => hprevious q hq p List.mem_cons_self
    apply reads_position
    intro start
    apply (reads_uvarint (Nat.lt_trans hp hsize)).bind
    rw [if_neg hinside, if_neg habove]
    refine (ih horder' (fun q hq => hps q (List.mem_cons_of_mem p hq)) ?_).last (Reads.pure _)
    intro q hq r hr
    cases hq
    exact hlater r hr

/-- The positions of one kind of marks, from which the reader makes up the marks again. -/
theorem reads_listed {marks : List Bool} (h : marks.length < 2 ^ 64) (wanted : Bool) :
    Reads (do
      let listed ← increasing marks.length
        (if wanted then Marks.present marks else marks.length - Marks.present marks) none
      Step.ofExcept (Halt.expect .index (Marks.ofPositions? wanted marks.length 0 listed)))
      ((Marks.positions wanted 0 marks).flatMap Uvarint.encode) marks := by
  rw [← Marks.count_eq, ← Marks.length_positions wanted 0]
  refine (reads_increasing h (Marks.pairwise_positions wanted 0 marks) ?_ ?_).last ?_
  · intro p hp
    have := (Marks.le_of_mem_positions hp).2
    omega
  · intro q hq
    cases hq
  · rw [Marks.ofPositions?_positions]
    exact Reads.ofExcept rfl

theorem reads_marks {marks : List Bool} (h : marks.length < 2 ^ 64) :
    Reads (Reader.marks marks.length) (Marks.encode marks) marks := by
  apply reads_position
  intro start
  rw [Marks.encode]
  by_cases hsmall : marks.length < bitmapLimit
  · have hlt : marks.length < 64 := hsmall
    have hbits := Marks.absentBits_lt marks
    have hpow : 2 ^ marks.length < 2 ^ 64 := Nat.pow_lt_pow_right (by decide) hlt
    have hbeyond : Marks.absentBits marks >>> marks.length = 0 := by
      rw [Nat.shiftRight_eq_div_pow, Nat.div_eq_of_lt hbits]
    have hshift : (Halt.shiftRight (Marks.absentBits marks) marks.length :
        Except (Halt Fault) Nat) = .ok 0 := by
      rw [Halt.shiftRight_eq_ok hlt, hbeyond]
    rw [if_pos hsmall, if_pos hsmall]
    apply (reads_uvarint (Nat.lt_trans hbits hpow)).last
    apply (Reads.ofExcept hshift).last
    rw [if_neg (by decide)]
    exact Reads.ofExcept (Marks.ofAbsentBits_eq_ok (by omega) rfl)
  · have hle : Marks.present marks ≤ marks.length := List.count_le_length
    have hminus : (Halt.minus marks.length (marks.length - Marks.present marks) :
        Except (Halt Fault) Nat) = .ok (Marks.present marks) := by
      rw [Halt.minus_eq_ok (Nat.sub_le _ _), Nat.sub_sub_self hle]
    have hcount := (readsIf_count h (marks.length - Marks.present marks)).reads (Nat.sub_le _ _)
    rw [if_neg hsmall, if_neg hsmall]
    apply (hcount.mapError _).bind
    apply (Reads.ofExcept hminus).bind
    exact reads_listed h (Marks.listsPresent marks.length (Marks.present marks))

theorem safe_increasing (size count : Nat) (previous : Option Nat) :
    Safe (increasing size count previous) fun ps => ps.length = count ∧
      ps.Pairwise (· < ·) ∧ ∀ p ∈ ps, p < size ∧ ∀ q ∈ previous, q < p := by
  induction count generalizing previous with
  | zero => exact Safe.pure ⟨rfl, List.Pairwise.nil, nofun⟩
  | succ count ih =>
    apply safe_position.bind
    intro start _
    apply safe_uvarint.bind
    intro p _
    split
    · exact safe_failAt _ _
    · next hinside =>
      split
      · exact safe_failAt _ _
      · next habove =>
        refine (ih (some p)).bind fun ps hps => Safe.pure ?_
        obtain ⟨hlen, horder, hall⟩ := hps
        have hp : p < size ∧ ∀ q ∈ previous, q < p :=
          ⟨Nat.not_le.1 hinside, not_any_le_iff.1 habove⟩
        refine ⟨congrArg Nat.succ hlen, List.pairwise_cons.2 ⟨fun q hq => ?_, horder⟩, ?_⟩
        · exact (hall q hq).2 p rfl
        · refine List.forall_mem_cons.2 ⟨hp, fun q hq => ⟨(hall q hq).1, fun r hr => ?_⟩⟩
          exact Nat.lt_trans (hp.2 r hr) ((hall q hq).2 p rfl)

theorem safe_listed (size count : Nat) (wanted : Bool) :
    Safe (do
      let listed ← increasing size count none
      Step.ofExcept (Halt.expect .index (Marks.ofPositions? wanted size 0 listed)))
      fun marks => marks.length = size := by
  apply (safe_increasing size count none).bind
  rintro ps ⟨-, horder, hall⟩
  obtain ⟨marks, hmarks, hlen⟩ := Marks.exists_marks wanted horder fun p hp => (hall p hp).1
  rw [hmarks, Halt.expect_some]
  exact Safe.pure hlen

theorem safe_marks (size : Nat) : Safe (marks size) fun marks => marks.length = size := by
  apply safe_position.bind
  intro start _
  split
  · next hsmall =>
    have hlt : size < 64 := hsmall
    apply safe_uvarint.bind
    intro bits _
    apply (Safe.ofExcept (Halt.safe_shiftRight bits hlt)).bind
    intro beyond _
    split
    · exact safe_failAt _ _
    · exact Safe.ofExcept (Marks.safe_ofAbsentBits bits size 0 (by omega))
  · apply (safe_count size).mapError.bind
    intro missing hmissing
    apply (Safe.ofExcept (Halt.safe_minus hmissing)).bind
    intro present _
    exact safe_listed size _ (Marks.listsPresent size present)

end Reader

namespace SortedList

variable {α : Type} [Ord α] [TransOrd α] [LawfulEqOrd α]

omit [TransOrd α] [LawfulEqOrd α] in
theorem length_marksIn (xs ys : List α) : (marksIn xs ys).length = ys.length := by
  induction ys generalizing xs with
  | nil => rfl
  | cons y ys ih =>
    rw [marksIn]
    split
    · rw [List.length_cons, List.length_cons, ih]
    · split
      · rw [List.length_cons, List.length_cons, ih]
      · rw [List.length_cons, List.length_cons, ih]

theorem dropWhile_lt_eq_self {xs ys : List α} {y : α} (hy : Ascending (y :: ys))
    (h : ∀ x ∈ xs, x ∈ y :: ys) : xs.dropWhile (compare · y == .lt) = xs := by
  cases xs with
  | nil => rfl
  | cons x xs =>
    apply List.dropWhile_cons_of_neg
    intro hlt
    rw [beq_iff_eq] at hlt
    exact hy.not_mem_of_lt hlt (h x List.mem_cons_self)

theorem select_marksIn {xs ys : List α} (hx : Ascending xs) (hy : Ascending ys)
    (h : ∀ x ∈ xs, x ∈ ys) : Marks.select (marksIn xs ys) ys = xs := by
  induction ys generalizing xs with
  | nil =>
    have hnil : xs = [] := List.eq_nil_iff_forall_not_mem.2 fun x hx => List.not_mem_nil (h x hx)
    rw [hnil]
    rfl
  | cons y ys ih =>
    rw [marksIn, dropWhile_lt_eq_self hy h]
    cases xs with
    | nil => exact ih List.Pairwise.nil hy.tail nofun
    | cons x xs =>
      by_cases he : compare x y = .eq
      · have hxy : x = y := LawfulEqOrd.eq_of_compare he
        subst hxy
        have htail : ∀ z ∈ xs, z ∈ ys := fun z hz =>
          hx.mem_of_mem_cons hz (h z (List.mem_cons_of_mem x hz))
        change Marks.select (if compare x x = .eq then _ else _) (x :: ys) = _
        rw [if_pos he, Marks.select, ih hx.tail hy.tail htail]
      · have htail : ∀ z ∈ x :: xs, z ∈ ys := by
          intro z hz
          apply (List.mem_cons.1 (h z hz)).resolve_left
          rintro rfl
          obtain hzx | hz := List.mem_cons.1 hz
          · exact he (LawfulEqOrd.compare_eq_iff_eq.2 hzx.symm)
          · exact hy.not_mem_of_lt (hx.lt_of_mem hz) (h x List.mem_cons_self)
        change Marks.select (if compare x y = .eq then _ else _) (y :: ys) = _
        rw [if_neg he, Marks.select, ih hx hy.tail htail]

theorem checkSubset_eq_ok_iff {subset superset : SortedList α} :
    subset.checkSubset superset = .ok () ↔ ∀ x ∈ subset, x ∈ superset := by
  rw [checkSubset, ← isSubsetOf_eq_true_iff]
  split
  · next h => exact iff_of_true rfl h
  · next h => exact iff_of_false nofun h

theorem encodeIn_eq_ok {subset superset : SortedList α} (h : ∀ x ∈ subset, x ∈ superset) :
    subset.encodeIn superset = .ok (Marks.encode (subset.marks superset)) := by
  rw [encodeIn, checkSubset_eq_ok_iff.2 h]

theorem reads_readIn {subset superset : SortedList α} (h : ∀ x ∈ subset, x ∈ superset)
    (hsize : superset.size < 2 ^ 64) :
    Reads superset.readIn (Marks.encode (subset.marks superset)) subset := by
  have hlen : (subset.marks superset).length = superset.size := length_marksIn _ _
  have hmarks : Reads (Reader.marks (subset.marks superset).length)
      (Marks.encode (subset.marks superset)) (subset.marks superset) :=
    Reader.reads_marks (hlen ▸ hsize)
  have hpick : superset.pick (subset.marks superset) = subset :=
    ext (select_marksIn subset.ascending superset.ascending h)
  rw [hlen] at hmarks
  apply hmarks.last
  rw [hpick]
  exact Reads.pure subset

omit [TransOrd α] [LawfulEqOrd α] in
theorem safe_readIn (superset : SortedList α) : Safe superset.readIn fun _ => True :=
  (Reader.safe_marks superset.size).bind fun _ _ => Safe.pure trivial

end SortedList

end TxnDeps
