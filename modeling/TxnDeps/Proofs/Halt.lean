import Mathlib.Algebra.Group.Nat.Defs
import TxnDeps.Halt
import TxnDeps.Step

namespace TxnDeps

namespace Halt

variable {ε α β : Type}

theorem bind_eq_ok_iff {e : Except ε α} {next : α → Except ε β} {b : β} :
    e >>= next = .ok b ↔ ∃ a, e = .ok a ∧ next a = .ok b := by
  cases e with
  | error _ => exact ⟨nofun, fun ⟨_, h, _⟩ => by cases h⟩
  | ok a => exact ⟨fun h => ⟨a, rfl, h⟩, fun ⟨_, h, hb⟩ => by cases h; exact hb⟩

theorem map_eq_ok_iff {e : Except ε α} {f : α → β} {b : β} :
    e.map f = .ok b ↔ ∃ a, e = .ok a ∧ f a = b := by
  cases e <;> simp [Except.map]

theorem map_eq_error_iff {e : Except ε α} {f : α → β} {err : ε} :
    e.map f = .error err ↔ e = .error err := by
  cases e <;> simp [Except.map]

theorem forM_eq_ok_iff {xs : List α} {step : α → Except ε Unit} :
    xs.forM step = .ok () ↔ ∀ x ∈ xs, step x = .ok () := by
  induction xs with
  | nil => simp [List.forM, pure, Except.pure]
  | cons x xs ih =>
    change (step x >>= fun _ => xs.forM step) = .ok () ↔ _
    rw [bind_eq_ok_iff, List.forall_mem_cons, ih]
    exact ⟨fun ⟨_, hx, hxs⟩ => ⟨hx, hxs⟩, fun ⟨hx, hxs⟩ => ⟨(), hx, hxs⟩⟩

theorem mapM_eq_ok {xs : List α} {step : α → Except ε β} {f : α → β}
    (h : ∀ x ∈ xs, step x = .ok (f x)) : xs.mapM step = .ok (xs.map f) := by
  induction xs with
  | nil => rfl
  | cons x xs ih =>
    have htail := ih fun y hy => h y (List.mem_cons_of_mem x hy)
    rw [List.mapM_cons, h x List.mem_cons_self, htail]
    rfl

theorem filterAuxM_eq_ok {xs : List α} {step : α → Except ε Bool} {keep : α → Bool}
    (h : ∀ x ∈ xs, step x = .ok (keep x)) (acc : List α) :
    xs.filterAuxM step acc = .ok ((xs.filter keep).reverse ++ acc) := by
  induction xs generalizing acc with
  | nil => rfl
  | cons x xs ih =>
    have htail := ih fun y hy => h y (List.mem_cons_of_mem x hy)
    rw [List.filterAuxM, h x List.mem_cons_self]
    change xs.filterAuxM step (cond (keep x) (x :: acc) acc) = _
    rw [htail]
    cases hx : keep x with
    | true => simp [hx]
    | false => simp [hx]

theorem filterM_eq_ok {xs : List α} {step : α → Except ε Bool} {keep : α → Bool}
    (h : ∀ x ∈ xs, step x = .ok (keep x)) : xs.filterM step = .ok (xs.filter keep) := by
  rw [List.filterM, filterAuxM_eq_ok h []]
  simp [bind, Except.bind, pure, Except.pure]

@[simp]
theorem expect_some (trap : Trap) (a : α) : (expect trap (some a) : Except (Halt ε) α) = .ok a :=
  rfl

theorem expect_eq_ok_iff {trap : Trap} {a? : Option α} {a : α} :
    (expect trap a? : Except (Halt ε) α) = .ok a ↔ a? = some a := by
  cases a? with
  | none => exact ⟨nofun, nofun⟩
  | some b => simp [expect]

theorem minus_eq_ok {m n : Nat} (h : n ≤ m) : (minus m n : Except (Halt ε) Nat) = .ok (m - n) :=
  if_pos h

theorem shiftRight_eq_ok {n k : Nat} (h : k < 64) :
    (shiftRight n k : Except (Halt ε) Nat) = .ok (n >>> k) :=
  if_pos h

theorem shiftLeft_eq_ok {n k : Nat} (hk : k < 64) (hn : n * 2 ^ k < 2 ^ 64) :
    (shiftLeft n k : Except (Halt ε) Nat) = .ok (n * 2 ^ k) := by
  have hsize : UInt64.size = 2 ^ 64 := rfl
  rw [shiftLeft, if_pos hk, Nat.shiftLeft_eq, hsize, Nat.mod_eq_of_lt hn]

theorem shiftLeft_one {k : Nat} (hk : k < 64) :
    (shiftLeft 1 k : Except (Halt ε) Nat) = .ok (2 ^ k) := by
  have hlt : 1 * 2 ^ k < 2 ^ 64 := by
    rw [Nat.one_mul]
    exact Nat.pow_lt_pow_right (by decide) hk
  rw [shiftLeft_eq_ok hk hlt, Nat.one_mul]

/-- The computation gives no value without the property, and does not trap. -/
def Safe (e : Except (Halt ε) α) (property : α → Prop) : Prop :=
  match e with
  | .ok a => property a
  | .error (.failed _) => True
  | .error (.trapped _) => False

namespace Safe

variable {p q : α → Prop}

theorem ok {a : α} (h : p a) : Safe (.ok a : Except (Halt ε) α) p := h

theorem of_ok {e : Except (Halt ε) α} {a : α} (h : Safe e p) (he : e = .ok a) : p a := by
  subst he
  exact h

theorem and_of_ok {e : Except (Halt ε) α} (h : Safe e p) (hq : ∀ a, e = .ok a → q a) :
    Safe e fun a => p a ∧ q a := by
  obtain (_ | _) | a := e
  · exact h
  · exact h
  · exact ⟨h, hq a rfl⟩

theorem mono {e : Except (Halt ε) α} (h : Safe e p) (hpq : ∀ a, p a → q a) : Safe e q := by
  obtain (_ | _) | a := e
  · exact h
  · exact h
  · exact hpq a h

theorem bind {r : β → Prop} {e : Except (Halt ε) α} {next : α → Except (Halt ε) β}
    (h : Safe e p) (hnext : ∀ a, p a → Safe (next a) r) : Safe (e >>= next) r := by
  obtain (_ | _) | a := e
  · exact h
  · exact h
  · exact hnext a h

theorem exists_eq_ok {e : Except (Halt Empty) α} (h : Safe e p) : ∃ a, e = .ok a ∧ p a := by
  obtain (none | _) | a := e
  · cases none
  · exact absurd h id
  · exact ⟨a, rfl, h⟩

theorem foldlM {xs : List β} {step : α → β → Except (Halt ε) α} {a : α}
    (h : ∀ a, p a → ∀ x ∈ xs, Safe (step a x) p) (ha : p a) : Safe (xs.foldlM step a) p := by
  induction xs generalizing a with
  | nil => exact ha
  | cons x xs ih =>
    rw [List.foldlM_cons]
    refine (h a ha x List.mem_cons_self).bind fun b hb => ih (fun c hc y hy => ?_) hb
    exact h c hc y (List.mem_cons_of_mem x hy)

theorem forM {xs : List β} {step : β → Except (Halt ε) Unit}
    (h : ∀ x ∈ xs, Safe (step x) fun _ => True) : Safe (xs.forM step) fun _ => True := by
  induction xs with
  | nil => exact trivial
  | cons x xs ih =>
    exact bind (h x List.mem_cons_self) fun _ _ => ih fun y hy => h y (List.mem_cons_of_mem x hy)

theorem mapM {xs : List β} {step : β → Except (Halt ε) α} (h : ∀ x ∈ xs, Safe (step x) p) :
    Safe (xs.mapM step) fun as => ∀ a ∈ as, p a := by
  induction xs with
  | nil => exact ok nofun
  | cons x xs ih =>
    rw [List.mapM_cons]
    refine (h x List.mem_cons_self).bind fun a ha => ?_
    refine (ih fun y hy => h y (List.mem_cons_of_mem x hy)).bind fun as has => ?_
    exact ok (List.forall_mem_cons.2 ⟨ha, has⟩)

end Safe

theorem safe_minus {m n : Nat} (h : n ≤ m) :
    Safe (minus m n : Except (Halt ε) Nat) (· = m - n) := by
  rw [minus_eq_ok h]
  exact rfl

theorem safe_shiftRight (n : Nat) {k : Nat} (hk : k < 64) :
    Safe (shiftRight n k : Except (Halt ε) Nat) fun _ => True := by
  rw [shiftRight_eq_ok hk]
  exact trivial

theorem safe_shiftLeft (n : Nat) {k : Nat} (hk : k < 64) :
    Safe (shiftLeft n k : Except (Halt ε) Nat) fun bits => bits < 2 ^ 64 := by
  rw [shiftLeft, if_pos hk]
  exact Nat.mod_lt _ (Nat.two_pow_pos 64)

end Halt

namespace Step

variable {σ ε α β : Type}

def Safe (step : Step σ (Halt ε) α) (property : α → Prop) : Prop :=
  ∀ s, Halt.Safe (step.run s).1 property

namespace Safe

variable {step : Step σ (Halt ε) α} {p q : α → Prop} {r : β → Prop}

theorem pure {a : α} (h : p a) : Safe (pure a : Step σ (Halt ε) α) p := fun _ => h

theorem fail (e : ε) : Safe (fail (.failed e) : Step σ (Halt ε) α) p := fun _ => trivial

theorem mono (h : Safe step p) (hpq : ∀ a, p a → q a) : Safe step q := fun s => (h s).mono hpq

theorem bind {next : α → Step σ (Halt ε) β} (h : Safe step p)
    (hnext : ∀ a, p a → Safe (next a) r) : Safe (step >>= next) r := by
  intro s
  have hs := h s
  rw [run_bind]
  rcases hrun : step.run s with ⟨(_ | _) | a, s'⟩
  · exact trivial
  · rw [hrun] at hs
    exact hs
  · rw [hrun] at hs
    exact hnext a hs s'

theorem bind_congr {next next' : α → Step σ (Halt ε) β} (h : Safe step p)
    (hnext : ∀ a, p a → next a = next' a) : step >>= next = step >>= next' := by
  funext s
  change (step >>= next).run s = (step >>= next').run s
  have hs := h s
  rw [run_bind, run_bind]
  rcases hrun : step.run s with ⟨e | a, s'⟩
  · rfl
  · rw [hrun] at hs
    exact congrFun (hnext a hs) s'

theorem map {f : α → β} (h : Safe step fun a => r (f a)) : Safe (f <$> step) r :=
  h.bind fun _ ha => pure ha

theorem ofExcept {e : Except (Halt ε) α} (h : Halt.Safe e p) :
    Safe (ofExcept e : Step σ (Halt ε) α) p := by
  intro s
  obtain (_ | _) | a := e
  · exact h
  · exact h
  · exact h

theorem mapError {δ : Type} {f : ε → δ} (h : Safe step p) :
    Safe (step.mapError (Halt.map f)) p := by
  intro s
  have hs : Halt.Safe (step s).1 p := h s
  change Halt.Safe (Step.mapError (Halt.map f) step s).1 p
  rw [Step.mapError]
  rcases hrun : step s with ⟨(_ | _) | a, s'⟩ <;> rw [hrun] at hs
  · exact hs
  · exact hs
  · exact hs

theorem times (h : Safe step p) (n : Nat) :
    Safe (step.times n) fun xs => xs.length = n ∧ ∀ x ∈ xs, p x := by
  induction n with
  | zero => exact pure ⟨rfl, nofun⟩
  | succ n ih =>
    refine h.bind fun a ha => ih.bind fun xs hxs => pure ⟨?_, ?_⟩
    · rw [List.length_cons, hxs.1]
    · exact List.forall_mem_cons.2 ⟨ha, hxs.2⟩

end Safe

end Step

end TxnDeps
