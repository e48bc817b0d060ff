import TxnDeps.MessagePack.Reader
import TxnDeps.Proofs.Halt
import TxnDeps.Wire.Reader

namespace TxnDeps

class Source (σ : Type) where
  rest : σ → Bytes
  advance : Nat → σ → σ
  advance_zero (s : σ) : advance 0 s = s
  advance_advance (m n : Nat) (s : σ) : advance n (advance m s) = advance (m + n) s
  rest_advance (n : Nat) (s : σ) : rest (advance n s) = (rest s).drop n

instance : Source Bytes where
  rest s := s
  advance n s := s.drop n
  advance_zero _ := rfl
  advance_advance _ _ _ := List.drop_drop
  rest_advance _ _ := rfl

instance : Source Cursor where
  rest c := c.rest
  advance n c := ⟨c.rest.drop n, c.position + n⟩
  advance_zero _ := rfl
  advance_advance m n c := by
    simp only [List.drop_drop, Nat.add_assoc]
  rest_advance _ _ := rfl

namespace Step

open Source (rest advance)

variable {σ ε α β : Type} [Source σ]

omit [Source σ] in
theorem run_mapError_of_ok {δ : Type} (f : ε → δ) {step : Step σ ε α} {s s' : σ} {a : α}
    (h : step.run s = (.ok a, s')) : (step.mapError f).run s = (.ok a, s') := by
  have hstep : step s = (.ok a, s') := h
  change Step.mapError f step s = _
  rw [Step.mapError, hstep]

omit [Source σ] in
theorem run_mapError_of_error {δ : Type} (f : ε → δ) {step : Step σ ε α} {s s' : σ} {e : ε}
    (h : step.run s = (.error e, s')) : (step.mapError f).run s = (.error (f e), s') := by
  have hstep : step s = (.error e, s') := h
  change Step.mapError f step s = _
  rw [Step.mapError, hstep]

omit [Source σ] in
theorem run_of_run_mapError {δ : Type} {f : ε → δ} {step : Step σ ε α} {s s' : σ} {a : α}
    (h : (step.mapError f).run s = (.ok a, s')) : step.run s = (.ok a, s') := by
  rcases hstep : step.run s with ⟨e | b, s₁⟩
  · rw [run_mapError_of_error f hstep] at h
    cases h
  · rw [run_mapError_of_ok f hstep] at h
    cases h
    rfl

omit [Source σ] in
theorem bind_assoc {γ : Type} (step : Step σ ε α) (next : α → Step σ ε β)
    (last : β → Step σ ε γ) :
    step >>= next >>= last = step >>= fun a => next a >>= last := by
  funext s
  change (step >>= next >>= last).run s = (step >>= fun a => next a >>= last).run s
  simp only [run_bind]
  rcases step.run s with ⟨_ | a, s'⟩ <;> rfl

omit [Source σ] in
theorem map_bind {γ : Type} (f : β → γ) (step : Step σ ε α) (next : α → Step σ ε β) :
    f <$> (step >>= next) = step >>= fun a => f <$> next a :=
  bind_assoc step next _

omit [Source σ] in
theorem map_ofExcept (f : α → β) (e : Except ε α) :
    f <$> (ofExcept e : Step σ ε α) = ofExcept (f <$> e) := by
  cases e <;> rfl

theorem rest_advance_of_append {s : σ} {bytes left : Bytes} (h : rest s = bytes ++ left) :
    rest (advance bytes.length s) = left := by
  rw [Source.rest_advance, h, List.drop_left]

/-- Wherever the bytes are next, the computation takes them and answers the value. -/
def Reads (step : Step σ ε α) (bytes : Bytes) (a : α) : Prop :=
  ∀ s left, rest s = bytes ++ left → step.run s = (.ok a, advance bytes.length s)

namespace Reads

theorem pure (a : α) : Reads (pure a : Step σ ε α) [] a := by
  intro s left _
  rw [run_pure, List.length_nil, Source.advance_zero]

theorem bind {step : Step σ ε α} {next : α → Step σ ε β} {bytes bytes' : Bytes} {a : α} {b : β}
    (h : Reads step bytes a) (hnext : Reads (next a) bytes' b) :
    Reads (step >>= next) (bytes ++ bytes') b := by
  intro s left hs
  rw [List.append_assoc] at hs
  rw [run_bind, h s _ hs, List.length_append, ← Source.advance_advance]
  exact hnext _ left (rest_advance_of_append hs)

theorem last {step : Step σ ε α} {next : α → Step σ ε β} {bytes : Bytes} {a : α} {b : β}
    (h : Reads step bytes a) (hnext : Reads (next a) [] b) : Reads (step >>= next) bytes b := by
  rw [← List.append_nil bytes]
  exact h.bind hnext

theorem map {step : Step σ ε α} {bytes : Bytes} {a : α} (f : α → β) (h : Reads step bytes a) :
    Reads (f <$> step) bytes (f a) :=
  h.last (pure (f a))

theorem ofExcept {e : Except ε α} {a : α} (h : e = .ok a) :
    Reads (ofExcept e : Step σ ε α) [] a := by
  subst h
  exact pure a

theorem mapError {δ : Type} {step : Step σ ε α} {bytes : Bytes} {a : α} (f : ε → δ)
    (h : Reads step bytes a) : Reads (step.mapError f) bytes a :=
  fun s left hs => run_mapError_of_ok f (h s left hs)

theorem times {step : Step σ ε α} {encode : α → Bytes} {xs : List α}
    (h : ∀ x ∈ xs, Reads step (encode x) x) :
    Reads (step.times xs.length) (xs.flatMap encode) xs := by
  induction xs with
  | nil => exact pure []
  | cons x xs ih =>
    have htail := ih fun y hy => h y (List.mem_cons_of_mem x hy)
    exact (h x List.mem_cons_self).bind (htail.last (pure (x :: xs)))

/-- What follows the bytes is left to the cursor. -/
theorem run_cursor {step : Step Cursor ε α} {bytes : Bytes} {a : α} (h : Reads step bytes a)
    (suffix : Bytes) (position : Nat) :
    step.run ⟨bytes ++ suffix, position⟩ = (.ok a, ⟨suffix, position + bytes.length⟩) := by
  have hleft : advance bytes.length ⟨bytes ++ suffix, position⟩ =
      (⟨suffix, position + bytes.length⟩ : Cursor) :=
    congrArg (Cursor.mk · _) List.drop_left
  rw [h ⟨bytes ++ suffix, position⟩ suffix rfl, hleft]

end Reads

def Refuses (step : Step σ (Halt ε) α) (bytes : Bytes) : Prop :=
  ∀ s left, rest s = bytes ++ left → ∃ e s', step.run s = (.error (.failed e), s')

/-- The bytes are read as the value if it fits, and refused if it does not. -/
structure ReadsIf (fits : Prop) (step : Step σ (Halt ε) α) (bytes : Bytes) (a : α) : Prop where
  reads : fits → Reads step bytes a
  refuses : ¬fits → Refuses step bytes

namespace Refuses

theorem fail (e : ε) (bytes : Bytes) : Refuses (fail (.failed e) : Step σ (Halt ε) α) bytes :=
  fun s _ _ => ⟨e, s, rfl⟩

theorem append {step : Step σ (Halt ε) α} {bytes : Bytes} (h : Refuses step bytes)
    (bytes' : Bytes) : Refuses step (bytes ++ bytes') := by
  intro s left hs
  rw [List.append_assoc] at hs
  exact h s _ hs

theorem bind {step : Step σ (Halt ε) α} {bytes : Bytes} (h : Refuses step bytes)
    (next : α → Step σ (Halt ε) β) : Refuses (step >>= next) bytes := by
  intro s left hs
  obtain ⟨e, s', hrun⟩ := h s left hs
  rw [run_bind, hrun]
  exact ⟨e, s', rfl⟩

theorem after {step : Step σ (Halt ε) α} {next : α → Step σ (Halt ε) β} {bytes bytes' : Bytes}
    {a : α} (h : Reads step bytes a) (hnext : Refuses (next a) bytes') :
    Refuses (step >>= next) (bytes ++ bytes') := by
  intro s left hs
  rw [List.append_assoc] at hs
  have hrest := rest_advance_of_append hs
  rw [run_bind, h s _ hs]
  exact hnext _ left hrest

theorem last {step : Step σ (Halt ε) α} {next : α → Step σ (Halt ε) β} {bytes : Bytes} {a : α}
    (h : Reads step bytes a) (hnext : Refuses (next a) []) : Refuses (step >>= next) bytes := by
  rw [← List.append_nil bytes]
  exact after h hnext

theorem run_ne_ok {step : Step σ (Halt ε) α} {bytes left : Bytes} {s : σ} {a : α}
    (h : Refuses step bytes) (hs : rest s = bytes ++ left) : (step.run s).1 ≠ .ok a := by
  obtain ⟨e, s', hrun⟩ := h s left hs
  rw [hrun]
  exact nofun

end Refuses

theorem Reads.readsIf {step : Step σ (Halt ε) α} {bytes : Bytes} {a : α}
    (h : Reads step bytes a) : ReadsIf True step bytes a :=
  ⟨fun _ => h, fun hno => absurd trivial hno⟩

namespace ReadsIf

variable {p q : Prop} {step : Step σ (Halt ε) α} {bytes bytes' : Bytes} {a : α} {b : β}

theorem of_iff (h : ReadsIf p step bytes a) (hpq : p ↔ q) : ReadsIf q step bytes a :=
  ⟨fun hq => h.reads (hpq.2 hq), fun hq => h.refuses fun hp => hq (hpq.1 hp)⟩

theorem ofExcept {e : Except (Halt ε) α} (hsafe : Halt.Safe e fun _ => True)
    (h : ∀ b, e = .ok b ↔ p ∧ b = a) : ReadsIf p (ofExcept e : Step σ (Halt ε) α) [] a where
  reads hp := Reads.ofExcept ((h a).2 ⟨hp, rfl⟩)
  refuses hno := by
    obtain (e | _) | b := e
    · exact Refuses.fail e []
    · exact absurd hsafe id
    · exact absurd ((h b).1 rfl).1 hno

theorem bind {next : α → Step σ (Halt ε) β} (h : ReadsIf p step bytes a)
    (hnext : p → ReadsIf q (next a) bytes' b) : ReadsIf (p ∧ q) (step >>= next) (bytes ++ bytes') b
    where
  reads hpq := (h.reads hpq.1).bind ((hnext hpq.1).reads hpq.2)
  refuses hno := by
    by_cases hp : p
    · exact Refuses.after (h.reads hp) ((hnext hp).refuses fun hq => hno ⟨hp, hq⟩)
    · exact ((h.refuses hp).append bytes').bind next

theorem run_eq_ok_iff {left : Bytes} {s : σ} {b : α} (h : ReadsIf p step bytes a)
    (hs : rest s = bytes ++ left) : (step.run s).1 = .ok b ↔ p ∧ b = a := by
  by_cases hp : p
  · rw [h.reads hp s left hs]
    simp [hp, eq_comm]
  · exact iff_of_false ((h.refuses hp).run_ne_ok hs) fun hno => hp hno.1

theorem check {next : α → Step σ (Halt ε) β} (h : ReadsIf p step bytes a)
    (hnext : p → ReadsIf q (next a) [] b) : ReadsIf (p ∧ q) (step >>= next) bytes b := by
  rw [← List.append_nil bytes]
  exact h.bind hnext

theorem last {next : α → Step σ (Halt ε) β} (h : ReadsIf p step bytes a)
    (hnext : p → Reads (next a) [] b) : ReadsIf p (step >>= next) bytes b :=
  (h.check fun hp => (hnext hp).readsIf).of_iff (iff_of_eq (and_true p))

end ReadsIf

theorem Reads.check {q : Prop} {step : Step σ (Halt ε) α} {next : α → Step σ (Halt ε) β}
    {bytes : Bytes} {a : α} {b : β} (h : Reads step bytes a) (hnext : ReadsIf q (next a) [] b) :
    ReadsIf q (step >>= next) bytes b :=
  (h.readsIf.check fun _ => hnext).of_iff (iff_of_eq (true_and q))

theorem Reads.bindIf {q : Prop} {step : Step σ (Halt ε) α} {next : α → Step σ (Halt ε) β}
    {bytes bytes' : Bytes} {a : α} {b : β} (h : Reads step bytes a)
    (hnext : ReadsIf q (next a) bytes' b) : ReadsIf q (step >>= next) (bytes ++ bytes') b :=
  (h.readsIf.bind fun _ => hnext).of_iff (iff_of_eq (true_and q))

end Step

theorem Bytes.split?_append (bytes left : Bytes) :
    Bytes.split? bytes.length (bytes ++ left) = some (bytes, left) := by
  induction bytes with
  | nil => cases left <;> rfl
  | cons b bytes ih =>
    rw [List.length_cons, List.cons_append, Bytes.split?, ih]
    rfl

namespace Reader

open Step (Reads ReadsIf Refuses Safe)

variable {α : Type} {p : Prop} {bytes : Bytes} {a : α}

theorem byte_cons (b : UInt8) (left : Bytes) (start : Nat) :
    byte ⟨b :: left, start⟩ = (.ok b, ⟨left, start + 1⟩) := by
  cases left <;> rfl

/-- From a cursor a byte has been read, its place is the one where the cursor was. -/
theorem byte_bind {next : UInt8 → Reader α} {next' : Nat → UInt8 → Reader α}
    (h : ∀ start b left, next b ⟨left, start + 1⟩ = next' start b ⟨left, start + 1⟩) :
    byte >>= next = position >>= fun start => byte >>= next' start := by
  funext c
  obtain ⟨_ | ⟨b, left⟩, start⟩ := c
  · rfl
  · have hbyte := byte_cons b left start
    exact (Step.run_bind_of_ok hbyte).trans
      ((h start b left).trans (Step.run_bind_of_ok hbyte).symm)

theorem failBefore_succ (defect : Defect) (left : Bytes) (start : Nat) :
    (failBefore defect : Reader α) ⟨left, start + 1⟩ = failAt start defect ⟨left, start + 1⟩ :=
  rfl

theorem reads_byte (b : UInt8) : Reads byte [b] b := by
  rintro ⟨rest, start⟩ left hc
  obtain rfl : rest = b :: left := hc
  exact byte_cons b left start

theorem readsIf_position {next : Nat → Reader α} (h : ∀ start, ReadsIf p (next start) bytes a) :
    ReadsIf p (position >>= next) bytes a :=
  ⟨fun hp c left hc => (h c.position).reads hp c left hc,
    fun hno c left hc => (h c.position).refuses hno c left hc⟩

theorem refuses_position {next : Nat → Reader α} (h : ∀ start, Refuses (next start) bytes) :
    Refuses (position >>= next) bytes :=
  fun c left hc => h c.position c left hc

theorem reads_position {next : Nat → Reader α} (h : ∀ start, Reads (next start) bytes a) :
    Reads (position >>= next) bytes a :=
  fun c left hc => h c.position c left hc

theorem refuses_failAt (offset : Nat) (defect : Defect) :
    Refuses (failAt offset defect : Reader α) bytes :=
  fun c _ _ => ⟨⟨offset, defect⟩, c, rfl⟩

theorem reads_bytes (taken : Bytes) : Reads (Reader.bytes taken.length) taken taken := by
  intro c left hc
  have hrest : c.rest = taken ++ left := hc
  change Cursor.take taken.length c = (.ok taken, ⟨c.rest.drop taken.length, _⟩)
  rw [Cursor.take, hrest, Bytes.split?_append, List.drop_left]

theorem bool_eq :
    bool = position >>= fun start => byte >>= fun b =>
      if b = 0 then pure false else if b = 1 then pure true else failAt start (.boolean b) := by
  apply byte_bind
  intro start b left
  split
  · rfl
  · split
    · rfl
    · exact failBefore_succ _ left start

theorem reads_bool (b : Bool) : Reads bool (Bytes.ofBool b) b := by
  rw [bool_eq]
  apply reads_position
  intro start
  cases b with
  | false => exact (reads_byte 0).last (Reads.pure false)
  | true => exact (reads_byte 1).last (Reads.pure true)

theorem reads_int64 (v : Int64) : Reads int64 (Bytes.ofInt64 v) v := by
  have hlen : (Bytes.ofInt64 v).length = 8 := Bytes.length_bigEndian 8 _
  have htake : Reads (Reader.bytes 8) (Bytes.ofInt64 v) (Bytes.ofInt64 v) :=
    hlen ▸ reads_bytes (Bytes.ofInt64 v)
  have hlt : v.toUInt64.toNat < Bytes.capacity 8 := v.toUInt64.toNat_lt
  have hvalue : (UInt64.ofNat (Bytes.ofBigEndian (Bytes.ofInt64 v))).toInt64 = v := by
    rw [Bytes.ofInt64, Bytes.ofBigEndian_bigEndian, Nat.mod_eq_of_lt hlt, UInt64.ofNat_toNat]
    rfl
  apply htake.last
  rw [hvalue]
  exact Reads.pure v

theorem safe_position : Safe position fun _ => True := fun _ => trivial

theorem safe_failAt {q : α → Prop} (offset : Nat) (defect : Defect) :
    Safe (failAt offset defect : Reader α) q := Safe.fail _

theorem safe_byte : Safe byte fun _ => True := by
  rintro ⟨_ | ⟨b, left⟩, start⟩
  · exact trivial
  · have hbyte : byte.run ⟨b :: left, start⟩ = (.ok b, ⟨left, start + 1⟩) := byte_cons b left start
    rw [hbyte]
    exact trivial

theorem safe_bytes (n : Nat) : Safe (Reader.bytes n) fun _ => True := by
  intro c
  change Halt.Safe (Cursor.take n c).1 _
  rw [Cursor.take]
  split <;> exact trivial

theorem safe_int64 : Safe int64 fun _ => True :=
  (safe_bytes 8).bind fun _ _ => Safe.pure trivial

theorem safe_bool : Safe bool fun _ => True := by
  rw [bool_eq]
  apply safe_position.bind
  intro start _
  apply safe_byte.bind
  intro b _
  split
  · exact Safe.pure trivial
  · split
    · exact Safe.pure trivial
    · exact safe_failAt _ _

end Reader

end TxnDeps
