import TxnDeps.Proofs.Graph.WellFormed
import TxnDeps.Proofs.Wire.Element
import TxnDeps.Wire.DepsCodec.Form

namespace TxnDeps

open Std (TransOrd LawfulEqOrd)
open Step (Reads ReadsIf Refuses Safe)

namespace Graph

variable {α : Type} [Ord α]

structure Within (g : Graph α) (limit : Nat) : Prop where
  txns : g.txnIds.length ≤ limit
  links : g.links.length ≤ limit

instance (g : Graph α) (limit : Nat) : Decidable (g.Within limit) :=
  decidable_of_iff (g.txnIds.length ≤ limit ∧ g.links.length ≤ limit)
    ⟨fun h => ⟨h.1, h.2⟩, fun h => ⟨h.1, h.2⟩⟩

theorem Within.mono {g : Graph α} {limit limit' : Nat} (h : g.Within limit)
    (hle : limit ≤ limit') : g.Within limit' :=
  ⟨Nat.le_trans h.txns hle, Nat.le_trans h.links hle⟩

/-- No key set needs a limit of its own, since each key has an entry among the links. -/
theorem WellFormed.size_keys_le_limit {g : Graph α} {limit : Nat} (h : g.WellFormed)
    (hlimit : g.Within limit) : g.keys.size ≤ limit :=
  Nat.le_trans h.size_keys_le hlimit.links

end Graph

namespace Reader

variable {α : Type} [Ord α]

theorem readsIf_txnIds {limit : Nat} (hlimit : limit < 2 ^ 64) (txns : List TxnId) :
    ReadsIf (txns.length ≤ limit ∧ Ascending txns) (txnIds limit)
      (Uvarint.encode txns.length ++ txns.flatMap (·.encode)) txns := by
  apply readsIf_position
  intro start
  refine (readsIf_count hlimit txns.length).bind fun _ => ?_
  apply (Reads.times fun t _ => reads_txnId t).check
  split
  · next h => exact (Reads.pure txns).readsIf.of_iff (iff_of_true trivial (ascends_eq_true_iff.1 h))
  · next h =>
    exact ⟨fun hno => absurd (ascends_eq_true_iff.2 hno) h, fun _ => refuses_failAt start _⟩

theorem checkEntries_eq_ok_iff {g : Graph α} {runs : List (List UInt32)} (hruns : g.HasRuns runs)
    (htxns : Ascending g.txnIds) (start : Nat) :
    checkEntries start g = .ok () ↔ ∀ run ∈ runs, Ascending run := by
  have hentry : ∀ i (hi : i < runs.length),
      (do
        let txns ← Halt.expect .index (g.txnsAt? i)
        if ascends txns then pure () else .error (.failed ⟨start, .runOrder i⟩) :
        Except (Halt Fault) Unit) = .ok () ↔ Ascending runs[i] := by
    intro i hi
    rw [hruns.txnsAt?_eq_some hi, Halt.expect_some]
    change (if ascends (runs[i].map g.txnAt) = true then _ else _) = _ ↔ _
    rw [← Graph.ascending_map_txnAt_iff htxns (hruns.indexes _ (List.getElem_mem hi)),
      ← ascends_eq_true_iff]
    split
    · next h => exact iff_of_true rfl h
    · next h => exact iff_of_false nofun h
  rw [checkEntries, Halt.forM_eq_ok_iff]
  refine Iff.trans ?_ List.forall_mem_iff_forall_getElem.symm
  constructor
  · intro h i hi
    exact (hentry i hi).1 (h i (List.mem_range.2 (hruns.length ▸ hi)))
  · intro h i hi
    have hlt : i < runs.length := hruns.length.symm ▸ List.mem_range.1 hi
    exact (hentry i hlt).2 (h i hlt)

theorem safe_checkEntries {g : Graph α} {runs : List (List UInt32)} (hruns : g.HasRuns runs)
    (start : Nat) : Halt.Safe (checkEntries start g) fun _ => True := by
  apply Halt.Safe.forM
  intro i hi
  have hlt : i < runs.length := hruns.length.symm ▸ List.mem_range.1 hi
  rw [hruns.txnsAt?_eq_some hlt, Halt.expect_some]
  change Halt.Safe (if ascends _ = true then _ else _) _
  split <;> exact trivial

theorem readsIf_ofParts {g : Graph α} (htxns : Ascending g.txnIds) (start : Nat) :
    ReadsIf g.WellFormed
      (match Graph.ofParts g.keys g.txnIds g.links with
        | .error halt => Step.fail (halt.map fun defect => ⟨start, .graph defect⟩)
        | .ok g => do
          Step.ofExcept (checkEntries start g)
          pure g : Reader (Graph α)) [] g := by
  have hsafe := Graph.safe_ofParts g.keys g.txnIds g.links
  rcases hparts : Graph.ofParts g.keys g.txnIds g.links with (defect | _) | built
  · have hno : ¬g.WellFormed := by
      rintro ⟨-, runs, hruns, -⟩
      rw [Graph.ofParts_eq_ok hruns] at hparts
      cases hparts
    have hrefuses : Refuses (Step.fail (.failed ⟨start, .graph defect⟩) : Reader (Graph α)) [] :=
      Refuses.fail _ []
    exact ⟨fun h => absurd h hno, fun _ => hrefuses⟩
  · rw [hparts] at hsafe
    exact absurd hsafe id
  · obtain ⟨rfl, runs, hruns⟩ := hsafe.of_ok hparts
    have hcheck : ReadsIf (∀ run ∈ runs, Ascending run)
        (Step.ofExcept (checkEntries start g) : Reader Unit) [] () :=
      ReadsIf.ofExcept (safe_checkEntries hruns start) fun _ =>
        (checkEntries_eq_ok_iff hruns htxns start).trans (and_iff_left rfl).symm
    exact (hcheck.last fun _ => Reads.pure g).of_iff (hruns.wellFormed_iff htxns).symm

/-- Of the arrays that the limit admits, those of well-formed graphs are read. -/
theorem readsIf_arrays {limit : Nat} (hlimit : limit < 2 ^ 64) (g : Graph α) :
    ReadsIf (g.WellFormed ∧ g.Within limit) (body limit g.keys) g.encodeBody g := by
  have hfits : (g.txnIds.length ≤ limit ∧ Ascending g.txnIds) ∧ g.links.length ≤ limit ∧
      g.WellFormed ↔ g.WellFormed ∧ g.Within limit := by
    constructor
    · exact fun h => ⟨h.2.2, h.1.1, h.2.1⟩
    · exact fun h => ⟨⟨h.2.txns, h.1.txns⟩, h.2.links, h.1⟩
  rw [Graph.encodeBody, List.append_assoc]
  refine ReadsIf.of_iff ((readsIf_txnIds hlimit g.txnIds).bind fun htxns => ?_) hfits
  apply readsIf_position
  intro start
  refine (readsIf_count hlimit g.links.length).bind fun _ => ?_
  exact (Reads.times fun link _ => reads_uvarint32 link).check (readsIf_ofParts htxns.2 start)

theorem readsIf_body {limit : Nat} (hlimit : limit < 2 ^ 64) {g : Graph α} (h : g.WellFormed) :
    ReadsIf (g.Within limit) (body limit g.keys) g.encodeBody g :=
  (readsIf_arrays hlimit g).of_iff ⟨And.right, fun hwithin => ⟨h, hwithin⟩⟩

theorem safe_txnIds (limit : Nat) :
    Safe (txnIds limit) fun txns => txns.length ≤ limit ∧ Ascending txns := by
  apply safe_position.bind
  intro start _
  apply (safe_count limit).bind
  intro count hcount
  apply (safe_txnId.times count).bind
  intro txns htxns
  split
  · next horder => exact Safe.pure ⟨htxns.1 ▸ hcount, ascends_eq_true_iff.1 horder⟩
  · exact safe_failAt _ _

theorem safe_body (limit : Nat) (keys : SortedList α) :
    Safe (body limit keys) fun g => g.keys = keys ∧ g.WellFormed ∧ g.Within limit := by
  apply (safe_txnIds limit).bind
  intro txns htxns
  apply safe_position.bind
  intro start _
  apply (safe_count limit).bind
  intro count hcount
  apply (safe_uvarint32.times count).bind
  intro links hlinks
  have hsafe := Graph.safe_ofParts keys txns links
  rcases hparts : Graph.ofParts keys txns links with (_ | _) | g
  · exact Safe.fail _
  · rw [hparts] at hsafe
    exact absurd hsafe id
  · obtain ⟨rfl, runs, hruns⟩ := hsafe.of_ok hparts
    have hcheck := (safe_checkEntries hruns start).and_of_ok fun _ =>
      (checkEntries_eq_ok_iff hruns htxns.2 start).1
    have hlinks' : links.length ≤ limit := by
      rw [hlinks.1]
      exact hcount
    refine (Safe.ofExcept hcheck).bind fun _ hasc => Safe.pure ?_
    exact ⟨rfl, ⟨htxns.2, runs, hruns, hasc.2⟩, htxns.1, hlinks'⟩

end Reader

end TxnDeps
