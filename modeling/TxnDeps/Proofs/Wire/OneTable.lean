import TxnDeps.Proofs.Range.Sweep
import TxnDeps.Proofs.Wire.Element
import TxnDeps.Proofs.Wire.Size

namespace TxnDeps.RangeCodec

variable {table : TableId} {r : TokenRange}

theorem Carries.table_eq (h : (simple table).Carries r) {k : RoutingKey}
    (hk : r.contains k = true) : k.table = table :=
  (h.singleTable.table_eq hk).trans h.1

theorem run_read_encode {c : RangeCodec} (h : c.Carries r) (suffix : Bytes) (position : Nat) :
    c.read.run ⟨c.encode r ++ suffix, position⟩ =
      (.ok r, ⟨suffix, position + c.encodedSize r⟩) := by
  rw [(reads_read h).run_cursor suffix position, length_encode]

/-- Numbers are told apart by their codes and codes by their numbers, up to the least and the
greatest of either kind. Whatever two ends a range of the table has, it is read back in front of any
suffix by as many bytes as its size tells, and whatever the bytes, what is read lies in the table
with all its keys. -/
theorem simple_exact :
    (∀ v : Int64,
      ((zigzag v).toNat : Int) = if 0 ≤ v.toInt then 2 * v.toInt else -2 * v.toInt - 1) ∧
    (∀ v, unzigzag (zigzag v) = v) ∧ (∀ n, zigzag (unzigzag n) = n) ∧
    ∀ table : TableId,
      (∀ start stop : KeyKind,
        let r : TokenRange := ⟨⟨table, start⟩, ⟨table, stop⟩⟩
        ((simple table).encode r).length = (simple table).encodedSize r ∧
          ∀ suffix position,
            (simple table).read.run ⟨(simple table).encode r ++ suffix, position⟩ =
              (.ok r, ⟨suffix, position + (simple table).encodedSize r⟩)) ∧
      ∀ cursor r cursor', (simple table).read.run cursor = (.ok r, cursor') →
        (∃ start stop, r = ⟨⟨table, start⟩, ⟨table, stop⟩⟩) ∧
          ∀ k, r.contains k = true → k.table = table := by
  refine ⟨toNat_zigzag, unzigzag_zigzag, zigzag_unzigzag, fun table => ⟨fun start stop => ?_, ?_⟩⟩
  · have hcarries : (simple table).Carries ⟨⟨table, start⟩, ⟨table, stop⟩⟩ := ⟨rfl, rfl⟩
    exact ⟨length_encode _ _, run_read_encode hcarries⟩
  · intro cursor r cursor' hrun
    have hsafe := safe_read (simple table) cursor
    have hcarries := hsafe.of_ok (congrArg Prod.fst hrun)
    exact ⟨carries_simple_iff.1 hcarries, fun k hk => hcarries.table_eq hk⟩

/-- Behind its tag the least token takes up ten bytes, and so does the greatest. -/
theorem simple_exact_extremes :
    let table : TableId := .ofNat 9
    let r : TokenRange := ⟨⟨table, .token Int64.minValue⟩, ⟨table, .token Int64.maxValue⟩⟩
    (simple table).encodedSize r = 22 ∧
      (simple table).read.run ⟨(simple table).encode r ++ [7], 0⟩ = (.ok r, ⟨[7], 22⟩) ∧
      ∀ k, r.contains k = true → k.table = table := by
  intro table r
  have hsize : (simple table).encodedSize r = 22 := by decide
  obtain ⟨hends, hbytes⟩ := simple_exact.2.2.2 table
  have hread := (hends (.token Int64.minValue) (.token Int64.maxValue)).2 [7] 0
  change (simple table).read.run _ = (.ok r, ⟨[7], 0 + (simple table).encodedSize r⟩) at hread
  rw [hsize] at hread
  exact ⟨hsize, hread, (hbytes _ r _ hread).2⟩

end TxnDeps.RangeCodec
