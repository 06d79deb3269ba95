import NearMiss.Proofs.EditDistance.Band

/-! Distances are the last cell of the full matrix.

`bounded` settles some comparisons from the lengths alone, clamps the cap to the
longer of them and leaves the rest to the band; none of this shows in its answer
(`bounded_eq`). So a capped distance is the distance, where that is at most the
cap (`within_eq_some_iff`). -/
namespace NearMiss.Metric

variable (metric : Metric)

/-- The distance of two character sequences, or nothing where the cap excludes it. -/
theorem bounded_eq (cap : Nat) (source goal : Array Char) :
    metric.bounded cap source goal =
      let last := Matrix.distance metric.swaps source goal
      if last ≤ cap then some last else none := by
  have gap := Matrix.le_add_cell metric.swaps source goal source.size goal.size
  have longest := Matrix.cell_le_max metric.swaps source goal source.size goal.size
  unfold bounded Matrix.distance
  dsimp only
  split
  · next apart => rw [if_neg (by omega)]
  · next close =>
    split
    · next empty =>
      have borders : source.size = 0 ∨ goal.size = 0 := by
        simpa [Array.isEmpty_iff_size_eq_zero] using empty
      have all : Matrix.cell metric.swaps source goal source.size goal.size =
          max source.size goal.size := by
        rcases borders with h | h
        · rw [h, Matrix.cell_zero_left, Nat.zero_max]
        · rw [h, Matrix.cell_zero_right, Nat.max_zero]
      rw [all, if_pos (by omega)]
    · have clamped : (metric.band cap source goal).answer =
          let last := Matrix.cell metric.swaps source goal source.size goal.size
          if last ≤ min cap (max source.size goal.size) then some last else none :=
        Band.answer_eq (metric.band cap source goal) (by simp only [band]; omega)
          (by simp only [band]; omega)
      rw [clamped]
      dsimp only
      by_cases near : Matrix.cell metric.swaps source goal source.size goal.size ≤ cap
      · rw [if_pos (by omega), if_pos near]
      · rw [if_neg (by omega), if_neg near]

/-- The last cell of the full matrix of two texts. -/
def lastCell (source goal : String) : Nat :=
  Matrix.distance metric.swaps source.toList.toArray goal.toList.toArray

theorem within_eq (cap : Nat) (source goal : String) :
    metric.within cap source goal =
      if metric.lastCell source goal ≤ cap then some (metric.lastCell source goal) else none :=
  metric.bounded_eq cap _ _

/-- The cap of an uncapped comparison, the longer length, excludes nothing. -/
theorem distance_eq (source goal : String) :
    metric.distance source goal = metric.lastCell source goal := by
  have longest : metric.lastCell source goal ≤
      max source.toList.toArray.size goal.toList.toArray.size :=
    Matrix.cell_le_max metric.swaps _ _ _ _
  have found : metric.bounded (max source.toList.toArray.size goal.toList.toArray.size)
      source.toList.toArray goal.toList.toArray = some (metric.lastCell source goal) := by
    rw [bounded_eq]
    exact if_pos longest
  rw [distance, found]
  rfl

/-- A capped distance is the distance, as far as the cap goes. -/
theorem within_eq_some_iff {cap edits : Nat} {source goal : String} :
    metric.within cap source goal = some edits ↔
      metric.lastCell source goal = edits ∧ edits ≤ cap := by
  rw [within_eq]
  split
  · next near =>
    constructor
    · intro h
      cases h
      exact ⟨rfl, near⟩
    · intro h
      rw [h.1]
  · next far =>
    constructor
    · intro h
      cases h
    · intro h
      exact absurd (h.1 ▸ h.2) far

/-- **Distances agree with the full matrix**, for every cap: the band, its early end and its
reused buffers show in no answer. -/
theorem within_and_distance_eq_lastCell (source goal : String) :
    (∀ cap, metric.within cap source goal =
      if metric.lastCell source goal ≤ cap then some (metric.lastCell source goal) else none) ∧
      metric.distance source goal = metric.lastCell source goal :=
  ⟨fun cap => metric.within_eq cap source goal, metric.distance_eq source goal⟩

end NearMiss.Metric
