import NearMiss.EditDistance.Metric
import NearMiss.Proofs.EditDistance.Matrix

/-! The band agrees with the full matrix.

The invariant of a comparison is `Faithful`: whatever a later row may still read
of the two rows kept is the value of the full matrix, or `far` where that value
exceeds the cap. A buffer is overwritten only from the margin to the fence, and
`Shows` promises nothing outside of them, so stale cells never matter. One row
keeps the invariant (`faithful_advance`), and a comparison ends early only on a
row that lies above the cap as a whole (`lt_cell_of_advance_none`), which no row
below it comes back from. -/
namespace NearMiss.Band

variable (band : Band)

/-- What a buffer holds of a cell: its value, or `far` if that exceeds the cap. -/
def capped (i j : Nat) : Nat :=
  min (Matrix.cell band.swaps band.source band.goal i j) band.far

/-- The columns of row `i` that later rows may read end here, behind the fence. -/
def reach (i : Nat) : Nat := min (band.hi i + 2) (band.goal.size + 1)

/-- A buffer holds row `i` from its margin up to a column. -/
def Shows (i stop : Nat) (row : Array Nat) : Prop :=
  ∀ j, band.lo i ≤ j + 1 → j < stop → row.getD j band.far = band.capped i j

/-- The buffers after row `i`. -/
structure Faithful (i : Nat) (rows : Rows) : Prop where
  sized : rows.Sized (band.goal.size + 1)
  last : band.Shows i (band.reach i) rows.last
  before : ∀ k, i = k + 1 → band.Shows k (band.reach k) rows.before

/-- A row being written, with its least value so far. -/
structure Filled (i filled : Nat) (result : Array Nat × Nat) : Prop where
  shows : band.Shows i (band.lo i + filled) result.1
  least : ∀ j, band.lo i ≤ j + 1 → j < band.lo i + filled → result.2 ≤ band.capped i j

/-! ### Single cells -/

theorem capped_le_cap_iff (i j : Nat) : band.capped i j ≤ band.cap ↔
    Matrix.cell band.swaps band.source band.goal i j ≤ band.cap := by
  unfold capped far
  omega

theorem capped_of_outside {i j : Nat} (h : j + band.cap < i ∨ i + band.cap < j) :
    band.capped i j = band.far := by
  have gap := Matrix.le_add_cell band.swaps band.source band.goal i j
  unfold capped far
  omega

theorem margin_eq (i : Nat) : band.margin i = band.capped i (band.lo i - 1) := by
  unfold margin
  split
  · next edge => simp [edge, capped]
  · next inside =>
    rw [band.capped_of_outside]
    unfold lo at inside ⊢
    omega

theorem exchanged_iff (i j : Nat) : band.exchanged (i + 2) (j + 2) = true ↔
    band.swaps = true ∧ Matrix.Exchanged band.source band.goal i j := by
  simp [exchanged, Matrix.Exchanged, and_assoc]

/-- The least of two values, capped. -/
theorem min_far (a b : Nat) :
    min (min a b) band.far = min (min a band.far) (min b band.far) := by
  omega

/-- Capping a value before adding to it changes nothing once the sum is capped. -/
theorem min_add_far (a k : Nat) : min (min a band.far + k) band.far = min (a + k) band.far := by
  omega

/-- The cheapest way into a cell, over neighbours that hold their values, is its value. -/
theorem cell_eq {before last current : Array Nat} {i j : Nat}
    (above : last.getD (j + 1) band.far = band.capped i (j + 1))
    (corner : last.getD j band.far = band.capped i j)
    (left : current.getD j band.far = band.capped (i + 1) j)
    (skipped : ∀ i' j', i = i' + 1 → j = j' + 1 →
      before.getD j' band.far = band.capped i' j') :
    band.cell before last current (i + 1) (j + 1) = band.capped (i + 1) (j + 1) := by
  have cost : band.replacement (i + 1) (j + 1) =
      Matrix.replacement band.source band.goal i j := rfl
  unfold cell
  rw [above, cost]
  simp only [Nat.add_sub_cancel, corner, left]
  unfold capped
  cases i with
  | zero =>
    have plain : band.exchanged 1 (j + 1) = false := by simp [exchanged]
    rw [plain, if_neg Bool.false_ne_true, Matrix.cell_one_succ _ _ _ j, Matrix.straight]
    simp only [min_far, min_add_far]
  | succ i =>
    cases j with
    | zero =>
      have plain : band.exchanged (i + 2) 1 = false := by simp [exchanged]
      rw [plain, if_neg Bool.false_ne_true, Matrix.cell_succ_one _ _ _ (i + 1), Matrix.straight]
      simp only [min_far, min_add_far]
    | succ j =>
      rw [Matrix.cell_add_two _ _ _ i j, Matrix.straight]
      by_cases exchange : band.swaps = true ∧ Matrix.Exchanged band.source band.goal i j
      · have read : before.getD (j + 1 + 1 - 2) band.far = band.capped i j :=
          skipped i j rfl rfl
        rw [if_pos ((band.exchanged_iff i j).mpr exchange), if_pos exchange, read]
        unfold capped
        simp only [min_far, min_add_far]
      · rw [if_neg (mt (band.exchanged_iff i j).mp exchange), if_neg exchange]
        simp only [min_far, min_add_far]

/-! ### One row -/

theorem faithful_start : band.Faithful 0 band.start where
  sized := band.sized_start
  last := by
    intro j _ inside
    have column : j < band.goal.size + 1 := by
      unfold reach at inside
      omega
    simp [start, capped, column]
  before := by
    intro k absent
    cases absent

theorem filled_zero {i : Nat} {row : Array Nat} (size : row.size = band.goal.size + 1)
    (inside : i ≤ band.goal.size + band.cap) (before last : Array Nat) :
    band.Filled i 0 (band.fill before last i row 0) := by
  have column : band.lo i - 1 < row.size := by
    rw [size]
    unfold lo
    omega
  have only : ∀ j, band.lo i ≤ j + 1 → j < band.lo i + 0 → j = band.lo i - 1 := by
    intro j _ _
    omega
  constructor
  · intro j first stop
    rw [only j first stop, ← band.margin_eq]
    simp [fill, column]
  · intro j first stop
    rw [only j first stop, ← band.margin_eq]
    exact Nat.le_refl _

/-- One more cell of the window, read off rows that hold their values. -/
theorem filled_succ {i filled : Nat} {rows : Rows} {result : Array Nat × Nat}
    (h : band.Faithful i rows) (size : result.1.size = band.goal.size + 1)
    (room : filled < band.width (i + 1)) (part : band.Filled (i + 1) filled result) :
    let column := band.lo (i + 1) + filled
    let value := band.cell rows.before rows.last result.1 (i + 1) column
    band.Filled (i + 1) (filled + 1)
      (result.1.setIfInBounds column value, min result.2 value) := by
  intro column value
  obtain ⟨j, here⟩ : ∃ j, column = j + 1 := ⟨band.lo (i + 1) + filled - 1, by
    simp only [column, lo]
    omega⟩
  have window : column ≤ band.hi (i + 1) := by
    unfold width at room
    omega
  have columns : column ≤ band.goal.size := Nat.le_trans window (Nat.min_le_right _ _)
  have exact : value = band.capped (i + 1) column := by
    simp only [value]
    rw [here] at window columns ⊢
    simp only [column] at here
    refine band.cell_eq (h.last _ ?_ ?_) (h.last _ ?_ ?_) (part.shows _ ?_ ?_) ?_
    all_goals simp only [lo, hi, reach] at *
    any_goals omega
    intro i' j' row column
    subst row
    subst column
    exact h.before i' rfl j' (by simp only [lo]; omega) (by simp only [reach, hi]; omega)
  constructor
  · intro k first stop
    by_cases last : column = k
    · subst last
      have bound : column < result.1.size := by omega
      simp [bound, exact]
    · have old := part.shows k first (by omega)
      simpa [last] using old
  · intro k first stop
    by_cases last : column = k
    · subst last
      rw [← exact]
      exact Nat.min_le_right _ _
    · exact Nat.le_trans (Nat.min_le_left _ _) (part.least k first (by omega))

theorem filled_fill {i : Nat} {rows : Rows} (h : band.Faithful i rows)
    (inside : i + 1 ≤ band.goal.size + band.cap) {filled : Nat}
    (room : filled ≤ band.width (i + 1)) :
    band.Filled (i + 1) filled (band.fill rows.before rows.last (i + 1) rows.spare filled) := by
  induction filled with
  | zero => exact band.filled_zero h.sized.spare inside _ _
  | succ filled ih =>
    refine band.filled_succ h ?_ room (ih (by omega))
    rw [size_fill]
    exact h.sized.spare

/-- The fence stands where the next value is known to exceed the cap. -/
theorem shows_fence {i : Nat} {row : Array Nat} (size : row.size = band.goal.size + 1)
    (h : band.Shows i (band.hi i + 1) row) : band.Shows i (band.reach i) (band.fence i row) := by
  intro j first stop
  unfold reach at stop
  unfold fence
  split
  · next open_ =>
    by_cases last : band.hi i + 1 = j
    · subst last
      have bound : band.hi i + 1 < row.size := by omega
      rw [band.capped_of_outside (by unfold hi at open_ ⊢; omega)]
      simp [bound]
    · have old := h j first (by omega)
      simpa [last] using old
  · exact h j first (by omega)

section Advance
variable {band} {i : Nat} {rows : Rows} (h : band.Faithful i rows)
  (inside : i + 1 ≤ band.goal.size + band.cap)
include h inside

/-- One more row keeps the buffers faithful. -/
theorem faithful_advance {rows' : Rows} (step : band.advance (i + 1) rows = some rows') :
    band.Faithful (i + 1) rows' := by
  have full := (band.filled_fill h inside (Nat.le_refl (band.width (i + 1)))).shows
  have window : band.lo (i + 1) + band.width (i + 1) = band.hi (i + 1) + 1 := by
    unfold width lo hi
    omega
  rw [window] at full
  have sized := band.sized_advance h.sized step
  unfold advance at step
  dsimp only at step
  split at step
  · cases step
    refine ⟨sized, ?_, ?_⟩
    · refine band.shows_fence ?_ full
      rw [size_fill]
      exact h.sized.spare
    · intro k hk
      cases hk
      exact h.last
  · cases step

/-- A row that ends the comparison lies above the cap as a whole. -/
theorem lt_cell_of_advance_none (step : band.advance (i + 1) rows = none) {j : Nat}
    (column : j ≤ band.goal.size) :
    band.cap < Matrix.cell band.swaps band.source band.goal (i + 1) j := by
  have full := (band.filled_fill h inside (Nat.le_refl (band.width (i + 1)))).least
  unfold advance at step
  dsimp only at step
  split at step
  · cases step
  · next above =>
    rw [← Nat.not_le, ← capped_le_cap_iff]
    by_cases outside : j + band.cap < i + 1 ∨ i + 1 + band.cap < j
    · rw [band.capped_of_outside outside]
      exact Nat.not_succ_le_self _
    · have least := full j (by unfold lo; omega) (by unfold width lo hi; omega)
      omega

end Advance

/-! ### The whole comparison -/

/-- After `i` rows the buffers are faithful, or some row has passed the cap and with it all
rows below. -/
theorem rows_cases {i : Nat} (inside : i ≤ band.goal.size + band.cap) :
    (∃ rows, band.rows i = some rows ∧ band.Faithful i rows) ∨
      band.rows i = none ∧ ∀ j ≤ band.goal.size,
        band.cap < Matrix.cell band.swaps band.source band.goal i j := by
  induction i with
  | zero => exact .inl ⟨band.start, rfl, band.faithful_start⟩
  | succ i ih =>
    rcases ih (by omega) with ⟨rows, reached, faithful⟩ | ⟨ended, above⟩
    · have next : band.rows (i + 1) = band.advance (i + 1) rows := by
        rw [Band.rows, reached]
        rfl
      rw [next]
      cases step : band.advance (i + 1) rows with
      | some rows' => exact .inl ⟨rows', rfl, faithful_advance faithful inside step⟩
      | none => exact .inr ⟨rfl, fun j => lt_cell_of_advance_none faithful inside step⟩
    · refine .inr ⟨?_, Matrix.lt_cell_of_row _ _ _ above 1⟩
      rw [Band.rows, ended]
      rfl

/-- The band answers as the full matrix does, for lengths that differ by at most the cap. -/
theorem answer_eq (fits : band.source.size ≤ band.goal.size + band.cap)
    (fits' : band.goal.size ≤ band.source.size + band.cap) :
    band.answer =
      let last := Matrix.distance band.swaps band.source band.goal
      if last ≤ band.cap then some last else none := by
  unfold answer
  rcases band.rows_cases fits with ⟨rows, reached, faithful⟩ | ⟨ended, above⟩
  · have corner : rows.last.getD band.goal.size band.far =
        band.capped band.source.size band.goal.size :=
      faithful.last _ (by unfold lo; omega) (by unfold reach hi; omega)
    rw [reached, Option.bind_some, corner]
    dsimp only
    unfold Matrix.distance
    by_cases near : Matrix.cell band.swaps band.source band.goal band.source.size
        band.goal.size ≤ band.cap
    · have held := (band.capped_le_cap_iff _ _).mpr near
      rw [if_pos held, if_pos near]
      unfold capped far
      rw [Nat.min_eq_left (by omega)]
    · rw [if_neg (mt (band.capped_le_cap_iff _ _).mp near), if_neg near]
  · rw [ended]
    exact (if_neg (Nat.not_le.mpr (above _ (Nat.le_refl _)))).symm

end NearMiss.Band
