import NearMiss.EditDistance.Matrix

/-! How the values of the full distance matrix lie.

A cell is never below its distance from the diagonal (`le_add_cell`) and never
above the farther of its indices (`cell_le_max`): what lies outside a band of
width `cap` exceeds `cap`, and a cap as large as both lengths excludes nothing.
The least value of a row does not fall from one row to the next
(`exists_cell_le`), although an exchange of neighbours skips a row, because the
skipped row has a cell that is just as cheap. -/
namespace NearMiss.Matrix

variable (swaps : Bool) (source goal : Array Char)

/-! ### The step to an inner cell -/

/-- The cheapest way into cell `(i + 1, j + 1)` without an exchange. -/
def straight (i j : Nat) : Nat :=
  min (min (cell swaps source goal i (j + 1) + 1) (cell swaps source goal (i + 1) j + 1))
    (cell swaps source goal i j + replacement source goal i j)

theorem cell_one_succ (j : Nat) :
    cell swaps source goal 1 (j + 1) = straight swaps source goal 0 j := by
  rw [cell]
  · rfl
  · intro i j' hi
    cases hi

theorem cell_succ_one (i : Nat) :
    cell swaps source goal (i + 1) 1 = straight swaps source goal i 0 := by
  rw [cell]
  · rfl
  · intro i' j hi hj
    cases hj

theorem cell_add_two (i j : Nat) :
    cell swaps source goal (i + 2) (j + 2) =
      if swaps ∧ Exchanged source goal i j then
        min (straight swaps source goal (i + 1) (j + 1)) (cell swaps source goal i j + 1)
      else straight swaps source goal (i + 1) (j + 1) := by
  rw [cell]
  rfl

theorem cell_le_straight (i j : Nat) :
    cell swaps source goal (i + 1) (j + 1) ≤ straight swaps source goal i j := by
  cases i with
  | zero => exact Nat.le_of_eq (cell_one_succ swaps source goal j)
  | succ i =>
    cases j with
    | zero => exact Nat.le_of_eq (cell_succ_one swaps source goal (i + 1))
    | succ j =>
      rw [cell_add_two]
      split
      · exact Nat.min_le_left _ _
      · exact Nat.le_refl _

theorem replacement_le_one (i j : Nat) : replacement source goal i j ≤ 1 := by
  unfold replacement
  split
  · exact Nat.zero_le 1
  · exact Nat.le_refl 1

theorem cell_le_replace (i j : Nat) :
    cell swaps source goal (i + 1) (j + 1) ≤ cell swaps source goal i j + 1 := by
  have way := cell_le_straight swaps source goal i j
  have cost := replacement_le_one source goal i j
  unfold straight at way
  omega

/-- Deleting a character costs one edit at most. -/
theorem cell_succ_le (i j : Nat) :
    cell swaps source goal (i + 1) j ≤ cell swaps source goal i j + 1 := by
  cases j with
  | zero => simp
  | succ j =>
    have way := cell_le_straight swaps source goal i j
    unfold straight at way
    omega

/-- Inserting a character costs one edit at most. -/
theorem cell_le_succ (i j : Nat) :
    cell swaps source goal i (j + 1) ≤ cell swaps source goal i j + 1 := by
  cases i with
  | zero => simp
  | succ i =>
    have way := cell_le_straight swaps source goal i j
    unfold straight at way
    omega

theorem cell_le_exchange {i j : Nat} (exchanged : swaps = true ∧ Exchanged source goal i j) :
    cell swaps source goal (i + 2) (j + 2) ≤ cell swaps source goal i j + 1 := by
  rw [cell_add_two, if_pos exchanged]
  exact Nat.min_le_right _ _

/-- How a cell comes by its value: a deletion, an insertion, a replacement or an exchange. -/
theorem cell_cases (i j : Nat) :
    cell swaps source goal (i + 1) (j + 1) = cell swaps source goal i (j + 1) + 1 ∨
      cell swaps source goal (i + 1) (j + 1) = cell swaps source goal (i + 1) j + 1 ∨
      cell swaps source goal (i + 1) (j + 1) =
        cell swaps source goal i j + replacement source goal i j ∨
      ∃ i' j', i = i' + 1 ∧ j = j' + 1 ∧ (swaps = true ∧ Exchanged source goal i' j') ∧
        cell swaps source goal (i + 1) (j + 1) = cell swaps source goal i' j' + 1 := by
  by_cases plain : cell swaps source goal (i + 1) (j + 1) = straight swaps source goal i j
  · rw [plain, straight]
    omega
  · cases i with
    | zero => exact absurd (cell_one_succ swaps source goal j) plain
    | succ i =>
      cases j with
      | zero => exact absurd (cell_succ_one swaps source goal (i + 1)) plain
      | succ j =>
        rw [cell_add_two] at plain ⊢
        split at plain
        · next exchanged =>
          refine .inr (.inr (.inr ⟨i, j, rfl, rfl, exchanged, ?_⟩))
          rw [if_pos exchanged]
          omega
        · exact absurd rfl plain

/-! ### Bounds -/

/-- A cell is never below its distance from the diagonal. -/
theorem le_add_cell (i j : Nat) :
    i ≤ j + cell swaps source goal i j ∧ j ≤ i + cell swaps source goal i j := by
  -- An exchange comes from two rows up, so the induction is on both indices together.
  induction total : i + j using Nat.strongRecOn generalizing i j with
  | ind total ih =>
    cases i with
    | zero => simp
    | succ i =>
      cases j with
      | zero => simp
      | succ j =>
        have above := ih (i + (j + 1)) (by omega) i (j + 1) rfl
        have left := ih (i + 1 + j) (by omega) (i + 1) j rfl
        have corner := ih (i + j) (by omega) i j rfl
        rcases cell_cases swaps source goal i j with h | h | h | ⟨i', j', rfl, rfl, _, h⟩
        · omega
        · omega
        · omega
        · have skipped := ih (i' + j') (by omega) i' j' rfl
          omega

theorem cell_le_max (i j : Nat) : cell swaps source goal i j ≤ max i j := by
  induction i generalizing j with
  | zero => simp
  | succ i ih =>
    cases j with
    | zero => simp
    | succ j =>
      have way := cell_le_replace swaps source goal i j
      have corner := ih j
      omega

/-- Below every cell of a row some cell of the row above is as small. -/
theorem exists_cell_le (i j : Nat) :
    ∃ j' ≤ j, cell swaps source goal i j' ≤ cell swaps source goal (i + 1) j := by
  induction j with
  | zero => exact ⟨0, Nat.le_refl 0, by simp⟩
  | succ j ih =>
    rcases cell_cases swaps source goal i j with h | h | h | ⟨i', j', rfl, rfl, _, h⟩
    · exact ⟨j + 1, Nat.le_refl _, by omega⟩
    · obtain ⟨j', before, small⟩ := ih
      exact ⟨j', by omega, by omega⟩
    · exact ⟨j, by omega, by omega⟩
    · -- The row that the exchange skips reaches the same value by a deletion.
      have deletion := cell_succ_le swaps source goal i' j'
      exact ⟨j', by omega, by omega⟩

/-- Once a whole row exceeds a cap, so does every row below it. -/
theorem lt_cell_of_row {cap i columns : Nat}
    (row : ∀ j ≤ columns, cap < cell swaps source goal i j) (further : Nat) :
    ∀ j ≤ columns, cap < cell swaps source goal (i + further) j := by
  induction further with
  | zero => exact row
  | succ further ih =>
    intro j hj
    obtain ⟨j', before, small⟩ := exists_cell_le swaps source goal (i + further) j
    exact Nat.lt_of_lt_of_le (ih j' (by omega)) small

end NearMiss.Matrix
