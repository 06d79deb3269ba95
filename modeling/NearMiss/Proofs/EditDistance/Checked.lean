import Mathlib.Algebra.Group.Nat.Defs
import NearMiss.EditDistance.Checked

/-! No step of a comparison fails.

A comparison of texts that fit into memory takes the same course in checked steps
as without checks (`checkedAnswer_eq`). Every access lies in its buffer because
the window of a row does (`window_inside`), and the window has a cell because the
lengths differ by no more than the cap. Every sum fits into a word because no cell
of a buffer exceeds `far` (`low_rows`), not even a stale one, and `far` is hardly
more than the longer length. -/
namespace NearMiss

/-- A word has 64 bits. -/
theorem Checked.wordBound_eq : wordBound = 2 ^ 64 := rfl

namespace Band

open Checked

variable (band : Band)

/-- What a comparison relies on: there are columns, the lengths differ by at most the cap, the cap
is no more than the longer of them, and they are lengths of texts in memory. -/
structure Fits : Prop where
  columns : 0 < band.goal.size
  close : band.source.size ≤ band.goal.size + band.cap
  cap_le : band.cap ≤ max band.source.size band.goal.size
  rowsShort : band.source.size < 2 ^ 60
  columnsShort : band.goal.size < 2 ^ 60

/-- No cell of a buffer is above `far`. -/
def Low (row : Array Nat) : Prop := ∀ value ∈ row, value ≤ band.far

structure Rows.Low (rows : Rows) : Prop where
  before : band.Low rows.before
  last : band.Low rows.last
  spare : band.Low rows.spare

variable {band}

theorem Fits.cap_lt (h : band.Fits) : band.cap < 2 ^ 60 := by
  have cap_le := h.cap_le
  have rowsShort := h.rowsShort
  have columnsShort := h.columnsShort
  omega

/-! ### The buffers stay low -/

theorem Low.getD_le {row : Array Nat} (h : band.Low row) (place : Nat) :
    row.getD place band.far ≤ band.far := by
  rw [Array.getD_eq_getD_getElem?]
  cases here : row[place]? with
  | none => exact Nat.le_refl _
  | some value => exact h value (Array.mem_of_getElem? here)

theorem Low.set {row : Array Nat} (h : band.Low row) (place : Nat) {value : Nat}
    (low : value ≤ band.far) : band.Low (row.setIfInBounds place value) := by
  intro other on
  rcases Array.mem_or_eq_of_mem_setIfInBounds on with old | rfl
  · exact h other old
  · exact low

theorem margin_le_far (i : Nat) : band.margin i ≤ band.far := by
  unfold margin
  split
  · exact Nat.min_le_right _ _
  · exact Nat.le_refl _

theorem cell_le_far (before last current : Array Nat) (i j : Nat) :
    band.cell before last current i j ≤ band.far := Nat.min_le_right _ _

theorem Low.fill {current : Array Nat} (h : band.Low current) (before last : Array Nat)
    (i filled : Nat) : band.Low (band.fill before last i current filled).1 := by
  induction filled with
  | zero => exact h.set _ (margin_le_far i)
  | succ filled ih => exact ih.set _ (cell_le_far _ _ _ _ _)

theorem Low.fence {current : Array Nat} (h : band.Low current) (i : Nat) :
    band.Low (band.fence i current) := by
  unfold Band.fence
  split
  · exact h.set _ (Nat.le_refl _)
  · exact h

theorem low_start : band.start.Low band := by
  have blank : band.Low (Array.replicate (band.goal.size + 1) band.far) := by
    intro value on
    exact Nat.le_of_eq (Array.eq_of_mem_replicate on)
  refine ⟨blank, ?_, blank⟩
  intro value on
  obtain ⟨column, _, rfl⟩ := Array.mem_map.mp on
  exact Nat.min_le_right _ _

theorem low_advance {i : Nat} {rows rows' : Rows} (h : rows.Low band)
    (step : band.advance i rows = some rows') : rows'.Low band := by
  unfold advance at step
  dsimp only at step
  split at step
  · cases step
    exact ⟨h.last, (h.spare.fill _ _ _ _).fence _, h.before⟩
  · cases step

theorem low_rows {i : Nat} {rows : Rows} (h : band.rows i = some rows) : rows.Low band := by
  induction i generalizing rows with
  | zero =>
    cases h
    exact low_start
  | succ i ih =>
    obtain ⟨earlier, reached, step⟩ := Option.bind_eq_some_iff.mp h
    exact low_advance (ih reached) step

/-! ### Each step passes its checks -/

/-- An exchange needs two characters of either text. -/
theorem checkedExchanged_eq {i j : Nat} (row : i ≤ band.source.size)
    (column : j ≤ band.goal.size) : band.checkedExchanged i j = .ok (band.exchanged i j) := by
  unfold checkedExchanged exchanged
  cases inner : band.swaps && decide (1 < i) && decide (1 < j) with
  | false => rfl
  | true =>
    obtain ⟨⟨_, deep⟩, wide⟩ : (band.swaps = true ∧ 1 < i) ∧ 1 < j := by simpa using inner
    obtain ⟨c, here⟩ : ∃ c, band.source[i - 1]? = some c :=
      ⟨_, Array.getElem?_eq_getElem (by omega)⟩
    obtain ⟨c', here'⟩ : ∃ c, band.source[i - 2]? = some c :=
      ⟨_, Array.getElem?_eq_getElem (by omega)⟩
    obtain ⟨d, there⟩ : ∃ d, band.goal[j - 2]? = some d :=
      ⟨_, Array.getElem?_eq_getElem (by omega)⟩
    obtain ⟨d', there'⟩ : ∃ d, band.goal[j - 1]? = some d :=
      ⟨_, Array.getElem?_eq_getElem (by omega)⟩
    rw [if_pos rfl, sub_eq (by omega), ok_bind, read_eq here, ok_bind, sub_eq (by omega), ok_bind,
      read_eq there, ok_bind, here, here', there, there']
    by_cases same : c = d
    · rw [if_pos same, sub_eq (by omega), ok_bind, read_eq here', ok_bind, sub_eq (by omega),
        ok_bind, read_eq there', ok_bind, same]
      simp only [Option.some_beq_some, beq_self_eq_true, Bool.true_and]
      rfl
    · rw [if_neg same]
      simp only [Option.some_beq_some, beq_eq_false_iff_ne.mpr same, Bool.true_and, Bool.false_and]
      rfl

theorem two_le_of_exchanged {i j : Nat} (h : band.exchanged i j = true) : 2 ≤ j := by
  simp only [exchanged, Bool.and_eq_true, decide_eq_true_eq] at h
  exact h.1.1.2

/-- A fence has room behind the window. -/
theorem checkedFence_eq {i : Nat} {current : Array Nat}
    (size : current.size = band.goal.size + 1) (short : band.goal.size < 2 ^ 60) :
    band.checkedFence band.far (band.hi i) current = .ok (band.fence i current) := by
  have word := wordBound_eq
  unfold checkedFence fence
  split
  · rw [add_eq (by omega), ok_bind, write_eq (by omega)]
  · rfl

section Steps
variable (fits : band.Fits) {i : Nat} (first : 1 ≤ i) (row : i ≤ band.source.size)
include fits first row

/-- The window of a row has a cell and lies inside of the buffers. -/
theorem window_inside :
    1 ≤ band.lo i ∧ band.lo i ≤ band.hi i ∧ band.hi i ≤ band.goal.size := by
  have columns := fits.columns
  have close := fits.close
  unfold lo hi
  omega

section Buffers
variable {rows : Rows} (sized : rows.Sized (band.goal.size + 1)) (low : rows.Low band)
include sized low

/-- A cell is computed from neighbours inside of the buffers, and no sum is too large. -/
theorem checkedCell_eq {current : Array Nat} (size : current.size = band.goal.size + 1)
    (low' : band.Low current) {j : Nat} (left : 1 ≤ j) (column : j ≤ band.goal.size) :
    band.checkedCell band.far rows.before rows.last current i j =
      .ok (band.cell rows.before rows.last current i j) := by
  obtain ⟨c, here⟩ : ∃ c, band.source[i - 1]? = some c :=
    ⟨_, Array.getElem?_eq_getElem (by omega)⟩
  obtain ⟨d, there⟩ : ∃ d, band.goal[j - 1]? = some d :=
    ⟨_, Array.getElem?_eq_getElem (by omega)⟩
  have cost : (if c == d then 0 else 1) = band.replacement i j := by
    simp [replacement, here, there]
  have cheap : band.replacement i j ≤ 1 := by
    unfold replacement
    split <;> omega
  have word : band.far + 1 < wordBound := by
    have cap_lt := fits.cap_lt
    rw [wordBound_eq]
    unfold far
    omega
  have beforeSize := sized.before
  have lastSize := sized.last
  have above := low.last.getD_le j
  have corner := low.last.getD_le (j - 1)
  have beside := low'.getD_le (j - 1)
  have skipped := low.before.getD_le (j - 2)
  unfold checkedCell cell
  -- The two characters, then the ways from above, from the left and from the corner.
  rw [sub_eq first, ok_bind, read_eq here, ok_bind, sub_eq left, ok_bind, read_eq there, ok_bind]
  rw [read_eq_getD (by omega) band.far, ok_bind, add_eq (by omega), ok_bind, ok_bind]
  rw [read_eq_getD (by omega) band.far, ok_bind, add_eq (by omega), ok_bind, ok_bind]
  rw [read_eq_getD (by omega) band.far, ok_bind, cost, add_eq (by omega), ok_bind]
  rw [checkedExchanged_eq row column, ok_bind]
  cases exchange : band.exchanged i j with
  | false => rfl
  | true =>
    dsimp only
    rw [if_pos rfl, if_pos rfl, sub_eq (two_le_of_exchanged exchange), ok_bind,
      read_eq_getD (by omega) band.far, ok_bind, add_eq (by omega), ok_bind]
    rfl

/-- A window is filled from its margin on. -/
theorem checkedFill_eq {filled : Nat} (room : filled ≤ band.width i) :
    band.checkedFill band.far rows.before rows.last i rows.spare filled =
      .ok (band.fill rows.before rows.last i rows.spare filled) := by
  obtain ⟨begins, _, ends⟩ := window_inside fits first row
  have spareSize := sized.spare
  induction filled with
  | zero =>
    have margin : (if band.lo i = 1 then min i band.far else band.far) = band.margin i := rfl
    have inside : band.lo i - 1 < rows.spare.size := by omega
    rw [checkedFill, sub_eq begins, ok_bind, margin, write_eq inside, ok_bind,
      read_eq (Array.getElem?_setIfInBounds_self_of_lt inside)]
    rfl
  | succ filled ih =>
    have column : band.lo i + filled ≤ band.goal.size := by
      unfold width at room
      omega
    have size : (band.fill rows.before rows.last i rows.spare filled).1.size =
        band.goal.size + 1 := by
      rw [size_fill, spareSize]
    have inside : band.lo i + filled <
        (band.fill rows.before rows.last i rows.spare filled).1.size := by omega
    rw [checkedFill, ih (by omega), ok_bind]
    dsimp only
    rw [checkedCell_eq fits first row sized low size (low.spare.fill _ _ _ _) (by omega) column,
      ok_bind, write_eq inside, ok_bind, read_eq (Array.getElem?_setIfInBounds_self_of_lt inside)]
    rfl

/-- One more row. -/
theorem checkedAdvance_eq :
    band.checkedAdvance band.far i rows = .ok (band.advance i rows) := by
  obtain ⟨_, cells, _⟩ := window_inside fits first row
  have cap_lt := fits.cap_lt
  have rowsShort := fits.rowsShort
  have word := wordBound_eq
  have last : min (i + band.cap) band.goal.size = band.hi i := rfl
  have width : band.hi i + 1 - band.lo i = band.width i := rfl
  have size : (band.fill rows.before rows.last i rows.spare (band.width i)).1.size =
      band.goal.size + 1 := by
    rw [size_fill, sized.spare]
  unfold checkedAdvance
  rw [add_eq (by omega), ok_bind, last]
  dsimp only
  rw [width_eq cells, ok_bind, width, checkedFill_eq fits first row sized low (Nat.le_refl _),
    ok_bind, checkedFence_eq size fits.columnsShort, ok_bind]
  rfl

end Buffers

end Steps

/-! ### The whole comparison -/

theorem checkedRows_eq (fits : band.Fits) {i : Nat} (row : i ≤ band.source.size) :
    band.checkedRows band.far band.start i = .ok (band.rows i) := by
  induction i with
  | zero => rfl
  | succ i ih =>
    rw [checkedRows, ih (by omega), ok_bind, rows]
    cases reached : band.rows i with
    | none => rfl
    | some rows =>
      exact checkedAdvance_eq fits (by omega) row (band.size_rows reached) (low_rows reached)

theorem checkedAnswer_eq (fits : band.Fits) : band.checkedAnswer = .ok band.answer := by
  have cap_lt := fits.cap_lt
  have columnsShort := fits.columnsShort
  have word := wordBound_eq
  unfold checkedAnswer
  rw [add_eq (by omega), ok_bind, add_eq (by omega), ok_bind]
  show (band.checkedRows band.far band.start band.source.size >>= _) = _
  rw [checkedRows_eq fits (Nat.le_refl _), ok_bind]
  unfold answer
  cases reached : band.rows band.source.size with
  | none => rfl
  | some rows =>
    have size := (band.size_rows reached).last
    dsimp only
    rw [read_eq_getD (by omega) band.far, ok_bind]
    rfl

/-- Lengths that differ by more than the cap leave a row without a cell. -/
example : (⟨false, #['a', 'b', 'c'], #['a'], 0⟩ : Band).checkedAnswer = .error .emptyWindow := by
  cbv

end Band

namespace Metric

section Short
variable (metric : Metric) (cap : Nat) {source goal : Array Char}
  (rowsShort : source.size < 2 ^ 60) (columnsShort : goal.size < 2 ^ 60)
include rowsShort columnsShort

/-- The comparison in checked steps comes to the answer of the one without checks. -/
theorem checkedBounded_eq :
    metric.checkedBounded cap source goal = .ok (metric.bounded cap source goal) := by
  unfold checkedBounded bounded
  dsimp only
  split
  · rfl
  · next close =>
    split
    · rfl
    · next letters =>
      have filled : source.size ≠ 0 ∧ goal.size ≠ 0 := by
        simpa [Array.isEmpty_iff_size_eq_zero] using letters
      refine Band.checkedAnswer_eq ⟨Nat.pos_of_ne_zero filled.2, ?_, Nat.min_le_right _ _,
        rowsShort, columnsShort⟩
      simp only [band]
      omega

/-- Whatever a buffer holds after a row can be counted up by one. -/
theorem add_one_lt_of_mem_rows {i : Nat} {rows : Band.Rows}
    (reached : (metric.band cap source goal).rows i = some rows) {row : Array Nat}
    (on : row ∈ [rows.before, rows.last, rows.spare]) {value : Nat} (held : value ∈ row) :
    value + 1 < 2 ^ 64 := by
  have low := Band.low_rows reached
  have atMost : value ≤ min cap (max source.size goal.size) + 1 := by
    simp only [List.mem_cons, List.not_mem_nil, or_false] at on
    rcases on with rfl | rfl | rfl
    · exact low.before value held
    · exact low.last value held
    · exact low.spare value held
  omega

end Short

/-- **No step of a comparison fails**: for any two texts of fewer than `2 ^ 60` characters and any
cap, the comparison in checked steps ends without a trap, with the answer of the one without
checks. So no access misses its buffer, no difference is negative, no sum exceeds a word and no row
is without a cell; nor does a buffer ever hold a value that could not be counted up. -/
theorem checkedBounded_eq_and_add_one_lt (metric : Metric) (cap : Nat) {source goal : Array Char}
    (rowsShort : source.size < 2 ^ 60) (columnsShort : goal.size < 2 ^ 60) :
    metric.checkedBounded cap source goal = .ok (metric.bounded cap source goal) ∧
      ∀ i rows, (metric.band cap source goal).rows i = some rows →
        ∀ row ∈ [rows.before, rows.last, rows.spare], ∀ value ∈ row, value + 1 < 2 ^ 64 :=
  ⟨metric.checkedBounded_eq cap rowsShort columnsShort, fun _ _ reached _ on _ held =>
    metric.add_one_lt_of_mem_rows cap rowsShort columnsShort reached on held⟩

/-- Under the largest cap a word can hold, with an exchange, down to the last row. -/
theorem lenght_checked :
    "lenght".toList.toArray.size < 2 ^ 60 ∧ "length".toList.toArray.size < 2 ^ 60 ∧
      alignment.checkedBounded (2 ^ 64 - 1) "lenght".toList.toArray "length".toList.toArray =
        .ok (some 1) ∧
      ∃ rows, (alignment.band (2 ^ 64 - 1) "lenght".toList.toArray "length".toList.toArray).rows 6 =
        some rows ∧ 6 ∈ rows.last ∧ 6 + 1 < 2 ^ 64 := by
  have short : "lenght".toList.toArray.size < 2 ^ 60 := by decide +kernel
  have short' : "length".toList.toArray.size < 2 ^ 60 := by decide +kernel
  obtain ⟨same, room⟩ := alignment.checkedBounded_eq_and_add_one_lt (2 ^ 64 - 1) short short'
  have last : ((alignment.band (2 ^ 64 - 1) "lenght".toList.toArray
      "length".toList.toArray).rows 6).any (·.last.contains 6) = true := by decide +kernel
  obtain ⟨rows, reached, held⟩ := (Option.any_eq_true _ _).mp last
  have on : 6 ∈ rows.last := Array.contains_iff_mem.mp held
  refine ⟨short, short', ?_, rows, reached, on, room 6 rows reached rows.last (by simp) 6 on⟩
  rw [same]
  exact congrArg Except.ok (by decide +kernel)

end Metric

end NearMiss
