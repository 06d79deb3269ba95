import NearMiss.EditDistance.Metric

/-! How far from the written name a suggestion may be.

A tolerance allows one edit for every `charsPerEdit` characters, rounded up, and
never more than `maxEdits`; the usual one allows one edit in three characters and
three in all. -/
namespace NearMiss

structure Tolerance where
  charsPerEdit : Nat := 3
  maxEdits : Nat := 3
  metric : Metric := .alignment
deriving DecidableEq

namespace Tolerance

/-- The edits allowed for a name of `length` characters. A tolerance of no characters
for an edit counts as one character. -/
def threshold (tolerance : Tolerance) (length : Nat) : Nat :=
  let step := max tolerance.charsPerEdit 1
  min ((length + step - 1) / step) tolerance.maxEdits

theorem threshold_le (tolerance : Tolerance) (length : Nat) :
    tolerance.threshold length ≤ tolerance.maxEdits := Nat.min_le_right _ _

/-- Nothing is near the empty name. -/
@[simp] theorem threshold_zero (tolerance : Tolerance) : tolerance.threshold 0 = 0 := by
  have h : 0 + max tolerance.charsPerEdit 1 - 1 < max tolerance.charsPerEdit 1 := by omega
  simp only [threshold, Nat.div_eq_of_lt h, Nat.zero_min]

end Tolerance

end NearMiss
