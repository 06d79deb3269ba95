import Mathlib.Algebra.Order.Floor.Div
import NearMiss.Tolerance

/-! Tolerances compared.

The edits allowed for a name are a quotient rounded up, with a ceiling
(`threshold_eq`), so a tolerance that counts fewer characters for an edit and has
a higher ceiling allows at least as many for every name (`Within.threshold_le`). -/
namespace NearMiss.Tolerance

/-- The allowed edits as a quotient rounded up: no characters for an edit are one. -/
theorem threshold_eq (tolerance : Tolerance) (length : Nat) :
    tolerance.threshold length =
      min (length ⌈/⌉ max tolerance.charsPerEdit 1) tolerance.maxEdits := by
  rw [threshold, Nat.ceilDiv_eq_add_pred_div]

/-- The second tolerance measures as the first does and is no stricter in either bound. -/
structure Within (narrow wide : Tolerance) : Prop where
  metric_eq : narrow.metric = wide.metric
  charsPerEdit_le : wide.charsPerEdit ≤ narrow.charsPerEdit
  maxEdits_le : narrow.maxEdits ≤ wide.maxEdits

theorem Within.threshold_le {narrow wide : Tolerance} (h : narrow.Within wide) (length : Nat) :
    narrow.threshold length ≤ wide.threshold length := by
  have charsPerEdit_le := h.charsPerEdit_le
  rw [threshold_eq, threshold_eq]
  refine min_le_min ?_ h.maxEdits_le
  have enough : length ≤ max wide.charsPerEdit 1 * (length ⌈/⌉ max wide.charsPerEdit 1) :=
    (ceilDiv_le_iff_le_mul (by omega)).mp le_rfl
  rw [ceilDiv_le_iff_le_mul (by omega)]
  exact enough.trans (Nat.mul_le_mul_right _ (by omega))

end NearMiss.Tolerance
