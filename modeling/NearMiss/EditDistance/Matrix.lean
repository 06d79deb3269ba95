import NearMiss.EditDistance.Metric

/-! The full distance matrix.

`cell` is the recurrence itself, with no cap, no window and no early end: the
value of row `i`, column `j` in terms of its neighbours, for every `i` and `j`.
The last cell is the distance of the two texts. It is what the band in
`EditDistance/Band.lean` has to agree with, and it is far too slow to run. -/
namespace NearMiss.Matrix

variable (swaps : Bool) (source goal : Array Char)

/-- Whether rows `i`, `i + 1` and columns `j`, `j + 1` hold the same two characters, exchanged. -/
def Exchanged (i j : Nat) : Prop :=
  source[i + 1]? = goal[j]? ∧ source[i]? = goal[j + 1]?

instance (i j : Nat) : Decidable (Exchanged source goal i j) :=
  inferInstanceAs (Decidable (_ ∧ _))

def replacement (i j : Nat) : Nat := if source[i]? = goal[j]? then 0 else 1

/-- The edits between the first `i` characters of one text and the first `j` of the other. -/
def cell : Nat → Nat → Nat
  | 0, j => j
  | i + 1, 0 => i + 1
  | i + 1, j + 1 =>
    let straight := min (min (cell i (j + 1) + 1) (cell (i + 1) j + 1))
      (cell i j + replacement source goal i j)
    match i, j with
    | i + 1, j + 1 =>
      if swaps ∧ Exchanged source goal i j then min straight (cell i j + 1) else straight
    | _, _ => straight
termination_by i j => i + j

/-- The last cell. -/
def distance : Nat := cell swaps source goal source.size goal.size

/-! ### The border and the step -/

@[simp] theorem cell_zero_left (j : Nat) : cell swaps source goal 0 j = j := by
  simp [cell]

@[simp] theorem cell_zero_right (i : Nat) : cell swaps source goal i 0 = i := by
  cases i <;> simp [cell]

end NearMiss.Matrix
