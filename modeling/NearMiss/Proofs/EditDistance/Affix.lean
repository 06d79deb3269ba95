import NearMiss.Proofs.EditDistance.Script

/-! Texts that begin and end alike.

What two texts share at either end adds nothing to their distance and takes
nothing from it (`lastCell_ends`). A script for the middles does for the whole
texts, which keep their ends; and a script for the whole texts is never cheaper
for touching the first character of both (`Script.of_cons`): at most it exchanges
that character across the boundary, with a character equal to it. Scripts can be
read backwards (`Script.reverse`), so the same holds of the last character. -/
namespace NearMiss

namespace Script
variable {metric : Metric} {source goal : List Char} {edits : Nat}

/-- The same edits, from the ends of the texts to their beginnings. -/
theorem reverse (script : Script metric source goal edits) :
    Script metric source.reverse goal.reverse edits := by
  induction script with
  | done => exact done
  | keep c _ ih => simpa using ih.append (keep c done)
  | replace c d apart _ ih => simpa using ih.append (replace c d apart done)
  | delete c _ ih => simpa using ih.append (delete c done)
  | insert d _ ih => simpa using ih.append (insert d done)
  | exchange c d swaps _ ih => simpa using ih.append (exchange d c swaps done)

/-- What both texts begin with need not be touched. -/
theorem of_cons {c : Char} (script : Script metric (c :: source) (c :: goal) edits) :
    ∃ fewer ≤ edits, Script metric source goal fewer := by
  cases script with
  | keep _ rest => exact ⟨edits, Nat.le_refl _, rest⟩
  | replace _ _ apart _ => exact absurd rfl apart
  | delete _ rest => exact rest.drop_goal
  | insert _ rest => exact rest.drop_source
  | exchange _ _ _ rest => exact ⟨_, Nat.le_succ _, keep c rest⟩

theorem of_append_left {before : List Char}
    (script : Script metric (before ++ source) (before ++ goal) edits) :
    ∃ fewer ≤ edits, Script metric source goal fewer := by
  induction before generalizing edits with
  | nil => exact ⟨edits, Nat.le_refl _, script⟩
  | cons c before ih =>
    obtain ⟨fewer, few, rest⟩ := script.of_cons
    obtain ⟨fewest, few', rest⟩ := ih rest
    exact ⟨fewest, few'.trans few, rest⟩

/-- What both texts end with need not be touched either. -/
theorem of_append_right {after : List Char}
    (script : Script metric (source ++ after) (goal ++ after) edits) :
    ∃ fewer ≤ edits, Script metric source goal fewer := by
  have backwards := script.reverse
  rw [List.reverse_append, List.reverse_append] at backwards
  obtain ⟨fewer, few, rest⟩ := backwards.of_append_left
  exact ⟨fewer, few, by simpa using rest.reverse⟩

end Script

namespace Metric
variable (metric : Metric)

theorem lastCell_ends (before source goal after : String) :
    metric.lastCell (before ++ source ++ after) (before ++ goal ++ after) =
      metric.lastCell source goal := by
  have whole := metric.script_lastCell (before ++ source ++ after) (before ++ goal ++ after)
  have kept := ((Script.self before.toList).append (metric.script_lastCell source goal)).append
    (Script.self after.toList)
  simp only [String.toList_append] at whole
  apply Nat.le_antisymm
  · refine metric.lastCell_le_of_script ?_
    simpa using kept
  · obtain ⟨fewer, few, inner⟩ := whole.of_append_right
    obtain ⟨fewest, few', middle⟩ := inner.of_append_left
    exact (metric.lastCell_le_of_script middle).trans (few'.trans few)

/-- **Only what lies between counts**: texts that begin alike and end alike are as far apart as
their middles are, under any cap and without one. -/
theorem within_and_distance_of_ends (before source goal after : String) :
    (∀ cap, metric.within cap (before ++ source ++ after) (before ++ goal ++ after) =
      metric.within cap source goal) ∧
      metric.distance (before ++ source ++ after) (before ++ goal ++ after) =
        metric.distance source goal := by
  have same := metric.lastCell_ends before source goal after
  constructor
  · intro cap
    rw [within_eq, within_eq, same]
  · rw [distance_eq, distance_eq, same]

end Metric

end NearMiss
