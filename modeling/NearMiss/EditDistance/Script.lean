import NearMiss.EditDistance.Metric

/-! Edit scripts.

A script turns one text into another by reading both from left to right, each
step consuming characters of either; `Script metric source goal edits` says that
some script does so with that many edits. Scripts know nothing of matrices: they
are what a distance counts. -/
namespace NearMiss

inductive Script (metric : Metric) : List Char → List Char → Nat → Prop
  | done : Script metric [] [] 0
  | keep {source goal : List Char} {edits : Nat} (c : Char) :
      Script metric source goal edits → Script metric (c :: source) (c :: goal) edits
  | replace {source goal : List Char} {edits : Nat} (c d : Char) :
      c ≠ d → Script metric source goal edits →
        Script metric (c :: source) (d :: goal) (edits + 1)
  | delete {source goal : List Char} {edits : Nat} (c : Char) :
      Script metric source goal edits → Script metric (c :: source) goal (edits + 1)
  | insert {source goal : List Char} {edits : Nat} (d : Char) :
      Script metric source goal edits → Script metric source (d :: goal) (edits + 1)
  | exchange {source goal : List Char} {edits : Nat} (c d : Char) :
      metric.swaps = true → Script metric source goal edits →
        Script metric (c :: d :: source) (d :: c :: goal) (edits + 1)

namespace Script
variable {metric : Metric}

/-- Deleting everything. -/
theorem toNil (source : List Char) : Script metric source [] source.length := by
  induction source with
  | nil => exact done
  | cons c source ih => exact delete c ih

/-- Inserting everything. -/
theorem ofNil (goal : List Char) : Script metric [] goal goal.length := by
  induction goal with
  | nil => exact done
  | cons d goal ih => exact insert d ih

/-- A text turns into itself without edits. -/
theorem self (text : List Char) : Script metric text text 0 := by
  induction text with
  | nil => exact done
  | cons c text ih => exact keep c ih

/-- A script that edits nothing leaves the text as it is. -/
theorem eq_of_zero {source goal : List Char} (h : Script metric source goal 0) : source = goal := by
  generalize hk : 0 = edits at h
  induction h with
  | done => rfl
  | keep c _ ih => rw [ih hk]
  | replace | delete | insert | exchange => omega

end Script

end NearMiss
