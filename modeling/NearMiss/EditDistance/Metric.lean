import NearMiss.EditDistance.Band

/-! Distances between texts.

An edit inserts, deletes or replaces one character; under `alignment` exchanging
two neighbouring characters is one edit as well, provided nothing else touches
them. Texts are compared character by character, and case counts. `within`
answers only up to a cap, which is what makes a comparison with a far text
cheap; `distance` has no cap. -/
namespace NearMiss

inductive Metric where
  | levenshtein
  | alignment
deriving DecidableEq

namespace Metric

/-- Whether an exchange of neighbours counts as one edit. -/
def swaps : Metric → Bool
  | levenshtein => false
  | alignment => true

def ofSwaps (swaps : Bool) : Metric := if swaps then alignment else levenshtein

/-- The comparison of two character sequences. No distance exceeds the longer of
them, so the cap need not either. -/
def band (metric : Metric) (cap : Nat) (source goal : Array Char) : Band :=
  ⟨metric.swaps, source, goal, min cap (max source.size goal.size)⟩

/-- The distance of two character sequences, if it is at most `cap`. Lengths that
differ by more than the cap need no comparison, and neither does an empty sequence. -/
def bounded (metric : Metric) (cap : Nat) (source goal : Array Char) : Option Nat :=
  let longer := max source.size goal.size
  if cap < longer - min source.size goal.size then none
  else if source.isEmpty || goal.isEmpty then some longer
  else (metric.band cap source goal).answer

/-- The distance of two texts, if it is at most `cap`. -/
def within (metric : Metric) (cap : Nat) (source goal : String) : Option Nat :=
  metric.bounded cap source.toList.toArray goal.toList.toArray

/-- The distance of two texts. -/
def distance (metric : Metric) (source goal : String) : Nat :=
  let source := source.toList.toArray
  let goal := goal.toList.toArray
  let longer := max source.size goal.size
  (metric.bounded longer source goal).getD longer

end Metric

end NearMiss
