import Mathlib.Order.Bounds.Basic
import NearMiss.EditDistance.Script
import NearMiss.Proofs.EditDistance.Metric

/-! Distances count edits.

A script can be followed through the full matrix, where no step of it gains more
than it costs (`distance_le_add`); and every cell has a script that costs just
what the cell says (`script_cell`). So a distance is the least number of edits
that turns one text into the other (`distance_isLeast_script`), and what holds of
scripts holds of distances: a script can be read the other way round, so the
order of the two texts does not matter, and one without edits changes nothing. -/
namespace NearMiss

namespace Script
variable {metric : Metric}

/-- One text after another, with the edits of both. -/
theorem append {source goal source' goal' : List Char} {edits edits' : Nat}
    (first : Script metric source goal edits) (second : Script metric source' goal' edits') :
    Script metric (source ++ source') (goal ++ goal') (edits + edits') := by
  induction first with
  | done => simpa using second
  | keep c _ ih => exact keep c ih
  | replace c d apart _ ih =>
    rw [Nat.add_right_comm]
    exact replace c d apart ih
  | delete c _ ih =>
    rw [Nat.add_right_comm]
    exact delete c ih
  | insert d _ ih =>
    rw [Nat.add_right_comm]
    exact insert d ih
  | exchange c d swaps _ ih =>
    rw [Nat.add_right_comm]
    exact exchange c d swaps ih

/-- A character for another one, or for itself. -/
theorem single (c d : Char) : Script metric [c] [d] (if c = d then 0 else 1) := by
  split
  · next same => exact same ▸ keep c done
  · next apart => exact replace c d apart done

/-- A script undone: what was deleted is inserted and the other way round. -/
theorem symm {source goal : List Char} {edits : Nat} (script : Script metric source goal edits) :
    Script metric goal source edits := by
  induction script with
  | done => exact done
  | keep c _ ih => exact keep c ih
  | replace c d apart _ ih => exact replace d c apart.symm ih
  | delete c _ ih => exact insert c ih
  | insert d _ ih => exact delete d ih
  | exchange c d swaps _ ih => exact exchange d c swaps ih

/-- To reach a text without its first character takes one edit more at most. -/
theorem drop_goal {source goal : List Char} {d : Char} {edits : Nat}
    (script : Script metric source (d :: goal) edits) :
    ∃ fewer ≤ edits + 1, Script metric source goal fewer := by
  -- The induction only passes the deletions that come before the first character is made.
  generalize whole : d :: goal = text at script
  induction script with
  | done => cases whole
  | keep c rest _ =>
    cases whole
    exact ⟨_, Nat.le_refl _, delete d rest⟩
  | replace c _ _ rest _ =>
    cases whole
    exact ⟨_, Nat.le_succ _, delete c rest⟩
  | delete c _ ih =>
    obtain ⟨fewer, few, rest⟩ := ih whole
    exact ⟨fewer + 1, Nat.succ_le_succ few, delete c rest⟩
  | insert _ rest _ =>
    cases whole
    exact ⟨_, by omega, rest⟩
  | exchange c d _ rest _ =>
    cases whole
    exact ⟨_, Nat.le_succ _, keep c (delete d rest)⟩

/-- To start from a text without its first character takes one edit more at most. -/
theorem drop_source {source goal : List Char} {c : Char} {edits : Nat}
    (script : Script metric (c :: source) goal edits) :
    ∃ fewer ≤ edits + 1, Script metric source goal fewer := by
  obtain ⟨fewer, few, script⟩ := script.symm.drop_goal
  exact ⟨fewer, few, script.symm⟩

end Script

namespace Matrix
variable {metric : Metric} {source goal : List Char}

theorem replacement_eq {i j : Nat} {c d : Char} (here : source[i]? = some c)
    (there : goal[j]? = some d) :
    replacement source.toArray goal.toArray i j = if c = d then 0 else 1 := by
  simp [replacement, here, there]

theorem take_succ_eq {text : List Char} {i : Nat} {c : Char} (here : text[i]? = some c) :
    text.take (i + 1) = text.take i ++ [c] := by
  rw [List.take_add_one, here]
  rfl

/-- What is left of a text from some place on. -/
def Rest (text : List Char) (place : Nat) (rest : List Char) : Prop :=
  ∃ read, text = read ++ rest ∧ read.length = place

theorem Rest.next {text rest : List Char} {place : Nat} {c : Char}
    (h : Rest text place (c :: rest)) : text[place]? = some c ∧ Rest text (place + 1) rest := by
  obtain ⟨read, rfl, rfl⟩ := h
  exact ⟨by simp, read ++ [c], by simp, by simp⟩

/-- From the places a script starts at, its edits are enough to come to the end. -/
theorem distance_le_add {rest rest' : List Char} {edits : Nat}
    (script : Script metric rest rest' edits) {i j : Nat} (here : Rest source i rest)
    (there : Rest goal j rest') :
    distance metric.swaps source.toArray goal.toArray ≤
      cell metric.swaps source.toArray goal.toArray i j + edits := by
  induction script generalizing i j with
  | done =>
    obtain ⟨read, rfl, rfl⟩ := here
    obtain ⟨read', rfl, rfl⟩ := there
    simp [distance]
  | keep c _ ih =>
    obtain ⟨first, here⟩ := here.next
    obtain ⟨first', there⟩ := there.next
    have later := ih here there
    have way := cell_le_straight metric.swaps source.toArray goal.toArray i j
    rw [straight, replacement_eq first first', if_pos rfl] at way
    omega
  | replace c d _ _ ih =>
    have later := ih here.next.2 there.next.2
    have way := cell_le_replace metric.swaps source.toArray goal.toArray i j
    omega
  | delete c _ ih =>
    have later := ih here.next.2 there
    have way := cell_succ_le metric.swaps source.toArray goal.toArray i j
    omega
  | insert d _ ih =>
    have later := ih here there.next.2
    have way := cell_le_succ metric.swaps source.toArray goal.toArray i j
    omega
  | exchange c d swaps _ ih =>
    obtain ⟨first, here⟩ := here.next
    obtain ⟨first', there⟩ := there.next
    have later : _ ≤ cell _ _ _ (i + 2) (j + 2) + _ := ih here.next.2 there.next.2
    have exchanged : Exchanged source.toArray goal.toArray i j := by
      simp [Exchanged, first, first', here.next.1, there.next.1]
    have way := cell_le_exchange metric.swaps source.toArray goal.toArray ⟨swaps, exchanged⟩
    omega

/-- The beginnings that a cell belongs to are as many edits apart as it says. -/
theorem script_cell {i j : Nat} (inside : i ≤ source.length) (inside' : j ≤ goal.length) :
    Script metric (source.take i) (goal.take j)
      (cell metric.swaps source.toArray goal.toArray i j) := by
  -- An exchange comes from two rows up, so the induction is on both indices together.
  induction total : i + j using Nat.strongRecOn generalizing i j with
  | ind total ih =>
    cases i with
    | zero => simpa [inside'] using @Script.ofNil metric (goal.take j)
    | succ i =>
      cases j with
      | zero => simpa [inside] using @Script.toNil metric (source.take (i + 1))
      | succ j =>
        obtain ⟨c, here⟩ : ∃ c, source[i]? = some c := ⟨_, List.getElem?_eq_getElem inside⟩
        obtain ⟨d, there⟩ : ∃ d, goal[j]? = some d := ⟨_, List.getElem?_eq_getElem inside'⟩
        have above := ih (i + (j + 1)) (by omega) (by omega) inside' rfl
        have left := ih (i + 1 + j) (by omega) inside (by omega) rfl
        have corner := ih (i + j) (by omega) (by omega) (by omega) rfl
        have grown := take_succ_eq here
        have grown' := take_succ_eq there
        rcases cell_cases metric.swaps source.toArray goal.toArray i j with
          way | way | way | ⟨i', j', rfl, rfl, ⟨swaps, crossed, crossed'⟩, way⟩
        · rw [way, grown]
          simpa using above.append (.delete c .done)
        · rw [way, grown']
          simpa using left.append (.insert d .done)
        · rw [way, grown, grown', replacement_eq here there]
          exact corner.append (.single c d)
        · simp only [List.getElem?_toArray] at crossed crossed'
          have skipped := ih (i' + j') (by omega) (by omega) (by omega) rfl
          rw [way, grown, grown', take_succ_eq (crossed'.trans there),
            take_succ_eq (crossed.symm.trans here), List.append_assoc, List.append_assoc]
          exact skipped.append (.exchange d c swaps .done)

end Matrix

namespace Metric
variable (metric : Metric)

theorem script_lastCell (source goal : String) :
    Script metric source.toList goal.toList (metric.lastCell source goal) := by
  have last : Script metric (source.toList.take source.toList.length)
      (goal.toList.take goal.toList.length) (metric.lastCell source goal) :=
    Matrix.script_cell (Nat.le_refl _) (Nat.le_refl _)
  rwa [List.take_length, List.take_length] at last

theorem lastCell_le_of_script {source goal : String} {edits : Nat}
    (script : Script metric source.toList goal.toList edits) :
    metric.lastCell source goal ≤ edits := by
  have enough : metric.lastCell source goal ≤ Matrix.cell _ _ _ 0 0 + edits :=
    Matrix.distance_le_add script ⟨[], rfl, rfl⟩ ⟨[], rfl, rfl⟩
  rwa [Matrix.cell_zero_left, Nat.zero_add] at enough

/-- **A distance is the least number of edits** that turns one text into the other: some script
has as many, and none has fewer. -/
theorem distance_isLeast_script (source goal : String) :
    IsLeast {edits | Script metric source.toList goal.toList edits}
      (metric.distance source goal) := by
  rw [distance_eq]
  exact ⟨metric.script_lastCell source goal, fun _ => metric.lastCell_le_of_script⟩

/-- Either text can be turned into the other with the same edits. -/
theorem lastCell_comm (source goal : String) :
    metric.lastCell source goal = metric.lastCell goal source :=
  Nat.le_antisymm (metric.lastCell_le_of_script (metric.script_lastCell goal source).symm)
    (metric.lastCell_le_of_script (metric.script_lastCell source goal).symm)

theorem lastCell_self (text : String) : metric.lastCell text text = 0 :=
  Nat.le_zero.mp (metric.lastCell_le_of_script (Script.self text.toList))

/-- Only a text itself is no edits away from it. -/
theorem eq_of_lastCell_eq_zero {source goal : String} (h : metric.lastCell source goal = 0) :
    source = goal := by
  have script := metric.script_lastCell source goal
  rw [h] at script
  exact String.toList_injective script.eq_of_zero

/-- **A capped distance is symmetric and tells texts apart**: the order of the texts does not
matter to it, and whatever the cap, a text is no edits away from itself and from no other one. -/
theorem within_comm_and_eq_zero_iff (cap : Nat) (source goal : String) :
    metric.within cap source goal = metric.within cap goal source ∧
      (metric.within cap source goal = some 0 ↔ source = goal) := by
  constructor
  · rw [within_eq, within_eq, lastCell_comm]
  · rw [within_eq_some_iff]
    constructor
    · intro ⟨zero, _⟩
      exact metric.eq_of_lastCell_eq_zero zero
    · rintro rfl
      exact ⟨metric.lastCell_self source, Nat.zero_le cap⟩

end Metric

end NearMiss
