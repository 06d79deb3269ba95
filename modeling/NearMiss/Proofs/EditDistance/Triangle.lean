import NearMiss.Proofs.EditDistance.Script

/-! Distances by way of a third text.

Without exchanges, one script can be carried on by another (`Script.trans`): a
character that the first one makes is kept, replaced or deleted by the second, and
what both together do to it is no dearer than each for itself. So no way round
over another text is shorter. An exchange may not be carried on, since nothing
else touches what it exchanged, and by way of exchanges there are short cuts. -/
namespace NearMiss

namespace Script

section Trans
variable {first second third : List Char} {edits edits' : Nat}

/-- A script is carried on from the first character if it is from the second one on. -/
theorem trans_cons {c d : Char} {cost : Nat} (change : Script .levenshtein [c] [d] cost)
    (through : ∀ {third : List Char} {edits' : Nat}, Script .levenshtein second third edits' →
      ∃ fewer ≤ edits + edits', Script .levenshtein first third fewer)
    (script : Script .levenshtein (d :: second) third edits') :
    ∃ fewer ≤ cost + edits + edits', Script .levenshtein (c :: first) third fewer := by
  -- The induction only passes the insertions that come before the first character.
  generalize whole : d :: second = text at script
  induction script with
  | done => cases whole
  | keep _ rest _ =>
    cases whole
    obtain ⟨fewer, few, rest⟩ := through rest
    exact ⟨cost + fewer, by omega, change.append rest⟩
  | replace _ e _ rest _ =>
    cases whole
    obtain ⟨fewer, few, rest⟩ := through rest
    refine ⟨_, ?_, (single c e).append rest⟩
    split <;> omega
  | delete _ rest _ =>
    cases whole
    obtain ⟨fewer, few, rest⟩ := through rest
    exact ⟨fewer + 1, by omega, delete c rest⟩
  | insert e _ ih =>
    obtain ⟨fewer, few, rest⟩ := ih whole
    exact ⟨fewer + 1, by omega, insert e rest⟩
  | exchange _ _ swaps _ _ => cases swaps

/-- One script after another. -/
theorem trans (script : Script .levenshtein first second edits)
    (script' : Script .levenshtein second third edits') :
    ∃ fewer ≤ edits + edits', Script .levenshtein first third fewer := by
  induction script generalizing third edits' with
  | done => exact ⟨edits', by omega, script'⟩
  | keep c _ ih =>
    obtain ⟨fewer, few, rest⟩ := trans_cons (keep c done) ih script'
    exact ⟨fewer, by omega, rest⟩
  | replace c d apart _ ih =>
    obtain ⟨fewer, few, rest⟩ := trans_cons (replace c d apart done) ih script'
    exact ⟨fewer, by omega, rest⟩
  | delete c _ ih =>
    obtain ⟨fewer, few, rest⟩ := ih script'
    exact ⟨fewer + 1, by omega, delete c rest⟩
  | insert d _ ih =>
    -- What the first script inserts, the second one need not treat.
    obtain ⟨less, few, rest⟩ := script'.drop_source
    obtain ⟨fewer, few', rest⟩ := ih rest
    exact ⟨fewer, by omega, rest⟩
  | exchange _ _ swaps _ _ => cases swaps

end Trans

end Script

namespace Metric

/-- **The triangle inequality**: without exchanges a text is no farther away than by way of any
other text. -/
theorem levenshtein_triangle (first second third : String) :
    levenshtein.distance first third ≤
      levenshtein.distance first second + levenshtein.distance second third := by
  obtain ⟨fewer, few, script⟩ := (levenshtein.script_lastCell first second).trans
    (levenshtein.script_lastCell second third)
  rw [distance_eq, distance_eq, distance_eq]
  exact (levenshtein.lastCell_le_of_script script).trans few

/-- With exchanges a third text can be a short cut. -/
example : alignment.distance "ca" "ac" + alignment.distance "ac" "abc" <
    alignment.distance "ca" "abc" := by
  decide +kernel

end Metric

end NearMiss
