import NearMiss.Proofs.Contest
import NearMiss.Proofs.EditDistance.Script
import NearMiss.Proofs.Lookup.Visible

/-! What an exchange of neighbours saves.

To count an exchange as one edit makes no distance larger, since every script
without exchanges is still one (`Script.toAlignment`), and none smaller than half,
since an exchange can be done by two replacements (`Script.toLevenshtein`). So
whatever was near enough without exchanges is with them, under the same cap. -/
namespace NearMiss

namespace Script
variable {metric : Metric} {source goal : List Char} {edits : Nat}

/-- Any script is one where exchanges count as one edit. -/
theorem toAlignment (script : Script metric source goal edits) :
    Script .alignment source goal edits := by
  induction script with
  | done => exact done
  | keep c _ ih => exact keep c ih
  | replace c d apart _ ih => exact replace c d apart ih
  | delete c _ ih => exact delete c ih
  | insert d _ ih => exact insert d ih
  | exchange c d _ _ ih => exact exchange c d rfl ih

/-- Without exchanges, two edits do for each one. -/
theorem toLevenshtein (script : Script metric source goal edits) :
    ∃ more ≤ 2 * edits, Script .levenshtein source goal more := by
  induction script with
  | done => exact ⟨0, Nat.le_refl _, done⟩
  | keep c _ ih =>
    obtain ⟨more, twice, rest⟩ := ih
    exact ⟨more, twice, keep c rest⟩
  | replace c d apart _ ih =>
    obtain ⟨more, twice, rest⟩ := ih
    exact ⟨more + 1, by omega, replace c d apart rest⟩
  | delete c _ ih =>
    obtain ⟨more, twice, rest⟩ := ih
    exact ⟨more + 1, by omega, delete c rest⟩
  | insert d _ ih =>
    obtain ⟨more, twice, rest⟩ := ih
    exact ⟨more + 1, by omega, insert d rest⟩
  | exchange c d _ _ ih =>
    obtain ⟨more, twice, rest⟩ := ih
    have both := ((single c d).append (single d c)).append rest
    refine ⟨_, ?_, both⟩
    split <;> split <;> omega

end Script

namespace Metric
variable (metric : Metric) (source goal : String)

theorem lastCell_alignment_le :
    alignment.lastCell source goal ≤ metric.lastCell source goal :=
  alignment.lastCell_le_of_script (metric.script_lastCell source goal).toAlignment

theorem lastCell_levenshtein_le :
    levenshtein.lastCell source goal ≤ 2 * metric.lastCell source goal := by
  obtain ⟨more, twice, script⟩ := (metric.script_lastCell source goal).toLevenshtein
  exact (levenshtein.lastCell_le_of_script script).trans twice

/-- What is found without exchanges is found with them, in as many edits or down to half. -/
theorem within_alignment {cap edits : Nat} {source goal : String}
    (found : levenshtein.within cap source goal = some edits) :
    ∃ fewer, alignment.within cap source goal = some fewer ∧ fewer ≤ edits ∧
      edits ≤ 2 * fewer := by
  obtain ⟨measured, near⟩ := (within_eq_some_iff _).mp found
  have less := levenshtein.lastCell_alignment_le source goal
  have half := alignment.lastCell_levenshtein_le source goal
  rw [measured] at less half
  exact ⟨_, (within_eq_some_iff _).mpr ⟨rfl, less.trans near⟩, less, half⟩

end Metric

namespace Contest

/-- A candidate that qualifies without exchanges qualifies with them. -/
theorem score_alignment {contest : Contest} {candidate : Candidate} {edits : Nat}
    (plain : contest.metric = .levenshtein)
    (qualified : contest.score candidate = .ok (some edits)) :
    ∃ fewer, ({ contest with metric := .alignment } : Contest).score candidate =
      .ok (some fewer) ∧ fewer ≤ edits ∧ edits ≤ 2 * fewer := by
  obtain ⟨lexicon, metric, target, targetText, acceptance⟩ := contest
  cases plain
  cases acceptance with
  | exact =>
    -- Whether the very name was written does not depend on the metric.
    exact ⟨edits, qualified, Nat.le_refl _, by omega⟩
  | within cap =>
    rw [score] at qualified
    rw [score]
    dsimp only at qualified ⊢
    split at qualified
    · cases qualified
    · next other =>
      obtain ⟨text, spelled, measured⟩ := except_bind_eq_ok_iff.mp qualified
      obtain ⟨fewer, found, less, half⟩ := Metric.within_alignment (Except.ok.inj measured)
      refine ⟨fewer, ?_, less, half⟩
      rw [if_neg other, spelled]
      exact congrArg Except.ok found

end Contest

namespace Metric

/-- **Exchanges save half of the edits at most**, and they cost nothing: a distance that counts
an exchange as one edit is between half the plain distance and the plain distance. So what a cap
admits without exchanges it admits with them, and no candidate of a contest drops out. -/
theorem alignment_between_half_and_levenshtein :
    (∀ source goal,
      alignment.distance source goal ≤ levenshtein.distance source goal ∧
        levenshtein.distance source goal ≤ 2 * alignment.distance source goal) ∧
    (∀ cap source goal edits, levenshtein.within cap source goal = some edits →
      ∃ fewer, alignment.within cap source goal = some fewer ∧ fewer ≤ edits ∧
        edits ≤ 2 * fewer) ∧
    (∀ (contest : Contest) (candidate : Candidate) (edits : Nat),
      contest.metric = levenshtein → contest.score candidate = .ok (some edits) →
        ∃ fewer, ({ contest with metric := alignment } : Contest).score candidate =
          .ok (some fewer) ∧ fewer ≤ edits ∧ edits ≤ 2 * fewer) := by
  refine ⟨?_, fun _ _ _ _ => within_alignment, fun _ _ _ => Contest.score_alignment⟩
  intro source goal
  rw [distance_eq, distance_eq]
  exact ⟨levenshtein.lastCell_alignment_le source goal,
    alignment.lastCell_levenshtein_le source goal⟩

/-- A contest in which `color` was written with its first two characters exchanged. -/
def exchangedColor : Contest := ⟨Lookup.colors, .levenshtein, ⟨0⟩, "oclor", .within 2⟩

theorem lenght_within_half :
    levenshtein.within 2 "lenght" "length" = some 2 ∧
      (∃ fewer, alignment.within 2 "lenght" "length" = some fewer ∧ fewer ≤ 2 ∧ 2 ≤ 2 * fewer) ∧
      exchangedColor.score ⟨⟨805306368⟩, .enclosing, 0⟩ = .ok (some 2) ∧
      ∃ fewer, ({ exchangedColor with metric := alignment } : Contest).score
        ⟨⟨805306368⟩, .enclosing, 0⟩ = .ok (some fewer) ∧ fewer ≤ 2 ∧ 2 ≤ 2 * fewer := by
  have found : levenshtein.within 2 "lenght" "length" = some 2 := by decide +kernel
  have qualified : exchangedColor.score ⟨⟨805306368⟩, .enclosing, 0⟩ = .ok (some 2) := by
    have known : Lookup.colors.text? ⟨805306368⟩ = some "color" := by decide +kernel
    have edits : exchangedColor.edits? ⟨805306368⟩ "color" = some 2 := by decide +kernel
    exact (@Contest.score_eq exchangedColor ⟨⟨805306368⟩, .enclosing, 0⟩ "color" known).trans
      (congrArg Except.ok edits)
  obtain ⟨_, texts, candidates⟩ := alignment_between_half_and_levenshtein
  exact ⟨found, texts _ _ _ _ found, qualified, candidates _ _ _ rfl qualified⟩

end Metric

end NearMiss
