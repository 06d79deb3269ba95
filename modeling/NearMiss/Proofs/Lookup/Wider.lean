import NearMiss.Proofs.Lookup.Answer

/-! Answers under a wider tolerance.

A wider tolerance admits more names to a contest, all of them farther away than
those that were admitted before. So whoever won still wins, and a contest under
the narrow tolerance is the one under the wide tolerance whose winner counts only
if it is near enough (`nearest_within`). What the larger cap does to the band of
the comparison does not show: a capped distance is the distance. -/
namespace NearMiss

/-- To leave out entrants that every other one beats leaves the best one, unless it is among
them. -/
theorem Entrant.best_filter {kept : Entrant → Bool}
    (ahead : ∀ a b : Entrant, kept a = true → kept b = false → a.Beats b)
    (entrants : List Entrant) :
    best (entrants.filter kept) = (best entrants).filter kept := by
  induction entrants using List.reverseRecOn with
  | nil => rfl
  | append_singleton entrants newcomer ih =>
    rw [List.filter_append, best_concat]
    cases joins : kept newcomer with
    | true =>
      rw [List.filter_cons_of_pos joins, List.filter_nil, best_concat, ih]
      cases best entrants with
      | none =>
        exact (Option.filter_some_pos joins).symm
      | some holder =>
        cases stays : kept holder with
        | true =>
          rw [Option.filter_some_pos stays, orBest]
          split
          · rw [Option.filter_some_pos joins]
          · rw [Option.filter_some_pos stays]
        | false =>
          have better := ahead newcomer holder joins stays
          rw [Option.filter_some_neg (by simp [stays]), orBest, orBest, if_pos better,
            Option.filter_some_pos joins]
    | false =>
      rw [List.filter_cons_of_neg (by simp [joins]), List.filter_nil, List.append_nil, ih]
      cases best entrants with
      | none =>
        show none = (some newcomer).filter kept
        rw [Option.filter_some_neg (by simp [joins])]
      | some holder =>
        cases stays : kept holder with
        | true =>
          have worse := (ahead holder newcomer stays joins).asymm
          rw [orBest, if_neg worse]
        | false =>
          rw [Option.filter_some_neg (by simp [stays]), orBest]
          split
          · rw [Option.filter_some_neg (by simp [joins])]
          · rw [Option.filter_some_neg (by simp [stays])]

namespace Lookup

open Scope (Id)

section Within
variable {lookup : Lookup} {wide : Tolerance} (h : lookup.tolerance.Within wide)
  {name : Unresolved}
include h

/-- Who takes part under the narrow tolerance takes part under the wide one, near enough. -/
theorem entrant?_within (written : String) (candidate : Candidate) :
    (lookup.contest name written).entrant? candidate =
      ((({ lookup with tolerance := wide } : Lookup).contest name written).entrant?
        candidate).filter (·.distance ≤ lookup.tolerance.threshold written.length) := by
  have wider := h.threshold_le written.length
  ext entrant
  rw [Option.filter_eq_some_iff, Contest.entrant?_eq_some_iff rfl,
    Contest.entrant?_eq_some_iff rfl, decide_eq_true_eq]
  simp only [contest, h.metric_eq]
  constructor
  · intro ⟨made, other, spelled, measured, close⟩
    exact ⟨⟨made, other, spelled, measured, close.trans wider⟩, close⟩
  · intro ⟨⟨made, other, spelled, measured, _⟩, close⟩
    exact ⟨made, other, spelled, measured, close⟩

/-- The answer under the narrow tolerance is the one under the wide tolerance, or none. -/
theorem nearest_within {written : String}
    (known : lookup.lexicon.text? name.symbol = some written) {candidates : List Candidate}
    {answer : Option Correction}
    (asked : ({ lookup with tolerance := wide } : Lookup).nearest name candidates = .ok answer) :
    lookup.nearest name candidates =
      .ok (answer.filter (·.distance ≤ lookup.tolerance.threshold written.length)) := by
  have known' : ({ lookup with tolerance := wide } : Lookup).lexicon.text? name.symbol =
    some written := known
  have spelled := spelled_of_nearest asked
  rw [nearest_eq known spelled, funext (entrant?_within h written), ← List.filter_filterMap,
    Entrant.best_filter]
  · rw [nearest_eq known' spelled, Except.ok.injEq] at asked
    rw [← asked, Option.filter_map]
    rfl
  · intro a b close far
    rw [decide_eq_true_eq] at close
    rw [decide_eq_false_iff_not, Nat.not_le] at far
    exact .inl (Nat.lt_of_le_of_lt close far)

/-- An answer that was found stays, behind whatever condition it is asked. -/
theorem found_within {α : Type} {allowed : Except Fault α} {candidates : List Candidate}
    {correction : Correction}
    (asked : (do let _ ← allowed; lookup.nearest name candidates) = .ok (some correction)) :
    (do let _ ← allowed; ({ lookup with tolerance := wide } : Lookup).nearest name candidates) =
      .ok (some correction) := by
  obtain ⟨value, passed, asked⟩ := except_bind_eq_ok_iff.mp asked
  refine except_bind_eq_ok_iff.mpr ⟨value, passed, ?_⟩
  obtain ⟨written, known⟩ := knows_of_nearest asked
  have known' : ({ lookup with tolerance := wide } : Lookup).lexicon.text? name.symbol =
    some written := known
  have spelled := spelled_of_nearest asked
  have result := nearest_eq known' spelled
  rw [nearest_within h known result, Except.ok.injEq, Option.filter_eq_some_iff] at asked
  rw [result, asked.1]

/-- Where nothing is found under the wide tolerance, nothing is under the narrow one. -/
theorem nothing_within {α : Type} {allowed : Except Fault α} {candidates : List Candidate}
    (asked : (do
      let _ ← allowed
      ({ lookup with tolerance := wide } : Lookup).nearest name candidates) = .ok none) :
    (do let _ ← allowed; lookup.nearest name candidates) = .ok none := by
  obtain ⟨value, passed, asked⟩ := except_bind_eq_ok_iff.mp asked
  refine except_bind_eq_ok_iff.mpr ⟨value, passed, ?_⟩
  obtain ⟨written, known⟩ := knows_of_nearest asked
  exact nearest_within h known asked

end Within

/-- What is found elsewhere is told apart by its origin. -/
theorem origin_of_elsewhere {lookup : Lookup} {name : Unresolved} {scope : Id}
    {correction : Correction} (asked : lookup.elsewhere name scope = .ok (some correction)) :
    ∃ home, correction.origin = .elsewhere home := by
  obtain ⟨_, _, nearest⟩ := except_bind_eq_ok_iff.mp asked
  obtain ⟨winner, ⟨on, _⟩, rfl⟩ := pool_of_nearest nearest
  obtain ⟨⟨home, depth⟩, _, made⟩ :=
    List.mem_flatMap.mp ((Candidate.firstUnseen_sublist _ _).subset on)
  obtain ⟨symbol, _, made⟩ := List.mem_map.mp made
  exact ⟨home, (congrArg Candidate.origin made).symm⟩

/-- **A wider tolerance changes no answer that was found.** Each of the four questions about near
names keeps its answer, with its origin and its distance. An unresolved name keeps the answer that
was found around it, and where the wider tolerance finds nothing to say the narrower one does not
either. -/
theorem found_answers_kept {lookup : Lookup} {wide : Tolerance}
    (h : lookup.tolerance.Within wide) (name : Unresolved) (scope : Id) :
    (∀ question ∈ [Question.enclosing scope, .elsewhere scope, .member scope, .enumerator scope],
      ∀ correction, lookup.ask name question = .ok (some correction) →
        ({ lookup with tolerance := wide } : Lookup).ask name question = .ok (some correction)) ∧
    (∀ correction, lookup.ask name (.unresolved scope) = .ok (some correction) →
      correction.origin = .enclosing →
        ({ lookup with tolerance := wide } : Lookup).ask name (.unresolved scope) =
          .ok (some correction)) ∧
    (({ lookup with tolerance := wide } : Lookup).ask name (.unresolved scope) = .ok none →
      lookup.ask name (.unresolved scope) = .ok none) := by
  refine ⟨?single, ?around, ?nothing⟩
  case single =>
    simp only [List.forall_mem_cons, List.not_mem_nil, false_imp_iff, implies_true, and_true]
    exact ⟨fun _ => found_within h, fun _ => found_within h, fun _ => found_within h,
      fun _ => found_within h⟩
  case around =>
    intro correction asked origin
    obtain ⟨first, around, rest⟩ := except_bind_eq_ok_iff.mp asked
    cases first with
    | some found =>
      cases rest
      exact unresolved_of_enclosing (found_within h around)
    | none =>
      -- Neither of the later questions gives an answer of this origin.
      obtain ⟨second, apart, rest⟩ := except_bind_eq_ok_iff.mp rest
      cases second with
      | some found =>
        cases rest
        obtain ⟨home, other⟩ := origin_of_elsewhere apart
        cases origin.symm.trans other
      | none =>
        obtain ⟨header, rfl⟩ := eq_of_missingHeader rest
        cases origin
  case nothing =>
    intro asked
    obtain ⟨written, known'⟩ := knows_of_ask asked
    have known : lookup.lexicon.text? name.symbol = some written := known'
    obtain ⟨first, around, rest⟩ := except_bind_eq_ok_iff.mp asked
    cases first with
    | some found => cases rest
    | none =>
      obtain ⟨second, apart, rest⟩ := except_bind_eq_ok_iff.mp rest
      cases second with
      | some found => cases rest
      | none =>
        have here : lookup.enclosing name scope = .ok none := nothing_within h around
        have there : lookup.elsewhere name scope = .ok none := nothing_within h apart
        have entered : ({ lookup with tolerance := wide } : Lookup).missingHeader name =
          .ok none := rest
        rw [missingHeader_eq known'] at entered
        rw [ask, unresolved_of_none here there, missingHeader_eq known]
        exact entered

theorem color_kept_by_wider_tolerance :
    paletteLookup.tolerance.Within ⟨1, 7, .alignment⟩ ∧ ∃ correction,
      paletteLookup.ask colr (.enclosing ⟨1⟩) = .ok (some correction) ∧
        ({ paletteLookup with tolerance := ⟨1, 7, .alignment⟩ } : Lookup).ask colr
          (.enclosing ⟨1⟩) = .ok (some correction) ∧
        ({ paletteLookup with tolerance := ⟨1, 7, .alignment⟩ } : Lookup).ask colr
          (.unresolved ⟨1⟩) = .ok (some correction) := by
  have wider : paletteLookup.tolerance.Within ⟨1, 7, .alignment⟩ :=
    ⟨rfl, by decide, by decide⟩
  obtain ⟨correction, asked, origin⟩ := exists_ask_palette
  obtain ⟨single, around, _⟩ := found_answers_kept wider colr ⟨1⟩
  exact ⟨wider, correction, asked, single _ List.mem_cons_self _ asked,
    around _ (unresolved_of_enclosing asked) origin⟩

end Lookup

end NearMiss
