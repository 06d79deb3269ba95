import Mathlib.Data.List.Induction
import NearMiss.Contest
import NearMiss.Proofs.EditDistance.Metric

/-! Who wins a contest.

The winner is one of those who qualify and no other of them beats it
(`mem_of_best`, `not_beats_best`); there is none only if none qualifies. When
every candidate's text is known, the candidates are gone through without a fault
and whoever qualifies takes part (`best_eq`). Otherwise the first candidate
without a text ends the contest (`foldlM_consider_of_find?`). -/
namespace NearMiss

namespace Entrant

/-- The best of some entrants. -/
def best (entrants : List Entrant) : Option Entrant :=
  entrants.foldl (fun holder newcomer => some (newcomer.orBest holder)) none

theorem best_concat (entrants : List Entrant) (newcomer : Entrant) :
    best (entrants ++ [newcomer]) = some (newcomer.orBest (best entrants)) := by
  rw [best, List.foldl_append]
  rfl

theorem best_eq_none_iff {entrants : List Entrant} : best entrants = none ↔ entrants = [] := by
  constructor
  · intro nobody
    cases entrants using List.reverseRecOn with
    | nil => rfl
    | append_singleton entrants newcomer =>
      rw [best_concat] at nobody
      cases nobody
  · intro empty
    rw [empty]
    rfl

theorem mem_of_best {entrants : List Entrant} {winner : Entrant} (h : best entrants = some winner) :
    winner ∈ entrants := by
  induction entrants using List.reverseRecOn generalizing winner with
  | nil => cases h
  | append_singleton entrants newcomer ih =>
    rw [best_concat, Option.some.injEq] at h
    rw [List.mem_append, List.mem_singleton, ← h]
    cases holder : best entrants with
    | none => exact .inr rfl
    | some holder' =>
      rw [orBest]
      split
      · exact .inr rfl
      · exact .inl (ih holder)

theorem not_beats_best {entrants : List Entrant} {winner other : Entrant}
    (h : best entrants = some winner) (on : other ∈ entrants) : ¬other.Beats winner := by
  induction entrants using List.reverseRecOn generalizing winner other with
  | nil => cases on
  | append_singleton entrants newcomer ih =>
    rw [best_concat, Option.some.injEq] at h
    rw [← h]
    rw [List.mem_append, List.mem_singleton] at on
    cases holder : best entrants with
    | none =>
      rw [best_eq_none_iff.mp holder] at on
      rcases on with on | rfl
      · cases on
      · exact not_beats_self other
    | some holder' =>
      rcases on with on | rfl
      · rw [orBest]
        split
        · next better => exact fun best => ih holder on (best.trans better)
        · exact ih holder on
      · exact (not_beats_orBest other holder').1

/-- Of two entrants one is better, unless they compare equal. -/
theorem beats_of_not_beats {a b : Entrant} (h : ¬b.Beats a) (apart : a.text ≠ b.text) :
    a.Beats b := by
  rcases Nat.lt_trichotomy a.distance b.distance with less | same | more
  · exact .inl less
  · refine .inr ⟨same, ?_⟩
    rcases Nat.lt_trichotomy a.candidate.depth b.candidate.depth with less | level | more
    · exact .inl less
    · refine .inr ⟨level, ?_⟩
      have later : ¬b.text < a.text := fun less => h (.inr ⟨same.symm, .inr ⟨level.symm, less⟩⟩)
      exact Std.lt_of_le_of_ne (String.not_lt.mp later) apart
    · exact absurd (.inr ⟨same.symm, .inl more⟩) h
  · exact absurd (.inl more) h

end Entrant

namespace Contest

variable {contest : Contest}

/-- The edits of a name with some text, if it qualifies. -/
def edits? (contest : Contest) (symbol : Symbol) (text : String) : Option Nat :=
  match contest.acceptance with
  | .exact => if symbol = contest.target then some 0 else none
  | .within edits =>
    if symbol = contest.target then none else contest.metric.within edits contest.targetText text

/-- A candidate as an entrant, if its text is known and it qualifies. -/
def entrant? (contest : Contest) (candidate : Candidate) : Option Entrant :=
  (contest.lexicon.text? candidate.symbol).bind fun text =>
    (contest.edits? candidate.symbol text).map fun distance => ⟨candidate, distance, text⟩

theorem start_eq {lexicon : Lexicon} {target : Symbol} {text : String}
    (known : lexicon.text? target = some text) (metric : Metric) (acceptance : Acceptance) :
    start lexicon metric target acceptance = .ok ⟨lexicon, metric, target, text, acceptance⟩ := by
  rw [start, Lexicon.text_eq_ok_iff.mpr known]
  rfl

/-- Who takes part in a contest for near names. -/
theorem entrant?_eq_some_iff {cap : Nat} (near : contest.acceptance = .within cap)
    {candidate : Candidate} {entrant : Entrant} :
    contest.entrant? candidate = some entrant ↔
      entrant.candidate = candidate ∧ candidate.symbol ≠ contest.target ∧
        contest.lexicon.text? candidate.symbol = some entrant.text ∧
        contest.metric.lastCell contest.targetText entrant.text = entrant.distance ∧
        entrant.distance ≤ cap := by
  simp only [entrant?, edits?, near, Option.bind_eq_some_iff, Option.map_eq_some_iff]
  constructor
  · intro ⟨text, spelled, distance, qualified, made⟩
    split at qualified
    · cases qualified
    · next other =>
      cases made
      exact ⟨rfl, other, spelled, (Metric.within_eq_some_iff _).mp qualified⟩
  · intro ⟨made, other, spelled, measured⟩
    cases made
    refine ⟨entrant.text, spelled, entrant.distance, ?_, rfl⟩
    rw [if_neg other]
    exact (Metric.within_eq_some_iff _).mpr measured

theorem score_eq {candidate : Candidate} {text : String}
    (known : contest.lexicon.text? candidate.symbol = some text) :
    contest.score candidate = .ok (contest.edits? candidate.symbol text) := by
  rw [score, edits?, Lexicon.text_eq_ok_iff.mpr known]
  cases contest.acceptance with
  | exact => rfl
  | within edits =>
    show (if candidate.symbol = contest.target then _ else _) = _
    split
    · rfl
    · rfl

theorem consider_eq {holder : Option Entrant} {candidate : Candidate} {text : String}
    (known : contest.lexicon.text? candidate.symbol = some text) :
    contest.consider holder candidate = .ok (match contest.entrant? candidate with
      | none => holder
      | some newcomer => some (newcomer.orBest holder)) := by
  rw [consider, score_eq known, entrant?, known, Lexicon.text_eq_ok_iff.mpr known,
    Option.bind_some]
  cases contest.edits? candidate.symbol text with
  | none => rfl
  | some distance => rfl

theorem foldlM_consider {candidates : List Candidate}
    (known : ∀ candidate ∈ candidates, ∃ text, contest.lexicon.text? candidate.symbol = some text)
    (holder : Option Entrant) :
    candidates.foldlM contest.consider holder =
      .ok ((candidates.filterMap contest.entrant?).foldl
        (fun holder newcomer => some (newcomer.orBest holder)) holder) := by
  induction candidates generalizing holder with
  | nil => rfl
  | cons candidate rest ih =>
    obtain ⟨text, here⟩ := known candidate List.mem_cons_self
    have later := ih fun other on => known other (List.mem_cons_of_mem _ on)
    rw [List.foldlM_cons, consider_eq here]
    show rest.foldlM contest.consider _ = _
    rw [later]
    cases qualified : contest.entrant? candidate with
    | none => rw [List.filterMap_cons_none qualified]
    | some newcomer => rw [List.filterMap_cons_some qualified, List.foldl_cons]

/-- All candidates take part, and no fault comes of it. -/
theorem best_eq {candidates : List Candidate}
    (known : ∀ candidate ∈ candidates, ∃ text, contest.lexicon.text? candidate.symbol = some text) :
    contest.best candidates = .ok (Entrant.best (candidates.filterMap contest.entrant?)) :=
  foldlM_consider known none

/-- A candidate without a text ends the contest, and the first one does. -/
theorem foldlM_consider_of_find? {cap : Nat} (near : contest.acceptance = .within cap)
    (written : ∃ text, contest.lexicon.text? contest.target = some text)
    {candidates : List Candidate} {unread : Candidate}
    (first : candidates.find? (fun candidate =>
      (contest.lexicon.text? candidate.symbol).isNone) = some unread) (holder : Option Entrant) :
    candidates.foldlM contest.consider holder = .error (.danglingSymbol unread.symbol) := by
  induction candidates generalizing holder with
  | nil => cases first
  | cons candidate rest ih =>
    rw [List.foldlM_cons]
    cases here : contest.lexicon.text? candidate.symbol with
    | some text =>
      have later : rest.find? _ = some unread :=
        (List.find?_cons_of_neg (by simp [here])).symm.trans first
      rw [consider_eq here]
      exact ih later _
    | none =>
      have same : candidate = unread :=
        Option.some.inj ((List.find?_cons_of_pos (by simp [here])).symm.trans first)
      have other : candidate.symbol ≠ contest.target := by
        intro target
        obtain ⟨text, known⟩ := written
        rw [← target, here] at known
        cases known
      have failed : contest.score candidate = .error (.danglingSymbol candidate.symbol) := by
        rw [score, near]
        show (if candidate.symbol = contest.target then _ else _) = _
        rw [if_neg other, Lexicon.text, here]
        rfl
      rw [consider, failed, ← same]
      rfl

end Contest

end NearMiss
