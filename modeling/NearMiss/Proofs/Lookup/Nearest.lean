import NearMiss.Lookup
import NearMiss.Proofs.Candidate.Elsewhere
import NearMiss.Proofs.Contest

/-! The nearest of the names that are offered.

A question is settled by the best of a pool: all that could be offered for it,
with nothing left out for being declared twice or for being too far. What is
really gone through is a list of candidates that names no name twice, and
`nearest_settles` says when that makes no difference: each name in the pool has
to be in the list, where it is closest. -/
namespace NearMiss

open Scope (Graph Id Tree)

/-- The best of a pool, if there is anyone in it, is the answer. -/
inductive Settles (pool : Entrant → Prop) (span : Span) : Option Correction → Prop
  | nobody : (∀ entrant, ¬pool entrant) → Settles pool span none
  | best {winner : Entrant} : pool winner →
      (∀ other, pool other → other = winner ∨ winner.Beats other) →
      Settles pool span
        (some ⟨winner.candidate.symbol, winner.candidate.origin, span, winner.distance⟩)

namespace Lookup

/-- A lookup in a tree whose names all have their texts in the lexicon. -/
structure InTree (lookup : Lookup) (tree : Tree) : Prop where
  graph_eq : lookup.graph = tree.graph
  made : tree.Made
  /-- Each scope has a handle of its own. -/
  small : tree.size ≤ Id.count
  spelled : ∀ (scope : Id) (symbol : Symbol), symbol ∈ tree.graph.members scope →
    ∃ text, lookup.lexicon.text? symbol = some text

/-- Another name than the written one, no more edits away from it than the tolerance allows. -/
structure Near (lookup : Lookup) (name : Unresolved) (symbol : Symbol) (edits : Nat)
    (text : String) : Prop where
  other : symbol ≠ name.symbol
  spelled : lookup.lexicon.text? symbol = some text
  close : ∃ written, lookup.lexicon.text? name.symbol = some written ∧
    lookup.tolerance.metric.lastCell written text = edits ∧
    edits ≤ lookup.tolerance.threshold written.length

/-- All near names that could be offered. -/
def Pool (lookup : Lookup) (name : Unresolved) (offered : Candidate → Prop) (entrant : Entrant) :
    Prop :=
  offered entrant.candidate ∧
    lookup.Near name entrant.candidate.symbol entrant.distance entrant.text

/-- A name is near in one way only. -/
theorem Near.unique {lookup : Lookup} {name : Unresolved} {symbol : Symbol} {edits edits' : Nat}
    {text text' : String} (h : lookup.Near name symbol edits text)
    (h' : lookup.Near name symbol edits' text') : edits = edits' ∧ text = text' := by
  obtain ⟨written, known, measured, _⟩ := h.close
  obtain ⟨written', known', measured', _⟩ := h'.close
  cases h.spelled.symm.trans h'.spelled
  cases known.symm.trans known'
  exact ⟨measured.symm.trans measured', rfl⟩

/-- Where no name is offered twice, texts tell entrants apart. -/
theorem eq_of_text_eq {lookup : Lookup} {name : Unresolved} {candidates : List Candidate}
    (different : (candidates.map Candidate.symbol).Nodup) {a b : Entrant}
    (ha : lookup.Pool name (· ∈ candidates) a) (hb : lookup.Pool name (· ∈ candidates) b)
    (same : a.text = b.text) : a = b := by
  obtain ⟨candidate, distance, text⟩ := a
  obtain ⟨candidate', distance', text'⟩ := b
  obtain ⟨on, near⟩ := ha
  obtain ⟨on', near'⟩ := hb
  have symbols : candidate.symbol = candidate'.symbol :=
    Lexicon.text?_injective near.spelled (near'.spelled.trans (congrArg some same.symm))
  have one : candidate = candidate' := List.inj_on_of_nodup_map different on on' symbols
  subst one
  obtain ⟨distances, _⟩ := near.unique near'
  exact congrArg₂ (Entrant.mk candidate) distances same

/-- The contest for a name that was written so. -/
def contest (lookup : Lookup) (name : Unresolved) (written : String) : Contest where
  lexicon := lookup.lexicon
  metric := lookup.tolerance.metric
  target := name.symbol
  targetText := written
  acceptance := .within (lookup.tolerance.threshold written.length)

section Nearest
variable {lookup : Lookup} {name : Unresolved} {written : String}
  (known : lookup.lexicon.text? name.symbol = some written)
include known

theorem entrant?_contest_iff {candidate : Candidate} {entrant : Entrant} :
    (lookup.contest name written).entrant? candidate = some entrant ↔
      entrant.candidate = candidate ∧
        lookup.Near name candidate.symbol entrant.distance entrant.text := by
  rw [Contest.entrant?_eq_some_iff rfl]
  constructor
  · intro ⟨made, other, spelled, measured⟩
    exact ⟨made, other, spelled, written, known, measured⟩
  · intro ⟨made, other, spelled, written', known', measured⟩
    cases known.symm.trans known'
    exact ⟨made, other, spelled, measured⟩

theorem mem_entrants_iff {candidates : List Candidate} {entrant : Entrant} :
    entrant ∈ candidates.filterMap (lookup.contest name written).entrant? ↔
      lookup.Pool name (· ∈ candidates) entrant := by
  rw [List.mem_filterMap]
  simp only [entrant?_contest_iff known]
  constructor
  · intro ⟨candidate, on, made, near⟩
    cases made
    exact ⟨on, near⟩
  · intro ⟨on, near⟩
    exact ⟨entrant.candidate, on, rfl, near⟩

theorem nearest_eq_winner (candidates : List Candidate) :
    lookup.nearest name candidates =
      (lookup.contest name written).winner candidates name.span := by
  rw [nearest, Lexicon.text_eq_ok_iff.mpr known]
  show (Contest.start _ _ name.symbol _).bind (·.winner candidates name.span) = _
  rw [Contest.start_eq known]
  rfl

variable {candidates : List Candidate}
  (spelled : ∀ candidate ∈ candidates, ∃ text, lookup.lexicon.text? candidate.symbol = some text)
include spelled

theorem nearest_eq : lookup.nearest name candidates =
    .ok ((Entrant.best (candidates.filterMap (lookup.contest name written).entrant?)).map
      (·.correction name.span)) := by
  have known_all : ∀ candidate ∈ candidates,
      ∃ text, (lookup.contest name written).lexicon.text? candidate.symbol = some text := spelled
  rw [nearest_eq_winner known, Contest.winner, Contest.best_eq known_all]
  rfl

/-- A list settles a question if it offers no name twice, nothing that is not in the pool and
every name of the pool where it is closest. -/
theorem nearest_settles (different : (candidates.map Candidate.symbol).Nodup)
    {offered : Candidate → Prop} (sound : ∀ candidate ∈ candidates, offered candidate)
    (complete : ∀ candidate, offered candidate → ∃ first ∈ candidates,
      first.symbol = candidate.symbol ∧ (first = candidate ∨ first.depth < candidate.depth)) :
    ∃ answer, lookup.nearest name candidates = .ok answer ∧
      Settles (lookup.Pool name offered) name.span answer := by
  refine ⟨_, nearest_eq known spelled, ?_⟩
  -- Whoever is in the pool has a stand-in in the list, with the same text and edits.
  have standIn : ∀ entrant, lookup.Pool name offered entrant → ∃ first,
      lookup.Pool name (· ∈ candidates) first ∧ (first = entrant ∨ first.Beats entrant) := by
    intro entrant ⟨here, near⟩
    obtain ⟨first, on, same, closer⟩ := complete entrant.candidate here
    refine ⟨⟨first, entrant.distance, entrant.text⟩, ⟨on, same ▸ near⟩, ?_⟩
    rcases closer with equal | closer
    · exact .inl (equal ▸ rfl)
    · exact .inr (.inr ⟨rfl, .inl closer⟩)
  cases result : Entrant.best (candidates.filterMap (lookup.contest name written).entrant?) with
  | none =>
    refine .nobody fun entrant here => ?_
    obtain ⟨first, listed, _⟩ := standIn entrant here
    have on := (mem_entrants_iff known).mpr listed
    rw [Entrant.best_eq_none_iff.mp result] at on
    cases on
  | some winner =>
    have listed := (mem_entrants_iff known).mp (Entrant.mem_of_best result)
    refine .best ⟨sound _ listed.1, listed.2⟩ fun other here => ?_
    obtain ⟨first, among, closer⟩ := standIn other here
    have unbeaten := Entrant.not_beats_best result ((mem_entrants_iff known).mpr among)
    by_cases same : first = winner
    · rw [← same]
      exact closer.imp_left Eq.symm
    · have apart := mt (eq_of_text_eq different listed among) (Ne.symm same)
      have better := Entrant.beats_of_not_beats unbeaten apart
      rcases closer with equal | closer
      · exact .inr (equal ▸ better)
      · exact .inr (better.trans closer)

end Nearest

end Lookup

end NearMiss
