import NearMiss.Correction
import NearMiss.EditDistance.Metric
import NearMiss.Lexicon

/-! Choosing one candidate.

Candidates come one after another and the best so far is kept: the one with the
fewest edits, of those the nearest, of those the first in the order of their
texts. Only a strictly better candidate takes the place of the best, so of
candidates that compare equal the first one stays. -/
namespace NearMiss

/-- Which candidates qualify. -/
inductive Acceptance where
  /-- The very name that was written, for advice that is not about its spelling. -/
  | exact
  /-- Other names within some number of edits. -/
  | within (edits : Nat)
deriving DecidableEq

/-- A candidate that qualified. -/
structure Entrant where
  candidate : Candidate
  distance : Nat
  text : String

namespace Entrant

/-- Fewer edits, or as many and nearer, or as near and earlier in the order of texts. -/
def Beats (a b : Entrant) : Prop :=
  a.distance < b.distance ∨ a.distance = b.distance ∧
    (a.candidate.depth < b.candidate.depth ∨ a.candidate.depth = b.candidate.depth ∧
      a.text < b.text)

instance (a b : Entrant) : Decidable (a.Beats b) := inferInstanceAs (Decidable (_ ∨ _))

/-- The better of a newcomer and the best so far, which stays unless it is beaten. -/
def orBest (newcomer : Entrant) : Option Entrant → Entrant
  | none => newcomer
  | some holder => if newcomer.Beats holder then newcomer else holder

def correction (entrant : Entrant) (span : Span) : Correction :=
  ⟨entrant.candidate.symbol, entrant.candidate.origin, span, entrant.distance⟩

/-! ### Being better is a strict order -/

theorem not_beats_self (a : Entrant) : ¬a.Beats a := by
  intro h
  rcases h with h | ⟨_, h | ⟨_, h⟩⟩
  · exact Nat.lt_irrefl _ h
  · exact Nat.lt_irrefl _ h
  · exact String.lt_irrefl _ h

theorem Beats.trans {a b c : Entrant} (hab : a.Beats b) (hbc : b.Beats c) : a.Beats c := by
  rcases hab with nearer | ⟨same, nearer | ⟨level, before⟩⟩
  · rcases hbc with h | ⟨h, _⟩
    · exact .inl (Nat.lt_trans nearer h)
    · exact .inl (h ▸ nearer)
  · rcases hbc with h | ⟨h, h' | ⟨h', _⟩⟩
    · exact .inl (same ▸ h)
    · exact .inr ⟨same.trans h, .inl (Nat.lt_trans nearer h')⟩
    · exact .inr ⟨same.trans h, .inl (h' ▸ nearer)⟩
  · rcases hbc with h | ⟨h, h' | ⟨h', after⟩⟩
    · exact .inl (same ▸ h)
    · exact .inr ⟨same.trans h, .inl (level ▸ h')⟩
    · exact .inr ⟨same.trans h, .inr ⟨level.trans h', String.lt_trans before after⟩⟩

theorem Beats.asymm {a b : Entrant} (h : a.Beats b) : ¬b.Beats a :=
  fun back => not_beats_self a (h.trans back)

/-- The newcomer or the holder, whoever it is, is beaten by neither. -/
theorem not_beats_orBest (newcomer holder : Entrant) :
    ¬newcomer.Beats (newcomer.orBest (some holder)) ∧
      ¬holder.Beats (newcomer.orBest (some holder)) := by
  by_cases h : newcomer.Beats holder
  · rw [orBest, if_pos h]
    exact ⟨not_beats_self newcomer, h.asymm⟩
  · rw [orBest, if_neg h]
    exact ⟨h, not_beats_self holder⟩

end Entrant

/-- What candidates are compared with, and how. -/
structure Contest where
  lexicon : Lexicon
  metric : Metric
  target : Symbol
  targetText : String
  acceptance : Acceptance

namespace Contest

def start (lexicon : Lexicon) (metric : Metric) (target : Symbol) (acceptance : Acceptance) :
    Except Fault Contest := do
  let targetText ← lexicon.text target
  return { lexicon, metric, target, targetText, acceptance }

/-- A candidate's edits, if it qualifies. The name that was written is never near itself. -/
def score (contest : Contest) (candidate : Candidate) : Except Fault (Option Nat) :=
  match contest.acceptance with
  | .exact => .ok (if candidate.symbol = contest.target then some 0 else none)
  | .within edits =>
    if candidate.symbol = contest.target then .ok none
    else do
      let text ← contest.lexicon.text candidate.symbol
      return contest.metric.within edits contest.targetText text

/-- The best so far, after one more candidate. -/
def consider (contest : Contest) (best : Option Entrant) (candidate : Candidate) :
    Except Fault (Option Entrant) := do
  match ← contest.score candidate with
  | none => return best
  | some distance =>
    let text ← contest.lexicon.text candidate.symbol
    let entrant : Entrant := ⟨candidate, distance, text⟩
    return some (entrant.orBest best)

/-- The best of some candidates. -/
def best (contest : Contest) (candidates : List Candidate) : Except Fault (Option Entrant) :=
  candidates.foldlM contest.consider none

/-- The best of some candidates, as the answer for a name written at `span`. -/
def winner (contest : Contest) (candidates : List Candidate) (span : Span) :
    Except Fault (Option Correction) :=
  return (← contest.best candidates).map (·.correction span)

end Contest

end NearMiss
