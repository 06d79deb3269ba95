import NearMiss.Proofs.Session.Legible

/-! Suggestions that are put into words late.

A correction holds handles, and what they stand for is looked up when a diagnostic
is shown. By then the session may have gone on. The lexicon takes no text back, and
no scope is moved or renamed, so the words are those that would have been found at
once: the scopes on the way out from a correction's home were all there when it was
given, since its home declares a name. -/
namespace NearMiss.Session

open Scope (Id Tree)

section Reached
variable {session next : Session} (reached : ({} : Session).Follows session)
  (follows : session.Follows next) (small : next.tree.size ≤ Id.count)
include reached follows small

/-- The scopes of a session keep their places. -/
theorem extends_of_follows : session.tree.Extends next.tree := by
  obtain ⟨edits, grown, _⟩ := reached.tree
  obtain ⟨more, grown', _⟩ := follows.tree
  rw [← grown', ← grown, ← Tree.grow_append] at small ⊢
  exact Tree.extends_grow_append edits more small

/-- What was offered is worded now as it was then. -/
theorem exists_advice_of_offers {name : Unresolved} {correction : Correction}
    (offers : session.lookup.Offers name correction) :
    ∃ advice, session.advice correction = .ok advice ∧ next.advice correction = .ok advice := by
  have places := extends_of_follows reached follows small
  have fits := places.size_le.trans small
  have legible := legible_of_reached reached fits
  obtain ⟨edits, grown, _⟩ := reached.tree
  have sound := Tree.Made.sound ⟨edits, grown⟩ fits
  refine (offers.legible legible).exists_advice follows.lexicon legible.graph fun home origin => ?_
  show next.graph.nameChain home = session.graph.nameChain home
  rw [graph_of_reached reached, graph_of_reached (reached.trans follows)]
  cases offers with
  | declared scope known tells =>
    rw [origin] at tells
    cases tells
    have declared : correction.symbol ∈ session.tree.graph.members home :=
      graph_of_reached reached ▸ known
    exact places.nameChain_eq sound (Tree.owned_of_member declared)
  | entered header _ _ named => cases origin.symm.trans named

end Reached

/-- **A suggestion is worded the same at any time.** Whatever was answered in the course of a
session has words at once. And whatever the session goes through afterwards, refused steps among
it, these are the words that are found. -/
theorem advice_stays {steps later : List Step}
    (small : (after (steps ++ later)).tree.size ≤ Id.count) {name : Unresolved}
    {question : Question} {correction : Correction}
    (asked : (after steps).lookup.ask name question = .ok (some correction)) :
    ∃ advice, (after steps).advice correction = .ok advice ∧
      (after (steps ++ later)).advice correction = .ok advice := by
  have reached := follows_after steps
  have legible := legible_of_reached reached ((size_after_le_append steps later).trans small)
  exact exists_advice_of_offers reached (follows_after_append steps later) small
    (Lookup.offers_of_ask legible asked)

/-- New names and scopes, some of them in scopes that are not there, and other headers. -/
def moreSteps : List Step :=
  [.openScope ⟨9⟩ .namespaceBody (some "colr"), .openScope ⟨2⟩ .namespaceBody (some "colr"),
    .declareAll ⟨2⟩ ["colors", "colr"], .declareAll ⟨7⟩ ["color"], .loadHeaders none]

theorem color_worded_the_same_later :
    (after (studioSteps ++ moreSteps)).tree.size ≤ Id.count ∧
      ∃ correction advice,
        (after studioSteps).lookup.ask Lookup.colr (.elsewhere Tree.root) = .ok (some correction) ∧
        (after studioSteps).advice correction = .ok advice ∧
        (after (studioSteps ++ moreSteps)).advice correction = .ok advice := by
  have small : (after (studioSteps ++ moreSteps)).tree.size ≤ Id.count := small_after (by decide)
  obtain ⟨correction, asked⟩ := ask_studioSteps
  obtain ⟨advice, said, said'⟩ := advice_stays small asked
  exact ⟨small, correction, advice, asked, said, said'⟩

end NearMiss.Session
