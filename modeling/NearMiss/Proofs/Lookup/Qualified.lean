import NearMiss.Correction.Wording
import NearMiss.Proofs.Lookup.Elsewhere
import NearMiss.Proofs.Scope.Path

/-! What a correction from elsewhere spells.

Its text is the path of the namespace it comes from, and the name. Where the
tree's names allow it, the text can be read again: cut at `::`, all but its last
part lead from the global namespace to that namespace, and no other. -/
namespace NearMiss.Lookup

open Scope (Graph Id Tree)

theorem advice_of_elsewhere {graph : Graph} {lexicon : Lexicon} {correction : Correction}
    {home : Id} {text path : String} (origin : correction.origin = .elsewhere home)
    (spelled : lexicon.text? correction.symbol = some text)
    (reached : graph.path lexicon home = .ok path) :
    correction.advice graph lexicon =
      .ok (.didYouMean correction.span (path ++ "::" ++ text)) := by
  rw [Correction.advice, Lexicon.text_eq_ok_iff.mpr spelled, origin]
  show Except.bind (graph.path lexicon home) _ = _
  rw [reached]
  rfl

section InTree
variable {lookup : Lookup} {tree : Tree} (inTree : lookup.InTree tree)
  (qualifiable : tree.Qualifiable lookup.lexicon)
include inTree qualifiable

/-- The path of an outlying namespace leads to it. -/
theorem exists_segments_of_outside {scope home : Id} (outside : tree.graph.Outside scope home) :
    ∃ segments, lookup.graph.path lookup.lexicon home = .ok ("::".intercalate segments) ∧
      (∀ segment ∈ segments, ':' ∉ segment.toList) ∧ segments ≠ [] ∧
      tree.graph.descend lookup.lexicon Tree.root segments = [home] := by
  have apart : home ≠ Tree.root := by
    intro same
    obtain ⟨outer, up⟩ := outside.exists_parent
    rw [same, inTree.sound.parent_root] at up
    cases up
  obtain ⟨segments, read, plain, any, leads⟩ :=
    qualifiable.descend_segments inTree.made inTree.small home outside.kind_eq
  rw [inTree.graph_eq]
  exact ⟨segments, Graph.path_eq read, plain, any apart, leads⟩

end InTree

/-- **A qualified suggestion resolves.** What is suggested from elsewhere comes apart at `::` into
one or more segments and the name, and the segments lead from the global namespace to the namespace
that the suggestion is said to come from, which declares the name. -/
theorem qualified_suggestion_resolves {lookup : Lookup} {tree : Tree} (inTree : lookup.InTree tree)
    (qualifiable : tree.Qualifiable lookup.lexicon) {name : Unresolved}
    (known : ∃ written, lookup.lexicon.text? name.symbol = some written) {scope : Id}
    (owned : scope.index < tree.size) {correction : Correction} {text : String}
    (answered : lookup.elsewhere name scope = .ok (some correction))
    (spelled : lookup.lexicon.text? correction.symbol = some text) (plain : ':' ∉ text.toList) :
    ∃ home advice snippet segments, correction.origin = .elsewhere home ∧
      correction.advice lookup.graph lookup.lexicon = .ok advice ∧
      advice.edits = [⟨name.span, snippet⟩] ∧
      snippet.splitOn "::" = segments ++ [text] ∧ segments ≠ [] ∧
      tree.graph.descend lookup.lexicon Tree.root segments = [home] ∧
      correction.symbol ∈ tree.graph.members home := by
  obtain ⟨written, known⟩ := known
  obtain ⟨answer, asked, settled⟩ := elsewhere_settles inTree known owned
  cases asked.symm.trans answered
  cases settled with
  | @best winner here _ =>
    obtain ⟨home, origin, outside, declared⟩ :=
      Candidate.outside_of_mem_elsewhere inTree.sound inTree.small owned here.1
    obtain ⟨segments, reached, plains, any, leads⟩ :=
      exists_segments_of_outside inTree qualifiable outside
    refine ⟨home, _, _, segments, origin, advice_of_elsewhere origin spelled reached, rfl, ?_, any,
      leads, declared⟩
    have joined : "::".intercalate segments ++ "::" ++ text =
        "::".intercalate (segments ++ [text]) := by
      rw [String.intercalate_append_of_ne_nil any (List.cons_ne_nil _ _),
        String.intercalate_singleton]
    rw [joined]
    refine Scope.splitOn_intercalate_colons (by simp) fun piece on => ?_
    rcases List.mem_append.mp on with on | on
    · exact plains piece on
    · rw [List.mem_singleton.mp on]
      exact plain

theorem owned_studio {scope : Id} {kind : Scope.Kind}
    (here : studio.graph.kind scope = some kind) : scope = ⟨0⟩ ∨ scope = ⟨1⟩ ∨ scope = ⟨2⟩ := by
  have owned : scope.index < 3 := Tree.owned_iff.mpr ⟨kind, here⟩
  have index : scope.index = 0 ∨ scope.index = 1 ∨ scope.index = 2 := by omega
  exact index.imp Id.index_injective (.imp Id.index_injective Id.index_injective)

theorem qualifiable_studio : studio.Qualifiable colors where
  outer := by
    intro scope space apart
    rcases owned_studio space with rfl | rfl | rfl
    · exact absurd rfl apart
    · exact ⟨⟨0⟩, by decide +kernel, by decide +kernel⟩
    · exact ⟨⟨1⟩, by decide +kernel, by decide +kernel⟩
  named := by
    intro scope space apart
    rcases owned_studio space with rfl | rfl | rfl
    · exact absurd rfl apart
    · exact ⟨⟨805306368⟩, "color", by decide +kernel, by decide +kernel, by decide⟩
    · exact ⟨⟨1⟩, "colors", by decide +kernel, by decide +kernel, by decide⟩
  apart := by
    intro scope
    cases here : studio.graph.kind scope with
    | none =>
      have absent : studio.record? scope = none := Option.map_eq_none_iff.mp here
      simp [Tree.graph, absent]
    | some kind =>
      rcases owned_studio here with rfl | rfl | rfl
      all_goals decide +kernel

/-- For `colr` the name `color` is suggested, though the question is asked outside. -/
theorem elsewhere_studio : ∃ correction,
    studioLookup.elsewhere colr Tree.root = .ok (some correction) ∧
      correction.symbol = ⟨805306368⟩ := by
  have owned : Tree.root.index < studio.size := by decide
  obtain ⟨answer, asked, settled⟩ := elsewhere_settles inTree_studio text?_colr owned
  cases settled with
  | nobody empty =>
    obtain ⟨entrant, offered⟩ :=
      (exists_offered_elsewhere_iff inTree_studio owned).mpr near_elsewhere_studio
    exact absurd offered (empty entrant)
  | @best winner here _ =>
    obtain ⟨home, _, _, declared⟩ :=
      Candidate.outside_of_mem_elsewhere inTree_studio.sound inTree_studio.small owned here.1
    exact ⟨_, asked, @of_mem_members studio (· = ⟨805306368⟩) (by decide +kernel) home _ declared⟩

theorem studio_suggestion_resolves :
    studioLookup.InTree studio ∧ studio.Qualifiable studioLookup.lexicon ∧
      (∃ written, studioLookup.lexicon.text? colr.symbol = some written) ∧
      Tree.root.index < studio.size ∧ ':' ∉ "color".toList ∧
      ∃ correction, studioLookup.elsewhere colr Tree.root = .ok (some correction) ∧
        studioLookup.lexicon.text? correction.symbol = some "color" ∧
        ∃ (snippet : String) (segments : List String), snippet.splitOn "::" = segments ++ ["color"] ∧
          ∃ home, studio.graph.descend colors Tree.root segments = [home] ∧
            correction.symbol ∈ studio.graph.members home := by
  have known : ∃ written, studioLookup.lexicon.text? colr.symbol = some written := ⟨_, text?_colr⟩
  have owned : Tree.root.index < studio.size := by decide
  have plain : ':' ∉ "color".toList := by decide
  obtain ⟨correction, asked, color⟩ := elsewhere_studio
  have spelled : studioLookup.lexicon.text? correction.symbol = some "color" := by
    rw [color]
    decide +kernel
  obtain ⟨home, _, snippet, segments, _, _, _, split, _, leads, declared⟩ :=
    qualified_suggestion_resolves inTree_studio qualifiable_studio known owned asked spelled plain
  exact ⟨inTree_studio, qualifiable_studio, known, owned, plain, correction, asked, spelled, snippet,
    segments, split, home, leads, declared⟩

end NearMiss.Lookup
