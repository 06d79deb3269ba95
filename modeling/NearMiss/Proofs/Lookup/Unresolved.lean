import NearMiss.Proofs.Lookup.Visible

/-! Which of the three questions answers for an unresolved name.

The first that has an answer, and whether it has one can be read off the graph:
`Decided` lists the cases. For names elsewhere it counts here that they are
offered at all, not which of their places they are offered at, so the order in
which the search goes does not matter. -/
namespace NearMiss.Lookup

open Scope (Graph Id Tree)

/-- A name that may be suggested. -/
def Acceptable (lookup : Lookup) (name : Unresolved) (symbol : Symbol) : Prop :=
  ∃ edits text, lookup.Near name symbol edits text

/-- Some scope around the place of use declares an acceptable name. -/
def NearAround (lookup : Lookup) (name : Unresolved) (scope : Id) : Prop :=
  ∃ level outer symbol, lookup.graph.ancestor level scope = some outer ∧
    symbol ∈ lookup.graph.members outer ∧ lookup.Acceptable name symbol

/-- Some namespace that the place of use does not see into declares an acceptable name. -/
def NearElsewhere (lookup : Lookup) (name : Unresolved) (scope : Id) : Prop :=
  ∃ home symbol, lookup.graph.Outside scope home ∧ symbol ∈ lookup.graph.members home ∧
    lookup.Acceptable name symbol

/-- What is said of an unresolved name, case by case. -/
inductive Decided (lookup : Lookup) (name : Unresolved) (scope : Id) : Option Correction → Prop
  | around {correction : Correction} : lookup.NearAround name scope →
      correction.origin = .enclosing → Decided lookup name scope (some correction)
  | elsewhere {correction : Correction} {home : Id} : ¬lookup.NearAround name scope →
      lookup.graph.Outside scope home → correction.symbol ∈ lookup.graph.members home →
      lookup.Acceptable name correction.symbol → correction.origin = .elsewhere home →
      Decided lookup name scope (some correction)
  | header {header : Symbol} : ¬lookup.NearAround name scope → ¬lookup.NearElsewhere name scope →
      lookup.headers.find? name.symbol = some header →
      Decided lookup name scope (some ⟨name.symbol, .header header, name.span, 0⟩)
  | nothing : ¬lookup.NearAround name scope → ¬lookup.NearElsewhere name scope →
      lookup.headers.find? name.symbol = none → Decided lookup name scope none

namespace Decided

variable {lookup : Lookup} {name : Unresolved} {scope : Id} {answer : Option Correction}
  (decided : Decided lookup name scope answer)
include decided

theorem enclosing_iff :
    (∃ correction, answer = some correction ∧ correction.origin = .enclosing) ↔
      lookup.NearAround name scope := by
  cases decided with
  | around near origin => simp [near, origin]
  | elsewhere unseen _ _ _ origin => simp [unseen, origin]
  | header unseen _ _ => simp [unseen]
  | nothing unseen _ _ => simp [unseen]

theorem elsewhere_iff :
    (∃ correction home, answer = some correction ∧ correction.origin = .elsewhere home) ↔
      ¬lookup.NearAround name scope ∧ lookup.NearElsewhere name scope := by
  cases decided with
  | around near origin => simp [near, origin]
  | elsewhere unseen outside declared acceptable origin =>
    have near : lookup.NearElsewhere name scope := ⟨_, _, outside, declared, acceptable⟩
    simp [unseen, near, origin]
  | header _ nowhere _ => simp [nowhere]
  | nothing _ nowhere _ => simp [nowhere]

/-- What is suggested from elsewhere is not in sight. -/
theorem not_mem_of_elsewhere {correction : Correction} {home : Id}
    (result : answer = some correction) (apart : correction.origin = .elsewhere home) {level : Nat}
    {outer : Id} (here : lookup.graph.ancestor level scope = some outer) :
    correction.symbol ∉ lookup.graph.members outer := by
  cases decided with
  | around _ origin =>
    cases result
    rw [origin] at apart
    cases apart
  | elsewhere unseen _ _ acceptable _ =>
    cases result
    exact fun declared => unseen ⟨level, outer, _, here, declared, acceptable⟩
  | header _ _ _ =>
    cases result
    cases apart
  | nothing _ _ _ => cases result

theorem header_iff (correction : Correction) (header : Symbol) :
    answer = some correction ∧ correction.origin = .header header ↔
      correction = ⟨name.symbol, .header header, name.span, 0⟩ ∧
        ¬lookup.NearAround name scope ∧ ¬lookup.NearElsewhere name scope ∧
        lookup.headers.find? name.symbol = some header := by
  cases decided with
  | around near origin =>
    constructor
    · intro ⟨result, other⟩
      cases result
      cases origin.symm.trans other
    · intro ⟨_, unseen, _⟩
      exact absurd near unseen
  | elsewhere _ outside declared acceptable origin =>
    constructor
    · intro ⟨result, other⟩
      cases result
      cases origin.symm.trans other
    · intro ⟨_, _, nowhere, _⟩
      exact absurd ⟨_, _, outside, declared, acceptable⟩ nowhere
  | header unseen nowhere found =>
    constructor
    · intro ⟨result, other⟩
      cases result
      cases other
      exact ⟨rfl, unseen, nowhere, found⟩
    · intro ⟨made, _, _, entry⟩
      cases found.symm.trans entry
      exact ⟨congrArg some made.symm, made ▸ rfl⟩
  | nothing _ _ absent => simp [absent]

theorem none_iff : answer = none ↔ ¬lookup.NearAround name scope ∧
    ¬lookup.NearElsewhere name scope ∧ lookup.headers.find? name.symbol = none := by
  cases decided with
  | around near _ => simp [near]
  | elsewhere _ outside declared acceptable _ =>
    have near : lookup.NearElsewhere name scope := ⟨_, _, outside, declared, acceptable⟩
    simp [near]
  | header _ _ found => simp [found]
  | nothing unseen nowhere absent => simp [unseen, nowhere, absent]

end Decided

section Order
variable {lookup : Lookup} {name : Unresolved} {scope : Id}

theorem unresolved_of_enclosing {correction : Correction}
    (here : lookup.enclosing name scope = .ok (some correction)) :
    lookup.unresolved name scope = .ok (some correction) := by
  rw [unresolved, here]
  rfl

theorem unresolved_of_elsewhere {correction : Correction}
    (here : lookup.enclosing name scope = .ok none)
    (there : lookup.elsewhere name scope = .ok (some correction)) :
    lookup.unresolved name scope = .ok (some correction) := by
  rw [unresolved, here, there]
  rfl

theorem unresolved_of_none (here : lookup.enclosing name scope = .ok none)
    (there : lookup.elsewhere name scope = .ok none) :
    lookup.unresolved name scope = lookup.missingHeader name := by
  rw [unresolved, here, there]
  rfl

/-- A header is named for the very name that was written, and only if it has an entry. -/
theorem missingHeader_eq {written : String}
    (known : lookup.lexicon.text? name.symbol = some written) :
    lookup.missingHeader name = .ok ((lookup.headers.find? name.symbol).map fun header =>
      ⟨name.symbol, .header header, name.span, 0⟩) := by
  rw [missingHeader, Contest.start_eq known]
  show Contest.winner _ _ name.span = _
  rw [Contest.winner, HeaderIndex.candidates]
  cases lookup.headers.find? name.symbol with
  | none => rfl
  | some header =>
    show Except.bind (Contest.best _ [⟨name.symbol, .header header, 0⟩]) _ = _
    rw [Contest.best_eq]
    · simp only [List.filterMap_cons, List.filterMap_nil, Contest.entrant?, Contest.edits?, known,
        Option.bind_some, if_true, Option.map_some]
      rfl
    · intro candidate on
      rw [List.mem_singleton.mp on]
      exact ⟨written, known⟩

end Order

section InTree
variable {lookup : Lookup} {tree : Tree} (inTree : lookup.InTree tree) {name : Unresolved}
  {scope : Id}
include inTree

theorem unresolved_of_foreign (foreign : ¬scope.index < tree.size) :
    lookup.unresolved name scope = .error (.unknownScope scope) := by
  have absent : lookup.graph.kind scope = none := by
    rw [inTree.graph_eq, ← Option.not_isSome_iff_eq_none]
    exact mt Tree.contains_graph_iff.mp foreign
  rw [unresolved, enclosing, requireScope, absent]
  rfl

theorem exists_visible_iff :
    (∃ entrant, lookup.Pool name (Candidate.Visible tree.graph scope) entrant) ↔
      lookup.NearAround name scope := by
  rw [NearAround, inTree.graph_eq]
  constructor
  · intro ⟨entrant, ⟨_, outer, here, declared⟩, near⟩
    exact ⟨_, outer, _, here, declared, _, _, near⟩
  · intro ⟨level, outer, symbol, here, declared, edits, text, near⟩
    exact ⟨⟨⟨symbol, .enclosing, level⟩, edits, text⟩, ⟨rfl, outer, here, declared⟩, near⟩

variable {written : String} (known : lookup.lexicon.text? name.symbol = some written)
  (owned : scope.index < tree.size)
include owned

/-- A near name that an outlying namespace declares is offered, there or at another one. -/
theorem exists_pool_of_outside {home : Id} {symbol : Symbol} {edits : Nat} {text : String}
    (outside : tree.graph.Outside scope home) (declared : symbol ∈ tree.graph.members home)
    (near : lookup.Near name symbol edits text) :
    ∃ candidate,
      lookup.Pool name (· ∈ Candidate.elsewhere tree.graph scope) ⟨candidate, edits, text⟩ := by
  obtain ⟨candidate, on, same⟩ :=
    Candidate.exists_mem_elsewhere_of_outside inTree.sound inTree.small owned outside declared
  exact ⟨candidate, on, same ▸ near⟩

theorem exists_offered_elsewhere_iff :
    (∃ entrant, lookup.Pool name (· ∈ Candidate.elsewhere tree.graph scope) entrant) ↔
      lookup.NearElsewhere name scope := by
  rw [NearElsewhere, inTree.graph_eq]
  constructor
  · intro ⟨entrant, on, near⟩
    obtain ⟨home, _, outside, declared⟩ :=
      Candidate.outside_of_mem_elsewhere inTree.sound inTree.small owned on
    exact ⟨home, _, outside, declared, _, _, near⟩
  · intro ⟨home, symbol, outside, declared, edits, text, near⟩
    obtain ⟨candidate, offered⟩ := exists_pool_of_outside inTree owned outside declared near
    exact ⟨_, offered⟩

include known

theorem elsewhere_settles :
    ∃ answer, lookup.elsewhere name scope = .ok answer ∧
      Settles (lookup.Pool name (· ∈ Candidate.elsewhere tree.graph scope)) name.span answer := by
  obtain ⟨kind, here⟩ := Tree.owned_iff.mp owned
  have asked : lookup.elsewhere name scope =
      lookup.nearest name (Candidate.elsewhere tree.graph scope) := by
    rw [elsewhere, inTree.requireScope_eq here, inTree.graph_eq]
    rfl
  rw [asked]
  refine nearest_settles known ?_ (Candidate.elsewhere_nodup _ _) (fun _ on => on) ?_
  · intro candidate on
    obtain ⟨home, _, _, declared⟩ :=
      Candidate.outside_of_mem_elsewhere inTree.sound inTree.small owned on
    exact inTree.spelled home _ declared
  · intro candidate on
    exact ⟨candidate, on, rfl, .inl rfl⟩

theorem unresolved_decided :
    ∃ answer, lookup.unresolved name scope = .ok answer ∧ lookup.Decided name scope answer := by
  obtain ⟨first, around, settled⟩ := enclosing_settles inTree known owned
  cases settled with
  | @best winner here _ =>
    exact ⟨_, unresolved_of_enclosing around,
      .around ((exists_visible_iff inTree).mp ⟨winner, here⟩) here.1.origin_eq⟩
  | nobody empty =>
    have unseen : ¬lookup.NearAround name scope := by
      rw [← exists_visible_iff inTree, not_exists]
      exact empty
    obtain ⟨second, apart, settled⟩ := elsewhere_settles inTree known owned
    cases settled with
    | @best winner here _ =>
      obtain ⟨home, origin, outside, declared⟩ :=
        Candidate.outside_of_mem_elsewhere inTree.sound inTree.small owned here.1
      rw [← inTree.graph_eq] at outside declared
      exact ⟨_, unresolved_of_elsewhere around apart,
        .elsewhere unseen outside declared ⟨_, _, here.2⟩ origin⟩
    | nobody empty =>
      have nowhere : ¬lookup.NearElsewhere name scope := by
        rw [← exists_offered_elsewhere_iff inTree owned, not_exists]
        exact empty
      rw [unresolved_of_none around apart, missingHeader_eq known]
      refine ⟨_, rfl, ?_⟩
      cases entry : lookup.headers.find? name.symbol with
      | none => exact .nothing unseen nowhere entry
      | some header => exact .header unseen nowhere entry

end InTree

/-! ### A name two namespaces deep -/

/-- A namespace `color` with a namespace `colors` in it, which declares `color`. -/
def studio : Tree :=
  Tree.empty.grow [
    .openScope Tree.root .namespaceBody (some ⟨805306368⟩),
    .openScope ⟨1⟩ .namespaceBody (some ⟨1⟩),
    .declare ⟨2⟩ ⟨805306368⟩]

def studioLookup : Lookup := ⟨studio.graph, colors, .empty, {}⟩

theorem inTree_studio : studioLookup.InTree studio where
  graph_eq := rfl
  made := ⟨_, rfl⟩
  small := by decide
  spelled := spelled_of_records (by decide +kernel)

theorem outside_studio : studio.graph.Outside Tree.root ⟨2⟩ := by
  have level : studio.graph.NamespaceAround Tree.root 0 Tree.root :=
    ⟨by decide +kernel, 0, rfl, rfl⟩
  have apart : ¬studio.graph.Around Tree.root ⟨1⟩ :=
    mt (Graph.mem_chain_iff (inTree_studio.sound.grounded _)).mpr (by decide +kernel)
  have nested : studio.graph.Nested Tree.root [⟨1⟩, ⟨2⟩] :=
    .cons (by decide +kernel) (by decide +kernel)
      (.cons (by decide +kernel) (by decide +kernel) (.nil _))
  exact (Graph.Route.mk level apart nested).outside rfl

theorem color_acceptable : studioLookup.Acceptable colr ⟨805306368⟩ :=
  ⟨1, "color", by decide, by decide +kernel, "colr", text?_colr, by decide +kernel,
    by decide +kernel⟩

theorem near_elsewhere_studio : studioLookup.NearElsewhere colr Tree.root :=
  ⟨⟨2⟩, ⟨805306368⟩, outside_studio, by decide +kernel, color_acceptable⟩

/-- The global namespace is all there is around itself, and it declares nothing. -/
theorem not_near_around_studio : ¬studioLookup.NearAround colr Tree.root := by
  rintro ⟨level, outer, symbol, way, declared, _⟩
  have outermost : studio.graph.chain Tree.root = [Tree.root] := by decide +kernel
  have on : outer ∈ studio.graph.chain Tree.root :=
    (Graph.mem_chain_iff (inTree_studio.sound.grounded _)).mpr ⟨level, way⟩
  rw [outermost, List.mem_singleton] at on
  have nothing : studio.graph.members Tree.root = [] := by decide +kernel
  rw [on] at declared
  exact absurd (nothing ▸ declared) List.not_mem_nil

/-- **The first question with an answer decides.** A lookup in a scope the tree does not own is
refused, and for no other reason. In any other scope a visible name is suggested exactly if an
acceptable one is declared around it; a name from elsewhere exactly if none is but some namespace
it does not see into declares one, and then that name is not declared around it at all; a header
exactly if there is neither and the written name has an entry; and nothing in all other cases. -/
theorem unresolved_answers_in_order {lookup : Lookup} {tree : Tree} (inTree : lookup.InTree tree)
    {name : Unresolved} (known : ∃ written, lookup.lexicon.text? name.symbol = some written)
    (scope : Id) :
    (lookup.unresolved name scope = .error (.unknownScope scope) ↔ ¬scope.index < tree.size) ∧
    (∀ other, lookup.unresolved name scope ≠ .error (.notScopedEnumeration other)) ∧
    (scope.index < tree.size → ∃ answer, lookup.unresolved name scope = .ok answer ∧
      ((∃ correction, answer = some correction ∧ correction.origin = .enclosing) ↔
        lookup.NearAround name scope) ∧
      ((∃ correction home, answer = some correction ∧ correction.origin = .elsewhere home) ↔
        ¬lookup.NearAround name scope ∧ lookup.NearElsewhere name scope) ∧
      (∀ correction home, answer = some correction → correction.origin = .elsewhere home →
        ∀ level outer, lookup.graph.ancestor level scope = some outer →
          correction.symbol ∉ lookup.graph.members outer) ∧
      (∀ correction header, answer = some correction ∧ correction.origin = .header header ↔
        correction = ⟨name.symbol, .header header, name.span, 0⟩ ∧
          ¬lookup.NearAround name scope ∧ ¬lookup.NearElsewhere name scope ∧
          lookup.headers.find? name.symbol = some header) ∧
      (answer = none ↔ ¬lookup.NearAround name scope ∧ ¬lookup.NearElsewhere name scope ∧
        lookup.headers.find? name.symbol = none)) := by
  obtain ⟨written, known⟩ := known
  by_cases owned : scope.index < tree.size
  · obtain ⟨answer, result, decided⟩ := unresolved_decided inTree known owned
    rw [result]
    refine ⟨by simp [owned], by simp, fun _ => ⟨answer, rfl, ?_⟩⟩
    exact ⟨decided.enclosing_iff, decided.elsewhere_iff,
      fun _ _ result apart _ _ here => decided.not_mem_of_elsewhere result apart here,
      decided.header_iff, decided.none_iff⟩
  · rw [unresolved_of_foreign inTree owned]
    exact ⟨by simp [owned], by simp, fun h => absurd h owned⟩

/-- In the palette `color` is suggested because it is visible. In the studio it is suggested from
where it is declared, and only because nothing near is visible. -/
theorem color_suggested_for_colr :
    (paletteLookup.InTree palette ∧
      (∃ written, paletteLookup.lexicon.text? colr.symbol = some written) ∧
      (⟨1⟩ : Id).index < palette.size ∧
      ∃ correction, paletteLookup.unresolved colr ⟨1⟩ = .ok (some correction) ∧
        correction.origin = .enclosing) ∧
    studioLookup.InTree studio ∧
      (∃ written, studioLookup.lexicon.text? colr.symbol = some written) ∧
      Tree.root.index < studio.size ∧
      ∃ correction home, studioLookup.unresolved colr Tree.root = .ok (some correction) ∧
        correction.origin = .elsewhere home ∧
        correction.symbol ∉ studio.graph.members Tree.root := by
  constructor
  · have known : ∃ written, paletteLookup.lexicon.text? colr.symbol = some written :=
      ⟨_, text?_colr⟩
    have near : paletteLookup.NearAround colr ⟨1⟩ :=
      (exists_visible_iff inTree_palette).mp ⟨_, color_near_colr⟩
    obtain ⟨answer, result, around, _⟩ :=
      (unresolved_answers_in_order inTree_palette known ⟨1⟩).2.2 (by decide)
    obtain ⟨correction, rfl, origin⟩ := around.mpr near
    exact ⟨inTree_palette, known, by decide, correction, result, origin⟩
  · have known : ∃ written, studioLookup.lexicon.text? colr.symbol = some written :=
      ⟨_, text?_colr⟩
    obtain ⟨answer, result, _, elsewhere, unseen, _⟩ :=
      (unresolved_answers_in_order inTree_studio known Tree.root).2.2 (by decide)
    obtain ⟨correction, home, made, origin⟩ :=
      elsewhere.mpr ⟨not_near_around_studio, near_elsewhere_studio⟩
    rw [made] at result
    exact ⟨inTree_studio, known, by decide, correction, home, result, origin,
      unseen correction home made origin 0 Tree.root rfl⟩

end NearMiss.Lookup
