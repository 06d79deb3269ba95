import NearMiss.Proofs.Candidate.Growth
import NearMiss.Proofs.Lookup.Answer

/-! Answers in a tree that grows.

A new scope offers nothing, and what the others offer does not change, so no
question about them is answered in another way. A new name is one more entrant
where its scope is around the place of use: it wins, or whoever won without it
still does (`Settles.eq_or_newcomer`). That it may hide its namesake farther out
makes no difference, since the namesake could only have won where the new name
now does. -/
namespace NearMiss

open Scope (Graph Id Tree)

/-- Where a pool gains newcomers, one of them is the best, or whoever was before. -/
theorem Settles.eq_or_newcomer {pool pool' : Entrant → Prop} {span : Span}
    {answer answer' : Option Correction} (before : Settles pool span answer)
    (after : Settles pool' span answer') (kept : ∀ entrant, pool entrant → pool' entrant)
    {newcomer : Entrant → Prop} (added : ∀ entrant, pool' entrant → pool entrant ∨ newcomer entrant) :
    answer' = answer ∨
      ∃ winner, pool' winner ∧ newcomer winner ∧ answer' = some (winner.correction span) := by
  cases after with
  | nobody empty' =>
    cases before with
    | nobody empty => exact .inl rfl
    | best here _ => exact absurd (kept _ here) (empty' _)
  | @best winner' here' ahead' =>
    rcases added winner' here' with old | new
    · cases before with
      | nobody empty => exact absurd old (empty _)
      | @best winner here ahead =>
        have same : winner' = winner := by
          rcases ahead winner' old with same | better
          · exact same
          · rcases ahead' winner (kept winner here) with same | worse
            · exact same.symm
            · exact absurd worse better.asymm
        exact .inl (by rw [same])
    · exact .inr ⟨winner', here', new, rfl⟩

/-- The scope that a question is about. -/
def Question.scope? : Question → Option Id
  | .enclosing scope => some scope
  | .elsewhere scope => some scope
  | .missingHeader => none
  | .member scope => some scope
  | .enumerator enumeration => some enumeration
  | .unresolved scope => some scope

namespace Lookup

/-- The lookup with another tree to answer from. -/
def answeringFrom (lookup : Lookup) (tree : Tree) : Lookup := { lookup with graph := tree.graph }

/-! ### A new scope -/

section Gains
variable {lookup : Lookup} {graph : Graph} {fresh : Id} (h : lookup.graph.Gains fresh graph)
  {scope : Id} (older : scope ≠ fresh) (name : Unresolved)
include h

include older in
theorem requireScope_gains :
    ({ lookup with graph } : Lookup).requireScope scope = lookup.requireScope scope := by
  rw [requireScope, requireScope, h.kind_eq scope older]

include older in
theorem member_gains :
    ({ lookup with graph } : Lookup).member name scope = lookup.member name scope := by
  rw [member, member, requireScope_gains h older, Candidate.members, Candidate.members,
    Candidate.declared_gains h]
  rfl

include older in
theorem enumerator_gains :
    ({ lookup with graph } : Lookup).enumerator name scope = lookup.enumerator name scope := by
  rw [enumerator, enumerator, requireScopedEnumeration, requireScopedEnumeration,
    requireScope_gains h older, Candidate.enumerators, Candidate.enumerators,
    Candidate.declared_gains h]
  rfl

section Chain
variable (apart : fresh ∉ lookup.graph.chain scope)
include apart

theorem enclosing_gains :
    ({ lookup with graph } : Lookup).enclosing name scope = lookup.enclosing name scope := by
  rw [enclosing, enclosing, requireScope_gains h (Graph.ne_of_not_mem_chain apart),
    Candidate.enclosing_gains h apart]
  rfl

theorem elsewhere_gains :
    ({ lookup with graph } : Lookup).elsewhere name scope = lookup.elsewhere name scope := by
  rw [elsewhere, elsewhere, requireScope_gains h (Graph.ne_of_not_mem_chain apart),
    Candidate.elsewhere_gains h apart]
  rfl

end Chain

/-- A scope that the question is not about and that is not around it. -/
theorem ask_gains {question : Question}
    (about : ∀ scope, question.scope? = some scope → fresh ∉ lookup.graph.chain scope) :
    ({ lookup with graph } : Lookup).ask name question = lookup.ask name question := by
  have older : ∀ scope, question.scope? = some scope → scope ≠ fresh := fun scope here =>
    Graph.ne_of_not_mem_chain (about scope here)
  cases question with
  | enclosing scope => exact enclosing_gains h name (about scope rfl)
  | elsewhere scope => exact elsewhere_gains h name (about scope rfl)
  | missingHeader => rfl
  | member scope => exact member_gains h (older scope rfl) name
  | enumerator enumeration => exact enumerator_gains h (older enumeration rfl) name
  | unresolved scope =>
    rw [ask, ask, unresolved, unresolved, enclosing_gains h name (about scope rfl),
      elsewhere_gains h name (about scope rfl)]
    rfl

end Gains

/-! ### A new name -/

/-- What a declaration may bring up: the new name for an answer, or a fault if it has no text. -/
inductive Brings (lexicon : Lexicon) (symbol : Symbol) :
    Except Fault (Option Correction) → Prop
  | answer {correction : Correction} : lexicon.Knows symbol → correction.origin = .enclosing →
      correction.symbol = symbol → Brings lexicon symbol (.ok (some correction))
  | fault : ¬lexicon.Knows symbol → Brings lexicon symbol (.error (.danglingSymbol symbol))

section Brings
variable {lexicon : Lexicon} {symbol : Symbol} {after : Except Fault (Option Correction)}

theorem Brings.exists_correction (h : Brings lexicon symbol after) (known : lexicon.Knows symbol) :
    ∃ correction, after = .ok (some correction) ∧ correction.origin = .enclosing ∧
      correction.symbol = symbol := by
  cases h with
  | answer _ origin same => exact ⟨_, rfl, origin, same⟩
  | fault unread => exact absurd known unread

theorem Brings.eq_error (h : Brings lexicon symbol after) (unread : ¬lexicon.Knows symbol) :
    after = .error (.danglingSymbol symbol) := by
  cases h with
  | answer known _ _ => exact absurd known unread
  | fault _ => rfl

/-- Two answers may be compared without the condition that both stand behind. -/
theorem guarded_eq_or_brings {α : Type} (allowed : Except Fault α)
    {before : Except Fault (Option Correction)}
    (result : after = before ∨ Brings lexicon symbol after) :
    (do let _ ← allowed; after) = (do let _ ← allowed; before) ∨
      Brings lexicon symbol (do let _ ← allowed; after) := by
  cases allowed with
  | error fault => exact .inl rfl
  | ok value => exact result

end Brings

section Declare
variable (lookup : Lookup) {tree grown : Tree} (h : tree.Sound) {home : Id} {symbol : Symbol}
  (step : tree.declare home symbol = .ok grown) (name : Unresolved) (scope : Id)
include step

theorem requireScope_declare : (lookup.answeringFrom grown).requireScope scope =
    (lookup.answeringFrom tree).requireScope scope := by
  show Lookup.requireScope { lookup with graph := grown.graph } scope =
    Lookup.requireScope { lookup with graph := tree.graph } scope
  rw [requireScope, requireScope, (Candidate.sameShape_declare step).kind_eq]

omit step in
theorem enclosing_answeringFrom (tree : Tree) :
    (lookup.answeringFrom tree).enclosing name scope = (do
      let _ ← (lookup.answeringFrom tree).requireScope scope
      lookup.nearest name (Candidate.enclosing tree.graph scope)) := rfl

/-- A name that is declared elsewhere. -/
theorem enclosing_declare_of_not_mem (outside : home ∉ tree.graph.chain scope) :
    (lookup.answeringFrom grown).enclosing name scope =
      (lookup.answeringFrom tree).enclosing name scope := by
  rw [enclosing_answeringFrom, enclosing_answeringFrom, requireScope_declare lookup step,
    Candidate.enclosing_declare_of_not_mem step outside]

include h

/-- A contest in which everyone can be read has the winner it had, or the new name wins. -/
theorem nearest_enclosing_declare_of_spelled {text : String}
    (written : lookup.lexicon.text? name.symbol = some text)
    (before : ∀ candidate ∈ Candidate.enclosing tree.graph scope,
      ∃ spelling, lookup.lexicon.text? candidate.symbol = some spelling)
    (after : ∀ candidate ∈ Candidate.enclosing grown.graph scope,
      ∃ spelling, lookup.lexicon.text? candidate.symbol = some spelling) :
    lookup.nearest name (Candidate.enclosing grown.graph scope) =
        lookup.nearest name (Candidate.enclosing tree.graph scope) ∨
      Brings lookup.lexicon symbol
        (lookup.nearest name (Candidate.enclosing grown.graph scope)) := by
  obtain ⟨answer, asked, settled⟩ := nearest_enclosing_settles written (h.grounded scope) before
  obtain ⟨answer', asked', settled'⟩ := nearest_enclosing_settles written
    ((Tree.sound_declare h step).grounded scope) after
  rw [asked, asked']
  have kept : ∀ entrant, lookup.Pool name (Candidate.Visible tree.graph scope) entrant →
      lookup.Pool name (Candidate.Visible grown.graph scope) entrant :=
    fun _ ⟨visible, near⟩ => ⟨Candidate.visible_declare_of_visible step visible, near⟩
  have added : ∀ entrant, lookup.Pool name (Candidate.Visible grown.graph scope) entrant →
      lookup.Pool name (Candidate.Visible tree.graph scope) entrant ∨
        entrant.candidate.symbol = symbol :=
    fun _ ⟨visible, near⟩ =>
      (Candidate.visible_declare step visible).imp_left fun old => ⟨old, near⟩
  rcases settled.eq_or_newcomer settled' kept added with same | ⟨winner, ⟨visible, near⟩, new, won⟩
  · exact .inl (congrArg _ same)
  · rw [won]
    exact .inr (.answer (new ▸ ⟨_, near.spelled⟩) visible.origin_eq new)

/-- The names around a place of use, one of which may be the new name. -/
theorem nearest_enclosing_declare :
    lookup.nearest name (Candidate.enclosing grown.graph scope) =
        lookup.nearest name (Candidate.enclosing tree.graph scope) ∨
      Brings lookup.lexicon symbol
        (lookup.nearest name (Candidate.enclosing grown.graph scope)) := by
  cases written : lookup.lexicon.text? name.symbol with
  | none =>
    left
    rw [nearest_eq_error_of_unread written, nearest_eq_error_of_unread written]
  | some text =>
    rcases Candidate.find?_enclosing_declare step
      (fun symbol => (lookup.lexicon.text? symbol).isNone) scope with same | ⟨unread, first, new⟩
    · -- What ended the contest early still does, at the same place, and nothing else.
      cases first : (Candidate.enclosing tree.graph scope).find?
          (fun candidate => (lookup.lexicon.text? candidate.symbol).isNone) with
      | some unread =>
        left
        rw [nearest_eq_error written first, nearest_eq_error written (same.trans first)]
      | none =>
        exact nearest_enclosing_declare_of_spelled lookup h step name scope written
          (spelled_of_find?_eq_none first) (spelled_of_find?_eq_none (same.trans first))
    · right
      have textless : (lookup.lexicon.text? unread.symbol).isNone = true := by
        simpa using List.find?_some first
      rw [nearest_eq_error written first, new]
      refine .fault fun ⟨spelling, known⟩ => ?_
      rw [new, known] at textless
      cases textless

theorem enclosing_declare :
    (lookup.answeringFrom grown).enclosing name scope =
        (lookup.answeringFrom tree).enclosing name scope ∨
      Brings lookup.lexicon symbol ((lookup.answeringFrom grown).enclosing name scope) := by
  rw [enclosing_answeringFrom, enclosing_answeringFrom, requireScope_declare lookup step]
  exact guarded_eq_or_brings _ (nearest_enclosing_declare lookup h step name scope)

end Declare

/-- **Growing the tree disturbs earlier answers only in the obvious way.** After a new scope of any
kind, under any parent, every question about a scope that was there has the answer it had. After a
declaration, what is said of the names around a place of use is unchanged if the scope that
declares is not around it. Otherwise it is unchanged or it is the new name, found in an enclosing
scope; or a fault about the new name, if the lexicon does not know it. -/
theorem growth_changes_little {tree : Tree} (made : tree.Made) (room : tree.size < Id.count)
    (lookup : Lookup) (name : Unresolved) :
    (∀ parent kind label question,
      (∀ scope, question.scope? = some scope → scope.index < tree.size) →
        (lookup.answeringFrom (tree.edit (.openScope parent kind label))).ask name question =
          (lookup.answeringFrom tree).ask name question) ∧
    ∀ scope home symbol,
      (home ∉ tree.graph.chain scope →
        (lookup.answeringFrom (tree.edit (.declare home symbol))).ask name (.enclosing scope) =
          (lookup.answeringFrom tree).ask name (.enclosing scope)) ∧
      (home ∈ tree.graph.chain scope → lookup.lexicon.Knows symbol →
        (lookup.answeringFrom (tree.edit (.declare home symbol))).ask name (.enclosing scope) =
            (lookup.answeringFrom tree).ask name (.enclosing scope) ∨
          ∃ correction,
            (lookup.answeringFrom (tree.edit (.declare home symbol))).ask name (.enclosing scope) =
              .ok (some correction) ∧
            correction.origin = .enclosing ∧ correction.symbol = symbol) ∧
      (home ∈ tree.graph.chain scope → ¬lookup.lexicon.Knows symbol →
        (lookup.answeringFrom (tree.edit (.declare home symbol))).ask name (.enclosing scope) =
            (lookup.answeringFrom tree).ask name (.enclosing scope) ∨
          (lookup.answeringFrom (tree.edit (.declare home symbol))).ask name (.enclosing scope) =
            .error (.danglingSymbol symbol)) := by
  have sound := made.sound (Nat.le_of_lt room)
  refine ⟨fun parent kind label question about => ?_, fun scope home symbol => ?_⟩
  · rw [Tree.edit]
    cases step : tree.openScope parent kind label with
    | error fault => rfl
    | ok result =>
      obtain ⟨opened, grown⟩ := result
      have gains : (lookup.answeringFrom tree).graph.Gains opened grown.graph :=
        Tree.gains_openScope sound step room
      exact ask_gains gains name fun scope here =>
        Tree.opened_not_mem_chain sound step room (about scope here)
  · rw [Tree.edit]
    cases step : tree.declare home symbol with
    | error fault => exact ⟨fun _ => rfl, fun _ _ => .inl rfl, fun _ _ => .inl rfl⟩
    | ok grown =>
      have outcome := enclosing_declare lookup sound step name scope
      exact ⟨fun outside => enclosing_declare_of_not_mem lookup step name scope outside,
        fun _ known => outcome.imp_right fun brings => brings.exists_correction known,
        fun _ unread => outcome.imp_right fun brings => brings.eq_error unread⟩

/-- `color` is suggested in the enumeration, whatever is opened beside it or declared in it. -/
theorem color_suggested_as_palette_grows :
    palette.Made ∧ palette.size < Id.count ∧
      (∃ correction,
        (paletteLookup.answeringFrom palette).ask colr (.enclosing ⟨1⟩) = .ok (some correction) ∧
        (⟨1⟩ : Id).index < palette.size ∧
        (paletteLookup.answeringFrom (palette.edit (.openScope Tree.root .namespaceBody none))).ask
          colr (.enclosing ⟨1⟩) = .ok (some correction)) ∧
      (⟨1⟩ ∉ palette.graph.chain Tree.root ∧
        (paletteLookup.answeringFrom (palette.edit (.declare ⟨1⟩ ⟨805306368⟩))).ask colr
            (.enclosing Tree.root) =
          (paletteLookup.answeringFrom palette).ask colr (.enclosing Tree.root)) ∧
      ⟨1⟩ ∈ palette.graph.chain ⟨1⟩ ∧ paletteLookup.lexicon.Knows ⟨805306368⟩ ∧
      (∃ correction,
        (paletteLookup.answeringFrom (palette.edit (.declare ⟨1⟩ ⟨805306368⟩))).ask colr
          (.enclosing ⟨1⟩) = .ok (some correction) ∧ correction.origin = .enclosing) ∧
      ¬paletteLookup.lexicon.Knows ⟨2⟩ ∧
      ((paletteLookup.answeringFrom (palette.edit (.declare ⟨1⟩ ⟨2⟩))).ask colr (.enclosing ⟨1⟩) =
          (paletteLookup.answeringFrom palette).ask colr (.enclosing ⟨1⟩) ∨
        (paletteLookup.answeringFrom (palette.edit (.declare ⟨1⟩ ⟨2⟩))).ask colr (.enclosing ⟨1⟩) =
          .error (.danglingSymbol ⟨2⟩)) := by
  have made : palette.Made := inTree_palette.made
  have room : palette.size < Id.count := by decide
  have owned : (⟨1⟩ : Id).index < palette.size := by decide
  have outside : ⟨1⟩ ∉ palette.graph.chain Tree.root := by decide +kernel
  have around : ⟨1⟩ ∈ palette.graph.chain ⟨1⟩ := by decide +kernel
  have known : paletteLookup.lexicon.Knows ⟨805306368⟩ := ⟨"color", by decide +kernel⟩
  have unread : ¬paletteLookup.lexicon.Knows ⟨2⟩ := by
    have textless : paletteLookup.lexicon.text? ⟨2⟩ = none := by decide +kernel
    rintro ⟨text, read⟩
    cases textless.symm.trans read
  obtain ⟨correction, asked, origin⟩ := exists_ask_palette
  obtain ⟨opens, declares⟩ := growth_changes_little made room paletteLookup colr
  have opened := opens Tree.root .namespaceBody none (.enclosing ⟨1⟩) fun scope here => by
    cases here
    exact owned
  refine ⟨made, room, ⟨correction, asked, owned, opened.trans asked⟩,
    ⟨outside, (declares Tree.root ⟨1⟩ ⟨805306368⟩).1 outside⟩, around, known, ?_, unread,
    (declares ⟨1⟩ ⟨1⟩ ⟨2⟩).2.2 around unread⟩
  rcases (declares ⟨1⟩ ⟨1⟩ ⟨805306368⟩).2.1 around known with same | ⟨new, found, tells, _⟩
  · exact ⟨correction, same.trans asked, origin⟩
  · exact ⟨new, found, tells⟩

end Lookup

end NearMiss
