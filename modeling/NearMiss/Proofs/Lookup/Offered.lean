import NearMiss.Proofs.Lexicon.Learning
import NearMiss.Proofs.Lookup.Unresolved

/-! What an answer comes from.

No answer is made up: its name is declared in the scope that its origin tells,
or is the very name that was written and has an entry among the headers
(`Offers`). A lookup is legible if its lexicon knows every name in it. Then
nothing that is offered lacks a text, so every question about a known name comes
to an end: it is refused for the scope it is about, or it has its answer
(`completes_ask`). -/
namespace NearMiss

open Scope (Graph Id)

/-- The origin tells that a name is declared in the scope. Of a scope around the place of use
it does not tell which one it is. -/
inductive Origin.At (scope : Id) : Origin → Prop
  | enclosing : At scope .enclosing
  | elsewhere : At scope (.elsewhere scope)
  | enumerator : At scope (.enumerator scope)
  | member : At scope (.member scope)

/-! ### Candidates -/

namespace Candidate

/-- Some scope declares the name, and it is the one that the origin tells. -/
def Attested (graph : Graph) (candidate : Candidate) : Prop :=
  ∃ scope, candidate.symbol ∈ graph.members scope ∧ candidate.origin.At scope

variable {graph : Graph} {candidate : Candidate}

theorem attested_of_mem_declared {origin : Origin} {depth : Nat} {scope : Id}
    (tells : origin.At scope) (on : candidate ∈ declared graph origin depth scope) :
    candidate.Attested graph := by
  obtain ⟨symbol, known, rfl⟩ := List.mem_map.mp on
  exact ⟨scope, known, tells⟩

/-- Candidates from one scope. -/
theorem attested_of_mem_firstOfEach {origin : Origin} {depth : Nat} {scope : Id}
    (tells : origin.At scope) (on : candidate ∈ firstOfEach (declared graph origin depth scope)) :
    candidate.Attested graph :=
  attested_of_mem_declared tells ((firstUnseen_sublist _ _).subset on)

/-- Candidates from one place after another. -/
theorem attested_of_mem_offers {α : Type} {places : List α} {origin : α → Origin}
    {depth : α → Nat} {scope : α → Id} (tells : ∀ place, (origin place).At (scope place))
    (on : candidate ∈ firstOfEach
      (places.flatMap fun place => declared graph (origin place) (depth place) (scope place))) :
    candidate.Attested graph := by
  obtain ⟨place, _, made⟩ := List.mem_flatMap.mp ((firstUnseen_sublist _ _).subset on)
  exact attested_of_mem_declared (tells place) made

theorem attested_of_mem_enclosing {start : Id} (on : candidate ∈ enclosing graph start) :
    candidate.Attested graph := attested_of_mem_offers (fun _ => .enclosing) on

theorem attested_of_mem_elsewhere {start : Id} (on : candidate ∈ elsewhere graph start) :
    candidate.Attested graph := attested_of_mem_offers (fun _ => .elsewhere) on

end Candidate

/-! ### Legible lookups -/

/-- The lexicon knows every name in the graph. -/
structure Scope.Graph.Legible (lexicon : Lexicon) (graph : Graph) : Prop where
  name : ∀ scope symbol, graph.name scope = some symbol → lexicon.Knows symbol
  members : ∀ scope, ∀ symbol ∈ graph.members scope, lexicon.Knows symbol

/-- The lexicon knows every name in the index, and the headers they are entered with. -/
def HeaderIndex.Legible (lexicon : Lexicon) (index : HeaderIndex) : Prop :=
  ∀ symbol header, index.find? symbol = some header →
    lexicon.Knows symbol ∧ lexicon.Knows header

/-- The lexicon knows the name, and the header where one is named. -/
structure Correction.Legible (lexicon : Lexicon) (correction : Correction) : Prop where
  symbol : lexicon.Knows correction.symbol
  header : ∀ header, correction.origin = .header header → lexicon.Knows header

namespace Lookup

structure Legible (lookup : Lookup) : Prop where
  graph : lookup.graph.Legible lookup.lexicon
  headers : lookup.headers.Legible lookup.lexicon

/-- What an answer comes from. -/
inductive Offers (lookup : Lookup) (name : Unresolved) (correction : Correction) : Prop
  | declared (scope : Id) : correction.symbol ∈ lookup.graph.members scope →
      correction.origin.At scope → Offers lookup name correction
  | entered (header : Symbol) : lookup.headers.find? name.symbol = some header →
      correction.symbol = name.symbol → correction.origin = .header header →
      Offers lookup name correction

/-- The question was refused, for a reason, or it has its answer. -/
inductive Completes (lookup : Lookup) (name : Unresolved) :
    Except Fault (Option Correction) → Prop
  | unknownScope {scope : Id} : lookup.graph.kind scope = none →
      Completes lookup name (.error (.unknownScope scope))
  | notScopedEnumeration {scope : Id} {kind : Scope.Kind} :
      lookup.graph.kind scope = some kind → kind ≠ .scopedEnumeration →
      Completes lookup name (.error (.notScopedEnumeration scope))
  | nothing : Completes lookup name (.ok none)
  | offered {correction : Correction} : lookup.Offers name correction →
      Completes lookup name (.ok (some correction))

variable {lookup : Lookup} {name : Unresolved}

theorem Offers.legible (h : lookup.Legible) {correction : Correction}
    (offers : lookup.Offers name correction) : correction.Legible lookup.lexicon := by
  cases offers with
  | declared scope known tells =>
    refine ⟨h.graph.members scope _ known, fun header same => ?_⟩
    rw [same] at tells
    cases tells
  | entered header found same origin =>
    obtain ⟨named, spelled⟩ := h.headers name.symbol header found
    refine ⟨same ▸ named, fun other same => ?_⟩
    cases origin.symm.trans same
    exact spelled

section Completes
variable (h : lookup.Legible) (known : lookup.lexicon.Knows name.symbol)
include h known

theorem completes_nearest {candidates : List Candidate}
    (attested : ∀ candidate ∈ candidates, candidate.Attested lookup.graph) :
    lookup.Completes name (lookup.nearest name candidates) := by
  obtain ⟨written, known⟩ := known
  have spelled : ∀ candidate ∈ candidates,
      ∃ text, lookup.lexicon.text? candidate.symbol = some text := by
    intro candidate on
    obtain ⟨scope, declared, _⟩ := attested candidate on
    exact h.graph.members scope _ declared
  rw [nearest_eq known spelled]
  cases result : Entrant.best (candidates.filterMap (lookup.contest name written).entrant?) with
  | none => exact .nothing
  | some winner =>
    have listed := (mem_entrants_iff known).mp (Entrant.mem_of_best result)
    obtain ⟨scope, declared, tells⟩ := attested _ listed.1
    exact .offered (.declared scope declared tells)

/-- A question about a scope that has to be owned. -/
theorem completes_inScope (scope : Id) {candidates : List Candidate}
    (attested : ∀ candidate ∈ candidates, candidate.Attested lookup.graph) :
    lookup.Completes name
      (do let _ ← lookup.requireScope scope; lookup.nearest name candidates) := by
  rw [requireScope]
  cases owned : lookup.graph.kind scope with
  | none => exact .unknownScope owned
  | some kind => exact completes_nearest h known attested

theorem completes_enumerator (enumeration : Id) :
    lookup.Completes name (lookup.enumerator name enumeration) := by
  rw [enumerator, requireScopedEnumeration, requireScope]
  cases owned : lookup.graph.kind enumeration with
  | none => exact .unknownScope owned
  | some kind =>
    show Completes lookup name
      (Except.bind (if kind = .scopedEnumeration then .ok () else
        .error (.notScopedEnumeration enumeration)) _)
    split
    · exact completes_nearest h known fun _ on =>
        Candidate.attested_of_mem_firstOfEach .enumerator on
    · next other => exact .notScopedEnumeration owned other

omit h in
theorem completes_missingHeader : lookup.Completes name (lookup.missingHeader name) := by
  obtain ⟨written, known⟩ := known
  rw [missingHeader_eq known]
  cases found : lookup.headers.find? name.symbol with
  | none => exact .nothing
  | some header => exact .offered (.entered header found rfl rfl)

/-- The three questions about an unresolved name, one after the other. -/
theorem completes_unresolved (scope : Id) :
    lookup.Completes name (lookup.unresolved name scope) := by
  have around : lookup.Completes name (lookup.enclosing name scope) :=
    completes_inScope h known scope fun _ on => Candidate.attested_of_mem_enclosing on
  have apart : lookup.Completes name (lookup.elsewhere name scope) :=
    completes_inScope h known scope fun _ on => Candidate.attested_of_mem_elsewhere on
  rw [unresolved]
  generalize lookup.enclosing name scope = first, lookup.elsewhere name scope = second
    at around apart ⊢
  cases around with
  | unknownScope foreign => exact .unknownScope foreign
  | notScopedEnumeration owned other => exact .notScopedEnumeration owned other
  | offered correction => exact .offered correction
  | nothing =>
    cases apart with
    | unknownScope foreign => exact .unknownScope foreign
    | notScopedEnumeration owned other => exact .notScopedEnumeration owned other
    | offered correction => exact .offered correction
    | nothing => exact completes_missingHeader known

/-- **Every question comes to an end.** -/
theorem completes_ask (question : Question) :
    lookup.Completes name (lookup.ask name question) := by
  cases question with
  | enclosing scope =>
    exact completes_inScope h known scope fun _ on => Candidate.attested_of_mem_enclosing on
  | elsewhere scope =>
    exact completes_inScope h known scope fun _ on => Candidate.attested_of_mem_elsewhere on
  | missingHeader => exact completes_missingHeader known
  | member scope =>
    exact completes_inScope h known scope fun _ on =>
      Candidate.attested_of_mem_firstOfEach .member on
  | enumerator enumeration => exact completes_enumerator h known enumeration
  | unresolved scope => exact completes_unresolved h known scope

end Completes

/-! ### Answers that were given -/

theorem knows_of_nearest {candidates : List Candidate} {answer : Option Correction}
    (asked : lookup.nearest name candidates = .ok answer) :
    lookup.lexicon.Knows name.symbol := by
  rw [nearest] at asked
  obtain ⟨text, read, _⟩ := except_bind_eq_ok_iff.mp asked
  exact ⟨text, Lexicon.text_eq_ok_iff.mp read⟩

/-- The first candidate without a text is where a lookup stops. -/
theorem nearest_eq_error {written : String}
    (known : lookup.lexicon.text? name.symbol = some written) {candidates : List Candidate}
    {unread : Candidate}
    (first : candidates.find? (fun candidate =>
      (lookup.lexicon.text? candidate.symbol).isNone) = some unread) :
    lookup.nearest name candidates = .error (.danglingSymbol unread.symbol) := by
  have near : (lookup.contest name written).acceptance =
      .within (lookup.tolerance.threshold written.length) := rfl
  have target : ∃ text, (lookup.contest name written).lexicon.text?
      (lookup.contest name written).target = some text := ⟨written, known⟩
  have stopped := Contest.foldlM_consider_of_find? near target first none
  rw [nearest_eq_winner known, Contest.winner, Contest.best, stopped]
  rfl

theorem nearest_eq_error_of_unread (unread : lookup.lexicon.text? name.symbol = none)
    (candidates : List Candidate) :
    lookup.nearest name candidates = .error (.danglingSymbol name.symbol) := by
  rw [nearest, Lexicon.text, unread]
  rfl

theorem spelled_of_find?_eq_none {candidates : List Candidate}
    (all : candidates.find? (fun candidate =>
      (lookup.lexicon.text? candidate.symbol).isNone) = none) :
    ∀ candidate ∈ candidates, ∃ text, lookup.lexicon.text? candidate.symbol = some text := by
  intro candidate on
  have read := List.find?_eq_none.mp all candidate on
  rwa [Bool.not_eq_true, Option.isNone_eq_false_iff, Option.isSome_iff_exists] at read

/-- Nothing is answered unless every candidate has its text. -/
theorem spelled_of_nearest {candidates : List Candidate} {answer : Option Correction}
    (asked : lookup.nearest name candidates = .ok answer) :
    ∀ candidate ∈ candidates, ∃ text, lookup.lexicon.text? candidate.symbol = some text := by
  obtain ⟨written, known⟩ := knows_of_nearest asked
  cases first : candidates.find? fun candidate =>
      (lookup.lexicon.text? candidate.symbol).isNone with
  | none => exact spelled_of_find?_eq_none first
  | some unread =>
    rw [nearest_eq_error known first] at asked
    cases asked

/-- Nothing is answered for a name that the lexicon does not know. -/
theorem knows_of_ask {question : Question} {answer : Option Correction}
    (asked : lookup.ask name question = .ok answer) : lookup.lexicon.Knows name.symbol := by
  cases question with
  | missingHeader =>
    rw [ask, missingHeader, Contest.start] at asked
    obtain ⟨contest, started, _⟩ := except_bind_eq_ok_iff.mp asked
    obtain ⟨text, read, _⟩ := except_bind_eq_ok_iff.mp started
    exact ⟨text, Lexicon.text_eq_ok_iff.mp read⟩
  | unresolved scope =>
    obtain ⟨first, around, _⟩ := except_bind_eq_ok_iff.mp asked
    obtain ⟨_, _, nearest⟩ := except_bind_eq_ok_iff.mp around
    exact knows_of_nearest nearest
  | enclosing scope =>
    obtain ⟨_, _, nearest⟩ := except_bind_eq_ok_iff.mp asked
    exact knows_of_nearest nearest
  | elsewhere scope =>
    obtain ⟨_, _, nearest⟩ := except_bind_eq_ok_iff.mp asked
    exact knows_of_nearest nearest
  | member scope =>
    obtain ⟨_, _, nearest⟩ := except_bind_eq_ok_iff.mp asked
    exact knows_of_nearest nearest
  | enumerator enumeration =>
    obtain ⟨_, _, nearest⟩ := except_bind_eq_ok_iff.mp asked
    exact knows_of_nearest nearest

theorem offers_of_ask (h : lookup.Legible) {question : Question} {correction : Correction}
    (asked : lookup.ask name question = .ok (some correction)) :
    lookup.Offers name correction := by
  have completes := completes_ask h (knows_of_ask asked) question
  rw [asked] at completes
  cases completes with
  | offered offers => exact offers

end Lookup

end NearMiss
