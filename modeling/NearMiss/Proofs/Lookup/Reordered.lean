import NearMiss.Proofs.Candidate.Alike
import NearMiss.Proofs.Lookup.Offered

/-! Names declared in another order.

The order in which a scope lists its names decides where in a list of candidates
a name stands, and nothing else: which names are offered, from where and how far
away is the same, since a name is offered at the first place that declares it at
all. The contest does not see the order either. No two of its entrants have the
same text, so there is only one whom none beats. -/
namespace NearMiss

open Scope (Graph Id Tree)

/-- The best of some entrants is the best of them in any order, if texts tell them apart. -/
theorem Entrant.best_eq_of_mem_iff {entrants entrants' : List Entrant}
    (same : ∀ entrant, entrant ∈ entrants ↔ entrant ∈ entrants')
    (apart : ∀ a ∈ entrants, ∀ b ∈ entrants, a.text = b.text → a = b) :
    best entrants = best entrants' := by
  cases first : best entrants with
  | none =>
    have nobody := best_eq_none_iff.mp first
    have nobody' : entrants' = [] := by
      refine List.eq_nil_iff_forall_not_mem.mpr fun entrant on => ?_
      rw [← same, nobody] at on
      cases on
    rw [best_eq_none_iff.mpr nobody']
  | some winner =>
    have on := mem_of_best first
    cases second : best entrants' with
    | none =>
      rw [same, best_eq_none_iff.mp second] at on
      cases on
    | some winner' =>
      have on' := (same winner').mpr (mem_of_best second)
      by_cases text : winner.text = winner'.text
      · rw [apart winner on winner' on' text]
      · have better := beats_of_not_beats (not_beats_best first on') text
        exact absurd better (not_beats_best second ((same winner).mp on))

namespace Scope.Graph

/-- The graphs differ at most in the order of the names that a scope declares. -/
structure Reordered (graph graph' : Graph) : Prop extends SameShape graph graph' where
  name_eq : graph.name = graph'.name
  members_perm : ∀ scope, (graph.members scope).Perm (graph'.members scope)

/-- The graph with the names of each scope listed from the last to the first. -/
def reversed (graph : Graph) : Graph :=
  { graph with members := fun scope => (graph.members scope).reverse }

theorem reordered_reversed (graph : Graph) : graph.Reordered graph.reversed where
  kind_eq := rfl
  parent_eq := rfl
  childNamespaces_eq := rfl
  name_eq := rfl
  members_perm _ := (List.reverse_perm _).symm

theorem Reordered.mem_members_iff {graph graph' : Graph} (h : graph.Reordered graph') (scope : Id)
    {symbol : Symbol} : symbol ∈ graph.members scope ↔ symbol ∈ graph'.members scope :=
  (h.members_perm scope).mem_iff

end Scope.Graph

/-! ### What is offered -/

namespace Candidate

section Reordered
variable {graph graph' : Graph} (h : graph.Reordered graph')
include h

/-- Candidates from one place after another. -/
theorem mem_offers_reordered {α : Type} {places : List α} {origin : α → Origin} {depth : α → Nat}
    {scope : α → Id} {candidate : Candidate} :
    candidate ∈ firstOfEach
        (places.flatMap fun place => declared graph (origin place) (depth place) (scope place)) ↔
      candidate ∈ firstOfEach
        (places.flatMap fun place =>
          declared graph' (origin place) (depth place) (scope place)) := by
  simp only [mem_firstOfEach_iff, find?_flatMap_declared, h.mem_members_iff]

theorem mem_enclosing_reordered {start : Id} {candidate : Candidate} :
    candidate ∈ enclosing graph start ↔ candidate ∈ enclosing graph' start := by
  rw [enclosing, enclosing, ← h.chain_eq]
  exact mem_offers_reordered h

theorem mem_elsewhere_reordered {start : Id} {candidate : Candidate} :
    candidate ∈ elsewhere graph start ↔ candidate ∈ elsewhere graph' start := by
  rw [elsewhere, elsewhere, ← namespacesElsewhere_eq_of_sameShape h.toSameShape]
  exact mem_offers_reordered h

/-- Candidates from one scope. -/
theorem mem_declared_reordered {origin : Origin} {depth : Nat} {scope : Id}
    {candidate : Candidate} :
    candidate ∈ firstOfEach (declared graph origin depth scope) ↔
      candidate ∈ firstOfEach (declared graph' origin depth scope) := by
  simp only [mem_firstOfEach_iff, find?_declared, h.mem_members_iff]

end Reordered

end Candidate

/-! ### What is answered -/

namespace Lookup

variable {lookup : Lookup} {graph : Graph} {name : Unresolved}

/-- The same candidates have the same best one, in whatever order they come. -/
theorem nearest_eq_of_mem_iff {candidates candidates' : List Candidate}
    (same : ∀ candidate, candidate ∈ candidates ↔ candidate ∈ candidates')
    (different : (candidates.map Candidate.symbol).Nodup)
    (known : ∀ candidate ∈ candidates, lookup.lexicon.Knows candidate.symbol) :
    lookup.nearest name candidates = lookup.nearest name candidates' := by
  cases written : lookup.lexicon.text? name.symbol with
  | none => rw [nearest_eq_error_of_unread written, nearest_eq_error_of_unread written]
  | some text =>
    have known' : ∀ candidate ∈ candidates', lookup.lexicon.Knows candidate.symbol :=
      fun candidate on => known candidate ((same candidate).mpr on)
    rw [nearest_eq written known, nearest_eq written known']
    refine congrArg (fun best => Except.ok (Option.map _ best)) (Entrant.best_eq_of_mem_iff ?_ ?_)
    · intro entrant
      simp only [mem_entrants_iff written, Pool, same]
    · intro a ha b hb
      exact eq_of_text_eq different ((mem_entrants_iff written).mp ha)
        ((mem_entrants_iff written).mp hb)

section Reordered
variable (known : ∀ scope, ∀ symbol ∈ lookup.graph.members scope, lookup.lexicon.Knows symbol)
include known

/-- Names that are offered by both graphs, in one order and in the other. -/
theorem nearest_reordered {candidates candidates' : List Candidate}
    (same : ∀ candidate, candidate ∈ candidates ↔ candidate ∈ candidates')
    (different : (candidates.map Candidate.symbol).Nodup)
    (attested : ∀ candidate ∈ candidates, candidate.Attested lookup.graph) :
    ({ lookup with graph } : Lookup).nearest name candidates' = lookup.nearest name candidates := by
  refine (nearest_eq_of_mem_iff same different fun candidate on => ?_).symm
  obtain ⟨scope, declared, _⟩ := attested candidate on
  exact known scope _ declared

variable (h : lookup.graph.Reordered graph)
include h

omit known in
theorem requireScope_reordered (scope : Id) :
    ({ lookup with graph } : Lookup).requireScope scope = lookup.requireScope scope := by
  rw [requireScope, requireScope, h.kind_eq]

theorem enclosing_reordered (scope : Id) :
    ({ lookup with graph } : Lookup).enclosing name scope = lookup.enclosing name scope := by
  rw [enclosing, enclosing, requireScope_reordered h,
    nearest_reordered known (fun _ => Candidate.mem_enclosing_reordered h)
      (Candidate.enclosing_nodup _ _) fun _ on => Candidate.attested_of_mem_enclosing on]

theorem elsewhere_reordered (scope : Id) :
    ({ lookup with graph } : Lookup).elsewhere name scope = lookup.elsewhere name scope := by
  rw [elsewhere, elsewhere, requireScope_reordered h,
    nearest_reordered known (fun _ => Candidate.mem_elsewhere_reordered h)
      (Candidate.elsewhere_nodup _ _) fun _ on => Candidate.attested_of_mem_elsewhere on]

/-- One scope's own names. -/
theorem nearest_declared_reordered {origin : Origin} {scope : Id} (tells : origin.At scope) :
    ({ lookup with graph } : Lookup).nearest name
        (Candidate.firstOfEach (Candidate.declared graph origin 0 scope)) =
      lookup.nearest name
        (Candidate.firstOfEach (Candidate.declared lookup.graph origin 0 scope)) :=
  nearest_reordered known (fun _ => Candidate.mem_declared_reordered h)
    (Candidate.firstOfEach_nodup _) fun _ on => Candidate.attested_of_mem_firstOfEach tells on

theorem member_reordered (scope : Id) :
    ({ lookup with graph } : Lookup).member name scope = lookup.member name scope := by
  rw [member, member, requireScope_reordered h, Candidate.members, Candidate.members,
    nearest_declared_reordered known h .member]

theorem enumerator_reordered (enumeration : Id) :
    ({ lookup with graph } : Lookup).enumerator name enumeration =
      lookup.enumerator name enumeration := by
  rw [enumerator, enumerator, requireScopedEnumeration, requireScopedEnumeration,
    requireScope_reordered h, Candidate.enumerators, Candidate.enumerators,
    nearest_declared_reordered known h .enumerator]

end Reordered

/-! ### Two names, declared in either order -/

/-- `color` and `colors`, declared globally. -/
def shelf : Tree :=
  Tree.empty.grow [.declareAll Tree.root [⟨805306368⟩, ⟨1⟩]]

def shelfLookup : Lookup := ⟨shelf.graph, colors, .empty, {}⟩

theorem inTree_shelf : shelfLookup.InTree shelf where
  graph_eq := rfl
  made := ⟨_, rfl⟩
  small := by decide
  spelled := spelled_of_records (by decide +kernel)

/-- **Declaration order does not matter.** Where two graphs agree but for the order in which each
scope lists its names, and the lexicon knows the names, every question has the same answer in both:
the same name from the same place, or none, or the same fault. -/
theorem ask_eq_of_reordered {lookup : Lookup} {graph : Graph} (h : lookup.graph.Reordered graph)
    (known : ∀ scope, ∀ symbol ∈ lookup.graph.members scope, lookup.lexicon.Knows symbol)
    (name : Unresolved) (question : Question) :
    ({ lookup with graph } : Lookup).ask name question = lookup.ask name question := by
  cases question with
  | enclosing scope => exact enclosing_reordered known h scope
  | elsewhere scope => exact elsewhere_reordered known h scope
  | missingHeader => rfl
  | member scope => exact member_reordered known h scope
  | enumerator enumeration => exact enumerator_reordered known h enumeration
  | unresolved scope =>
    rw [ask, ask, unresolved, unresolved, enclosing_reordered known h, elsewhere_reordered known h]
    rfl

theorem color_suggested_in_either_order :
    shelfLookup.graph.Reordered shelf.graph.reversed ∧
      (∀ scope, ∀ symbol ∈ shelfLookup.graph.members scope, shelfLookup.lexicon.Knows symbol) ∧
      shelf.graph.members Tree.root ≠ shelf.graph.reversed.members Tree.root ∧
      ∃ correction, shelfLookup.ask colr (.enclosing Tree.root) = .ok (some correction) ∧
        ({ shelfLookup with graph := shelf.graph.reversed } : Lookup).ask colr
          (.enclosing Tree.root) = .ok (some correction) := by
  have reordered : shelfLookup.graph.Reordered shelf.graph.reversed :=
    Graph.reordered_reversed shelf.graph
  have owned : Tree.root.index < shelf.size := by decide
  obtain ⟨answer, asked, settled⟩ := enclosing_settles inTree_shelf text?_colr owned
  have near : shelfLookup.Pool colr (Candidate.Visible shelf.graph Tree.root)
      ⟨⟨⟨805306368⟩, .enclosing, 0⟩, 1, "color"⟩ :=
    ⟨⟨rfl, Tree.root, by decide +kernel, by decide +kernel⟩, by decide, by decide +kernel,
      "colr", text?_colr, by decide +kernel, by decide +kernel⟩
  cases settled with
  | nobody empty => exact absurd near (empty _)
  | best here _ =>
    have same := ask_eq_of_reordered reordered inTree_shelf.spelled colr (.enclosing Tree.root)
    exact ⟨reordered, inTree_shelf.spelled, by decide +kernel, _, asked, same.trans asked⟩

end Lookup

end NearMiss
