import NearMiss.Candidate.Elsewhere
import NearMiss.Proofs.Candidate.Offer
import NearMiss.Proofs.Scope.Descent

/-! The search for names elsewhere is a walk in pre-order.

The search keeps one stack, and it is bounded in how deep it goes. `Exploration`
is the same search with nothing to bound it, one visit at a time. Where no scope
lies below itself every exploration ends, the bound is never met, and what is
found is what a recursive walk lists: each place before what lies below it
(`search_ends_in_preorder`). Nothing else is asked of the graph: children may be
listed twice, be unknown, be of any kind and lie around the place of use. -/
namespace NearMiss.Candidate

open Scope (Graph Id)
open Scope.Graph (loose wayOut_loose acyclic_loose)

/-! ### The recursive walk -/

section Preorder
variable {graph : Graph} {α : Type}

/-- What a visit to a scope yields, and then what visits to all that lies below it yield, each
level one step farther away. -/
def preorder (acyclic : graph.Acyclic) (visit : Id → Nat → List α) (scope : Id) (depth : Nat) :
    List α :=
  visit scope depth ++ (graph.childNamespaces scope).attach.flatMap fun child =>
    preorder acyclic visit child.val (rank (depth + 1))
termination_by acyclic.wellFounded.wrap scope
decreasing_by exact child.property

variable (acyclic : graph.Acyclic)

theorem preorder_eq (visit : Id → Nat → List α) (scope : Id) (depth : Nat) :
    preorder acyclic visit scope depth =
      visit scope depth ++ (graph.childNamespaces scope).flatMap fun child =>
        preorder acyclic visit child (rank (depth + 1)) := by
  rw [preorder]
  simp

/-- The places that are visited, with their distances. -/
def places (scope : Id) (depth : Nat) : List (Id × Nat) :=
  preorder acyclic (fun scope depth => [(scope, depth)]) scope depth

theorem places_eq (scope : Id) (depth : Nat) :
    places acyclic scope depth = (scope, depth) ::
      (graph.childNamespaces scope).flatMap (places acyclic · (rank (depth + 1))) :=
  preorder_eq ..

/-- Visits may be made after all places have been listed. -/
theorem flatMap_places (visit : Id → Nat → List α) (scope : Id) (depth : Nat) :
    (places acyclic scope depth).flatMap (fun place => visit place.1 place.2) =
      preorder acyclic visit scope depth := by
  induction scope using acyclic.wellFounded.induction generalizing depth with
  | _ scope ih =>
    rw [places_eq, preorder_eq, List.flatMap_cons, List.flatMap_assoc]
    refine congrArg _ (List.flatMap_congr fun child listed => ?_)
    exact ih child listed _

/-! ### The bounded search -/

/-- A search that may go as deep as the graph goes lists the pending places one by one, each
before what lies below it. -/
theorem search_eq_places (stack : List Pending)
    (room : ∀ pending ∈ stack, ∀ path : List Id, (pending.scope :: path).IsChain graph.Listed →
      path.length < pending.room) :
    search graph stack =
      stack.flatMap fun pending => places acyclic pending.scope pending.depth := by
  induction stack using search.induct graph with
  | case1 => rw [search, List.flatMap_nil]
  | case2 scope depth rest ih =>
    exact absurd (room _ List.mem_cons_self [] (.singleton scope)) (Nat.not_lt_zero _)
  | case3 scope depth room' rest ih =>
    rw [search_cons, ih, List.flatMap_append, Pending.children, List.flatMap_map,
      List.flatMap_cons, places_eq, List.cons_append]
    intro pending on path way
    rcases List.mem_append.mp on with child | waiting
    · obtain ⟨inner, listed, rfl⟩ := List.mem_map.mp child
      exact Nat.lt_of_succ_lt_succ
        (room _ List.mem_cons_self (inner :: path) (.cons_cons listed way))
    · exact room pending (List.mem_cons_of_mem _ waiting) path way

/-! ### Around a place of use -/

/-- The namespaces among some scopes. -/
def spaces (graph : Graph) (scopes : List Id) : List Id :=
  scopes.filter fun scope => graph.kind scope == some .namespaceBody

/-- The walks from the children of namespaces that lie around each other, innermost first. A child
that is one of them is left out; what lies below the others is not. -/
def preorderAround (visit : Id → Nat → List α) (around : List Id) : List α :=
  around.zipIdx.flatMap fun (enclosing, level) =>
    ((graph.childNamespaces enclosing).filter (!around.contains ·)).flatMap fun child =>
      preorder acyclic visit child (rank (level + 1))

theorem flatMap_preorderAround (visit : Id → Nat → List α) (around : List Id) :
    (preorderAround acyclic (fun scope depth => [(scope, depth)]) around).flatMap
        (fun place => visit place.1 place.2) = preorderAround acyclic visit around := by
  simp only [preorderAround, List.flatMap_assoc]
  apply congrArg (List.flatMap · _)
  funext (enclosing, level)
  exact congrArg (List.flatMap · _) (funext fun child => flatMap_places acyclic visit child _)

theorem namespacesElsewhere_eq_preorderAround {start : Id} {chain : List Id}
    (way : graph.WayOut start chain) :
    namespacesElsewhere graph start =
      preorderAround acyclic (fun scope depth => [(scope, depth)]) (spaces graph chain) := by
  have around : graph.namespaceChain start = spaces graph chain :=
    congrArg (spaces graph) way.chain_eq
  simp only [namespacesElsewhere, around, preorderAround]
  apply congrArg (List.flatMap · _)
  funext (enclosing, level)
  dsimp only
  rw [search_eq_places acyclic, List.flatMap_map]
  · rfl
  · intro pending on path way
    obtain ⟨child, _, rfl⟩ := List.mem_map.mp on
    exact acyclic.length_lt way

end Preorder

/-! ### The search with nothing to bound it -/

/-- A search under way. -/
structure Exploration where
  /-- The namespaces around the place of use that are still to come, each with its level. -/
  levels : List (Id × Nat)
  /-- The places still to be visited on this level, the next one on top. -/
  stack : List (Id × Nat)
  found : List (Id × Nat)

namespace Exploration

/-- A search that is to begin. -/
def start (around : List Id) : Exploration := ⟨around.zipIdx, [], []⟩

/-- Visits the place on top of the stack, and leaves its children there in its stead. When the
stack is empty the next level is begun, and when there is none the search has ended. -/
def step (graph : Graph) (around : List Id) : Exploration → Option Exploration
  | ⟨levels, (scope, depth) :: stack, found⟩ =>
    some ⟨levels, (graph.childNamespaces scope).map (·, rank (depth + 1)) ++ stack,
      found ++ [(scope, depth)]⟩
  | ⟨(enclosing, level) :: levels, [], found⟩ =>
    some ⟨levels, ((graph.childNamespaces enclosing).filter (!around.contains ·)).map
      (·, rank (level + 1)), found⟩
  | ⟨[], [], _⟩ => none

/-- Some steps lead from one state of the search to another. -/
def Reaches (graph : Graph) (around : List Id) : Exploration → Exploration → Prop :=
  Relation.ReflTransGen fun before after => before.step graph around = some after

variable {graph : Graph} (acyclic : graph.Acyclic) (around : List Id)

/-- The stack shrinks again to what lies under the places on top of it, if each of them alone
makes it do so. -/
theorem reaches_of_each (waiting : List (Id × Nat))
    (each : ∀ place ∈ waiting, ∀ levels stack found,
      Reaches graph around ⟨levels, place :: stack, found⟩
        ⟨levels, stack, found ++ places acyclic place.1 place.2⟩)
    (levels stack found : List (Id × Nat)) :
    Reaches graph around ⟨levels, waiting ++ stack, found⟩
      ⟨levels, stack, found ++ waiting.flatMap fun place => places acyclic place.1 place.2⟩ := by
  induction waiting generalizing found with
  | nil =>
    rw [List.flatMap_nil, List.append_nil]
    exact .refl
  | cons place rest ih =>
    rw [List.flatMap_cons, ← List.append_assoc]
    exact (each place List.mem_cons_self _ _ _).trans
      (ih (fun other on => each other (List.mem_cons_of_mem _ on)) _)

/-- A place is visited with all that lies below it before anything under it on the stack is. The
stack grows on the way, so the induction is on how far inwards the place lies. -/
theorem reaches_places (scope : Id) (depth : Nat) (levels stack found : List (Id × Nat)) :
    Reaches graph around ⟨levels, (scope, depth) :: stack, found⟩
      ⟨levels, stack, found ++ places acyclic scope depth⟩ := by
  induction scope using acyclic.wellFounded.induction generalizing depth levels stack found with
  | _ scope ih =>
    have below := reaches_of_each acyclic around
      ((graph.childNamespaces scope).map (·, rank (depth + 1)))
      (fun place on levels stack found => by
        obtain ⟨child, listed, rfl⟩ := List.mem_map.mp on
        exact ih child listed _ levels stack found)
      levels stack (found ++ [(scope, depth)])
    rw [List.flatMap_map, List.append_assoc, List.singleton_append, ← places_eq] at below
    exact .head rfl below

/-- One level after the other is gone through to its end. -/
theorem reaches_levels (levels found : List (Id × Nat)) :
    Reaches graph around ⟨levels, [], found⟩
      ⟨[], [], found ++ levels.flatMap fun (enclosing, level) =>
        ((graph.childNamespaces enclosing).filter (!around.contains ·)).flatMap
          (places acyclic · (rank (level + 1)))⟩ := by
  induction levels generalizing found with
  | nil =>
    rw [List.flatMap_nil, List.append_nil]
    exact .refl
  | cons first levels ih =>
    obtain ⟨enclosing, level⟩ := first
    have here := reaches_of_each acyclic around
      (((graph.childNamespaces enclosing).filter (!around.contains ·)).map (·, rank (level + 1)))
      (fun place _ => reaches_places acyclic around place.1 place.2) levels [] found
    rw [List.append_nil, List.flatMap_map] at here
    rw [List.flatMap_cons, ← List.append_assoc]
    exact .head rfl (here.trans (ih _))

end Exploration

/-- The search for names elsewhere, with nothing to bound it, comes to an end and has then found
the namespaces to look into. What they declare is what the recursive walks list, and each name is
offered where it stands first. -/
theorem search_ends_in_preorder {graph : Graph} {start : Id} {chain : List Id}
    (way : graph.WayOut start chain) (acyclic : graph.Acyclic) :
    (∃ last, Exploration.Reaches graph (spaces graph chain) (.start (spaces graph chain)) last ∧
      last.step graph (spaces graph chain) = none ∧
      last.found = namespacesElsewhere graph start) ∧
    elsewhere graph start =
      (preorderAround acyclic (fun home depth => declared graph (.elsewhere home) depth home)
        (spaces graph chain)).eraseDupsBy fun later earlier => later.symbol == earlier.symbol := by
  have listed := namespacesElsewhere_eq_preorderAround acyclic way
  constructor
  · refine ⟨⟨[], [], namespacesElsewhere graph start⟩, ?_, rfl, rfl⟩
    rw [listed]
    exact Exploration.reaches_levels acyclic _ _ []
  · have declares := flatMap_preorderAround acyclic
      (fun home depth => declared graph (.elsewhere home) depth home) (spaces graph chain)
    rw [← listed] at declares
    rw [← firstOfEach_eq_eraseDupsBy, ← declares]
    rfl

/-! ### Where child lists promise nothing -/

/-- Namespace 2 is left out at once, as it is around the place of use, and met below namespace 1. -/
theorem preorderAround_loose {α : Type} (visit : Id → Nat → List α) :
    preorderAround acyclic_loose visit [⟨2⟩, ⟨0⟩] =
      visit ⟨3⟩ 1 ++
        ((visit ⟨1⟩ 2 ++ (visit ⟨2⟩ 3 ++ visit ⟨3⟩ 4)) ++
          (visit ⟨1⟩ 2 ++ (visit ⟨2⟩ 3 ++ visit ⟨3⟩ 4)) ++ visit ⟨9⟩ 2) := by
  have leaf : ∀ {scope : Id} {depth : Nat}, loose.childNamespaces scope = [] →
      preorder acyclic_loose visit scope depth = visit scope depth := by
    intro scope depth none
    rw [preorder_eq, none, List.flatMap_nil, List.append_nil]
  have only : ∀ {scope : Id} {depth : Nat} (child : Id), loose.childNamespaces scope = [child] →
      preorder acyclic_loose visit scope depth =
        visit scope depth ++ preorder acyclic_loose visit child (rank (depth + 1)) := by
    intro scope depth child one
    rw [preorder_eq, one, List.flatMap_singleton]
  have three : ∀ depth, preorder acyclic_loose visit ⟨3⟩ depth = visit ⟨3⟩ depth :=
    fun _ => leaf rfl
  have one : preorder acyclic_loose visit ⟨1⟩ 2 = visit ⟨1⟩ 2 ++ (visit ⟨2⟩ 3 ++ visit ⟨3⟩ 4) := by
    rw [only ⟨2⟩ rfl, only ⟨3⟩ rfl, three]
    rfl
  have nine : preorder acyclic_loose visit ⟨9⟩ 2 = visit ⟨9⟩ 2 := leaf rfl
  have inner : (loose.childNamespaces ⟨2⟩).filter (!List.contains [⟨2⟩, ⟨0⟩] ·) = [⟨3⟩] := by decide
  have outer : (loose.childNamespaces ⟨0⟩).filter (!List.contains [⟨2⟩, ⟨0⟩] ·) =
      [⟨1⟩, ⟨1⟩, ⟨9⟩] := by
    decide
  have listed : preorderAround acyclic_loose visit [⟨2⟩, ⟨0⟩] =
      [⟨3⟩].flatMap (preorder acyclic_loose visit · 1) ++
        ([⟨1⟩, ⟨1⟩, ⟨9⟩].flatMap (preorder acyclic_loose visit · 2) ++ []) := by
    rw [← inner, ← outer]
    rfl
  rw [listed]
  simp [three, one, nine]

theorem loose_searched_to_its_end :
    loose.WayOut ⟨4⟩ [⟨4⟩, ⟨2⟩, ⟨0⟩] ∧ loose.Acyclic ∧
    (∃ last, Exploration.Reaches loose [⟨2⟩, ⟨0⟩] (.start [⟨2⟩, ⟨0⟩]) last ∧
      last.step loose [⟨2⟩, ⟨0⟩] = none ∧ last.found = namespacesElsewhere loose ⟨4⟩) ∧
    elsewhere loose ⟨4⟩ =
      [⟨⟨12⟩, .elsewhere ⟨3⟩, 1⟩, ⟨⟨13⟩, .elsewhere ⟨3⟩, 1⟩, ⟨⟨11⟩, .elsewhere ⟨1⟩, 2⟩,
        ⟨⟨14⟩, .elsewhere ⟨2⟩, 3⟩] := by
  obtain ⟨ended, offered⟩ := search_ends_in_preorder wayOut_loose acyclic_loose
  have around : spaces loose [⟨4⟩, ⟨2⟩, ⟨0⟩] = [⟨2⟩, ⟨0⟩] := by decide
  rw [around] at ended offered
  refine ⟨wayOut_loose, acyclic_loose, ended, ?_⟩
  rw [offered, preorderAround_loose]
  decide

end NearMiss.Candidate
