import NearMiss.Candidate.Basic

/-! Names declared in namespaces that a place of use does not see into.

For each namespace around the place of use, innermost first, the search goes
through the child namespaces that are not themselves around it, each before its
own children. A namespace one level farther out, or nested one level deeper, is
one step farther away.

The search keeps the namespaces still to be visited on a stack. Each carries the
number of levels that may still open below it: `Scope.Id.count` at the outset,
which is as deep as a forest of namespaces can be. `unfolding` counts the visits
one of them causes, and their sum falls with every visit. -/
namespace NearMiss.Candidate

/-- A namespace still to be visited. -/
structure Pending where
  scope : Scope.Id
  depth : Nat
  /-- How many levels of namespaces may be opened, its own included. -/
  room : Nat

namespace Pending

/-- The children of a namespace, one step farther away. -/
def children (graph : Scope.Graph) (scope : Scope.Id) (depth room : Nat) : List Pending :=
  (graph.childNamespaces scope).map fun child => ⟨child, rank (depth + 1), room⟩

/-- How many visits a namespace causes. -/
def unfolding (graph : Scope.Graph) : Nat → Scope.Id → Nat
  | 0, _ => 1
  | room + 1, scope =>
    (graph.childNamespaces scope).foldr (fun child total => unfolding graph room child + total) 1

/-- How many visits a stack causes. -/
def visits (graph : Scope.Graph) (stack : List Pending) : Nat :=
  stack.foldr (fun pending total => unfolding graph pending.room pending.scope + total) 0

@[simp] theorem visits_cons (graph : Scope.Graph) (pending : Pending) (stack : List Pending) :
    visits graph (pending :: stack) =
      unfolding graph pending.room pending.scope + visits graph stack := rfl

@[simp] theorem visits_append (graph : Scope.Graph) (stack rest : List Pending) :
    visits graph (stack ++ rest) = visits graph stack + visits graph rest := by
  induction stack with
  | nil => simp [visits]
  | cons pending stack ih => simp [ih, Nat.add_assoc]

/-- Opening a namespace uses up one visit. -/
theorem visits_children (graph : Scope.Graph) (scope : Scope.Id) (depth room : Nat) :
    visits graph (children graph scope depth room) + 1 = unfolding graph (room + 1) scope := by
  unfold children unfolding
  induction graph.childNamespaces scope with
  | nil => rfl
  | cons child rest ih =>
    rw [List.map_cons, visits_cons, List.foldr_cons, ← ih]
    exact Nat.add_assoc _ _ _

end Pending

/-- The namespaces reached from a stack, in the order they are visited. -/
def search (graph : Scope.Graph) : List Pending → List (Scope.Id × Nat)
  | [] => []
  | ⟨_, _, 0⟩ :: rest => search graph rest
  | ⟨scope, depth, room + 1⟩ :: rest =>
    (scope, depth) :: search graph (Pending.children graph scope depth room ++ rest)
termination_by stack => Pending.visits graph stack
decreasing_by
  · simp [Pending.unfolding]
  · have opened := Pending.visits_children graph scope depth room
    simp only [Pending.visits_append, Pending.visits_cons, Nat.succ_eq_add_one]
    omega

/-- The namespaces to look into, with their distance from the place of use. -/
def namespacesElsewhere (graph : Scope.Graph) (start : Scope.Id) : List (Scope.Id × Nat) :=
  let around := graph.namespaceChain start
  around.zipIdx.flatMap fun (enclosing, level) =>
    search graph <| ((graph.childNamespaces enclosing).filter (!around.contains ·)).map
      fun child => ⟨child, rank (level + 1), Scope.Id.count⟩

def elsewhere (graph : Scope.Graph) (start : Scope.Id) : List Candidate :=
  firstOfEach <| (namespacesElsewhere graph start).flatMap fun (home, depth) =>
    declared graph (.elsewhere home) depth home

theorem elsewhere_nodup (graph : Scope.Graph) (start : Scope.Id) :
    ((elsewhere graph start).map symbol).Nodup := firstOfEach_nodup _

/-- A namespace is visited before its children, and those before what was waiting. -/
theorem search_cons (graph : Scope.Graph) (scope : Scope.Id) (depth room : Nat)
    (rest : List Pending) :
    search graph (⟨scope, depth, room + 1⟩ :: rest) =
      (scope, depth) :: search graph (Pending.children graph scope depth room ++ rest) := by
  rw [search]

end NearMiss.Candidate
