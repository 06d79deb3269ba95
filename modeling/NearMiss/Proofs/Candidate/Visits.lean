import NearMiss.Proofs.Candidate.Walk
import NearMiss.Proofs.Scope.Outside

/-! The namespaces that the search for names elsewhere visits.

On a tree the search goes exactly the routes, and no two routes lead to the same
place. So it visits each outlying namespace once and nothing else, and what it
takes for the distance is counted outwards from the namespace itself: the steps to
the first scope around the place of use and then the levels from there
(`search_visits_outlying_once`). -/
namespace NearMiss.Candidate

open Scope (Graph Id Tree)

section Sound
variable {tree : Tree} (h : tree.Sound) {start : Id}
include h

/-- The search visits the ends of the routes, each as often as routes lead there: once. -/
theorem namespacesElsewhere_nodup :
    ((namespacesElsewhere tree.graph start).map Prod.fst).Nodup := by
  rw [namespacesElsewhere_eq, List.map_map]
  refine List.pairwise_map.mpr ((routes_sorted h start).imp_of_mem ?_)
  rintro ⟨level, path⟩ ⟨level', path'⟩ on on' earlier same
  have route := (mem_routes_iff h).mp on
  have route' := (mem_routes_iff h).mp on'
  obtain ⟨rfl, rfl⟩ := route.unique (h.grounded start) route.getLast?_eq route'
    (route'.getLast?_eq.trans (congrArg some same.symm))
  exact earlier.asymm earlier

theorem mem_namespacesElsewhere_iff (small : tree.size ≤ Id.count) (owned : start.index < tree.size)
    {home : Id} {depth : Nat} :
    (home, depth) ∈ namespacesElsewhere tree.graph start ↔
      tree.graph.Outlying start home depth := by
  rw [namespacesElsewhere_eq, List.mem_map]
  constructor
  · rintro ⟨⟨level, path⟩, on, made⟩
    have route := (mem_routes_iff h).mp on
    rw [rank_route h on owned small] at made
    cases made
    exact ⟨level, path, route, route.getLast?_eq, rfl⟩
  · rintro ⟨level, path, route, last, rfl⟩
    have on := (mem_routes_iff h).mpr route
    refine ⟨(level, path), on, ?_⟩
    rw [rank_route h on owned small]
    exact congrArg (·, level + path.length)
      (Option.some.inj (route.getLast?_eq.symm.trans last))

end Sound

/-- **The search visits each outlying namespace once, at its own distance.** No scope is visited
twice and none that is around the place of use; a scope is visited exactly if the way outwards from
it leads through namespaces to one that is. Its distance is the number of steps to the first of
those and of the levels from the place of use to there, and is never cut off. -/
theorem search_visits_outlying_once {tree : Tree} (made : tree.Made) (small : tree.size ≤ Id.count)
    {start : Id} (owned : start.index < tree.size) :
    ((namespacesElsewhere tree.graph start).map Prod.fst).Nodup ∧
    (∀ home, tree.graph.Around start home →
      home ∉ (namespacesElsewhere tree.graph start).map Prod.fst) ∧
    (∀ home, home ∈ (namespacesElsewhere tree.graph start).map Prod.fst ↔
      tree.graph.Outside start home) ∧
    (∀ home depth, (home, depth) ∈ namespacesElsewhere tree.graph start ↔
      ¬tree.graph.Around start home ∧
        ∃ level steps, tree.graph.Meets start home level steps ∧ depth = level + steps) ∧
    ∀ place ∈ namespacesElsewhere tree.graph start, place.2 < tree.size := by
  have h := made.sound small
  have ends := h.grounded start
  have visited : ∀ home, home ∈ (namespacesElsewhere tree.graph start).map Prod.fst ↔
      tree.graph.Outside start home := by
    intro home
    rw [Graph.outside_iff, List.mem_map]
    constructor
    · rintro ⟨⟨_, depth⟩, on, rfl⟩
      exact ⟨depth, (mem_namespacesElsewhere_iff h small owned).mp on⟩
    · rintro ⟨depth, outlying⟩
      exact ⟨_, (mem_namespacesElsewhere_iff h small owned).mpr outlying, rfl⟩
  refine ⟨namespacesElsewhere_nodup h, fun home around on => ?_, visited, fun home depth => ?_, ?_⟩
  · exact ((visited home).mp on).off around
  · rw [mem_namespacesElsewhere_iff h small owned, Graph.outlying_iff ends]
  · intro ⟨home, depth⟩ on
    obtain ⟨level, path, route, _, rfl⟩ := (mem_namespacesElsewhere_iff h small owned).mp on
    exact route.length_lt h owned

/-! ### A block beside a namespace -/

/-- A block in a class in a namespace, and beside that another namespace with one more inside. -/
def secluded : Tree :=
  Tree.empty.grow [
    .openScope Tree.root .namespaceBody none,
    .openScope ⟨1⟩ .classBody none,
    .openScope ⟨2⟩ .block none,
    .openScope Tree.root .namespaceBody none,
    .openScope ⟨4⟩ .namespaceBody none]

theorem sound_secluded : secluded.Sound := Tree.Made.sound ⟨_, rfl⟩ (by decide)

theorem route_secluded : secluded.graph.Route ⟨3⟩ 1 [⟨4⟩, ⟨5⟩] := by
  have level : secluded.graph.NamespaceAround ⟨3⟩ 1 Tree.root :=
    ⟨by decide +kernel, 3, by decide +kernel, by decide +kernel⟩
  have apart : ¬secluded.graph.Around ⟨3⟩ ⟨4⟩ :=
    mt (Graph.mem_chain_iff (sound_secluded.grounded _)).mpr (by decide +kernel)
  have nested : secluded.graph.Nested Tree.root [⟨4⟩, ⟨5⟩] :=
    .cons (by decide +kernel) (by decide +kernel)
      (.cons (by decide +kernel) (by decide +kernel) (.nil _))
  exact .mk level apart nested

/-- The inner namespace is three steps from the block: two steps outwards lead to the global
namespace, the fourth scope around the block but the second namespace. -/
theorem secluded_visited_once :
    secluded.Made ∧ secluded.size ≤ Id.count ∧ (⟨3⟩ : Id).index < secluded.size ∧
      secluded.graph.Meets ⟨3⟩ ⟨5⟩ 1 2 ∧ (⟨5⟩, 3) ∈ namespacesElsewhere secluded.graph ⟨3⟩ ∧
      secluded.graph.Outside ⟨3⟩ ⟨5⟩ := by
  have made : secluded.Made := ⟨_, rfl⟩
  have small : secluded.size ≤ Id.count := by decide
  have owned : (⟨3⟩ : Id).index < secluded.size := by decide
  have meets : secluded.graph.Meets ⟨3⟩ ⟨5⟩ 1 2 := route_secluded.meets rfl
  have off : ¬secluded.graph.Around ⟨3⟩ ⟨5⟩ := route_secluded.not_around (by decide)
  obtain ⟨_, _, outside, far, _⟩ := search_visits_outlying_once made small owned
  have visited := (far ⟨5⟩ 3).mpr ⟨off, 1, 2, meets, rfl⟩
  exact ⟨made, small, owned, meets, visited, (outside ⟨5⟩).mp (List.mem_map.mpr ⟨_, visited, rfl⟩)⟩

end NearMiss.Candidate
