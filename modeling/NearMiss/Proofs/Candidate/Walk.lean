import NearMiss.Candidate.Elsewhere
import NearMiss.Proofs.Candidate.Offer
import NearMiss.Proofs.Scope.Route

/-! The search for names elsewhere goes every route, in order.

`walk` is the search without its stack: a namespace and then, child by child,
what lies below it, each place as the path that leads there. `search_eq` says
that the stack changes nothing. On a tree the search goes exactly the routes
(`mem_routes_iff`), in the order of `Earlier` (`routes_sorted`), and no distance
is so large that it is cut off (`rank_route`). -/
namespace NearMiss.Candidate

open Scope (Graph Id)

/-- The paths down from a namespace, itself first. -/
def walk (graph : Graph) : Nat → Id → List (List Id)
  | 0, _ => []
  | room + 1, scope =>
    [] :: (graph.childNamespaces scope).flatMap fun child =>
      (walk graph room child).map (child :: ·)

/-- Where a path from a pending namespace leads, and how far away that is. -/
def Pending.visit (pending : Pending) (path : List Id) : Id × Nat :=
  (path.getLastD pending.scope, rank (pending.depth + path.length))

/-- The routes from a place of use, in the order they are gone. -/
def routes (graph : Graph) (start : Id) : List (Nat × List Id) :=
  (graph.namespaceChain start).zipIdx.flatMap fun (enclosing, level) =>
    ((graph.childNamespaces enclosing).filter (!(graph.namespaceChain start).contains ·)).flatMap
      fun child => (walk graph Id.count child).map fun path => (level, child :: path)

theorem rank_le (steps : Nat) : rank steps ≤ farthest := Nat.min_le_right _ _

theorem rank_rank_add (steps further : Nat) :
    rank (rank steps + further) = rank (steps + further) := by
  simp only [rank]
  omega

/-- A path on from a child is a path from the scope above, visited at the same distance. -/
theorem Pending.visit_cons (scope child : Id) (depth room room' : Nat) (path : List Id) :
    Pending.visit ⟨scope, depth, room⟩ (child :: path) =
      Pending.visit ⟨child, rank (depth + 1), room'⟩ path := by
  simp only [Pending.visit, List.getLastD_cons, List.length_cons]
  rw [rank_rank_add, Nat.add_assoc, Nat.add_comm 1]

/-! ### The stack -/

/-- The search goes through the pending namespaces one by one, each as if it were alone. -/
theorem search_eq (graph : Graph) (stack : List Pending)
    (near : ∀ pending ∈ stack, pending.depth ≤ farthest) :
    search graph stack =
      stack.flatMap fun pending => (walk graph pending.room pending.scope).map pending.visit := by
  induction stack using search.induct graph with
  | case1 => rw [search, List.flatMap_nil]
  | case2 scope depth rest ih =>
    rw [search, ih fun pending on => near pending (List.mem_cons_of_mem _ on)]
    rfl
  | case3 scope depth room rest ih =>
    have here : depth ≤ farthest := near _ List.mem_cons_self
    have below : (Pending.children graph scope depth room).flatMap
          (fun pending => (walk graph pending.room pending.scope).map pending.visit) =
        ((graph.childNamespaces scope).flatMap fun child =>
          (walk graph room child).map (child :: ·)).map
            (Pending.visit ⟨scope, depth, room + 1⟩) := by
      rw [Pending.children, List.flatMap_map, List.map_flatMap]
      apply congrArg (List.flatMap · _)
      funext child
      rw [List.map_map]
      exact List.map_congr_left fun path _ => (Pending.visit_cons ..).symm
    rw [search_cons, ih, List.flatMap_append, below, List.flatMap_cons, walk, List.map_cons,
      List.cons_append]
    · have first : Pending.visit ⟨scope, depth, room + 1⟩ [] = (scope, depth) :=
        congrArg (Prod.mk scope) (rank_of_le here)
      exact congrArg (List.cons · _) first.symm
    · intro pending on
      rcases List.mem_append.mp on with child | waiting
      · obtain ⟨_, _, rfl⟩ := List.mem_map.mp child
        exact rank_le _
      · exact near pending (List.mem_cons_of_mem _ waiting)

theorem namespacesElsewhere_eq (graph : Graph) (start : Id) :
    namespacesElsewhere graph start = (routes graph start).map fun route =>
      (route.2.getLastD start, rank (route.1 + route.2.length)) := by
  simp only [namespacesElsewhere, routes, List.map_flatMap, List.map_map]
  apply congrArg (List.flatMap · _)
  funext (enclosing, level)
  dsimp only
  rw [search_eq, List.flatMap_map]
  · apply congrArg (List.flatMap · _)
    funext child
    exact List.map_congr_left fun path _ => (Pending.visit_cons start child level 0 _ path).symm
  · intro pending on
    obtain ⟨_, _, rfl⟩ := List.mem_map.mp on
    exact rank_le _

/-! ### On a tree -/

section Sound
variable {tree : Scope.Tree} (h : tree.Sound)
include h

theorem mem_walk_iff {room : Nat} {scope : Id} {path : List Id} :
    path ∈ walk tree.graph room scope ↔ tree.graph.Nested scope path ∧ path.length < room := by
  induction room generalizing scope path with
  | zero => simp [walk]
  | succ room ih =>
    rw [walk, List.mem_cons, List.mem_flatMap]
    constructor
    · intro on
      rcases on with rfl | ⟨child, listed, below⟩
      · exact ⟨.nil scope, Nat.succ_pos room⟩
      · obtain ⟨rest, on, rfl⟩ := List.mem_map.mp below
        obtain ⟨nested, short⟩ := ih.mp on
        obtain ⟨up, space⟩ := (h.mem_childNamespaces scope child).mp listed
        exact ⟨.cons up space nested, Nat.succ_lt_succ short⟩
    · intro ⟨nested, short⟩
      cases nested with
      | nil => exact .inl rfl
      | @cons _ child rest up space nested =>
        refine .inr ⟨child, (h.mem_childNamespaces scope child).mpr ⟨up, space⟩, ?_⟩
        exact List.mem_map.mpr ⟨rest, ih.mpr ⟨nested, Nat.lt_of_succ_lt_succ short⟩, rfl⟩

theorem walk_sorted (room : Nat) (scope : Id) :
    (walk tree.graph room scope).Pairwise
      (List.Lex fun older younger => older.index < younger.index) := by
  induction room generalizing scope with
  | zero => exact .nil
  | succ room ih =>
    rw [walk, List.pairwise_cons, List.pairwise_flatMap]
    refine ⟨fun path below => ?_, fun child _ => ?_, ?_⟩
    · obtain ⟨child, _, on⟩ := List.mem_flatMap.mp below
      obtain ⟨rest, _, rfl⟩ := List.mem_map.mp on
      exact .nil
    · exact List.pairwise_map.mpr ((ih child).imp .cons)
    · refine (h.children_sorted scope).imp fun less path on other on' => ?_
      obtain ⟨_, _, rfl⟩ := List.mem_map.mp on
      obtain ⟨_, _, rfl⟩ := List.mem_map.mp on'
      exact .rel less

variable {start : Id}

theorem mem_routes_iff {level : Nat} {path : List Id} :
    (level, path) ∈ routes tree.graph start ↔ tree.graph.Route start level path := by
  have ends := h.grounded start
  constructor
  · intro on
    obtain ⟨⟨enclosing, _⟩, around, on⟩ := List.mem_flatMap.mp on
    obtain ⟨child, listed, on⟩ := List.mem_flatMap.mp on
    obtain ⟨_, below, made⟩ := List.mem_map.mp on
    cases made
    obtain ⟨listed, apart⟩ := List.mem_filter.mp listed
    obtain ⟨up, space⟩ := (h.mem_childNamespaces enclosing child).mp listed
    have level := (Graph.getElem?_namespaceChain_iff ends).mp
      (List.mem_zipIdx_iff_getElem?.mp around)
    refine .mk level (fun back => ?_) (.cons up space ((mem_walk_iff h).mp below).1)
    have both := Graph.mem_namespaceChain_iff.mpr ⟨(Graph.mem_chain_iff ends).mpr back, space⟩
    simp [both] at apart
  · intro route
    obtain ⟨here, off, _ | ⟨up, space, nested⟩⟩ := route
    rename_i enclosing child path
    refine List.mem_flatMap.mpr ⟨(enclosing, level), List.mem_zipIdx_iff_getElem?.mpr
      ((Graph.getElem?_namespaceChain_iff ends).mpr here), ?_⟩
    refine List.mem_flatMap.mpr ⟨child, List.mem_filter.mpr
      ⟨(h.mem_childNamespaces enclosing child).mpr ⟨up, space⟩, ?_⟩, ?_⟩
    · simpa using fun both => off
        ((Graph.mem_chain_iff ends).mp (Graph.mem_namespaceChain_iff.mp both).1)
    · refine List.mem_map.mpr ⟨path, (mem_walk_iff h).mpr ⟨nested, ?_⟩, rfl⟩
      have deep := nested.length_lt h
      omega

theorem routes_sorted (start : Id) :
    (routes tree.graph start).Pairwise Scope.Graph.Earlier := by
  rw [routes, List.pairwise_flatMap]
  constructor
  · intro ⟨enclosing, level⟩ _
    rw [List.pairwise_flatMap]
    constructor
    · intro child _
      exact List.pairwise_map.mpr
        ((walk_sorted h Id.count child).imp fun less => .inr ⟨rfl, .cons less⟩)
    · refine ((h.children_sorted enclosing).filter _).imp fun less route on other on' => ?_
      obtain ⟨_, _, rfl⟩ := List.mem_map.mp on
      obtain ⟨_, _, rfl⟩ := List.mem_map.mp on'
      exact .inr ⟨rfl, .rel less⟩
  · refine (zipIdx_sorted _).imp fun less route on other on' => ?_
    obtain ⟨_, _, on⟩ := List.mem_flatMap.mp on
    obtain ⟨_, _, rfl⟩ := List.mem_map.mp on
    obtain ⟨_, _, on'⟩ := List.mem_flatMap.mp on'
    obtain ⟨_, _, rfl⟩ := List.mem_map.mp on'
    exact .inl less

/-- There are fewer scopes than distances to tell apart. -/
theorem rank_route {route : Nat × List Id} (on : route ∈ routes tree.graph start)
    (owned : start.index < tree.size) (small : tree.size ≤ Id.count) :
    rank (route.1 + route.2.length) = route.1 + route.2.length := by
  have short := ((mem_routes_iff h).mp on).length_lt h owned
  refine rank_of_le (Nat.le_of_lt_succ (Nat.lt_of_lt_of_le short small))

end Sound

end NearMiss.Candidate
