import Mathlib.Data.List.Basic
import NearMiss.Proofs.Candidate.Alike
import NearMiss.Proofs.Candidate.Offer
import NearMiss.Proofs.Scope.Growth

/-! What a graph offers after it has grown.

A new scope has nothing in it. The search for names elsewhere may visit it, in
the midst of the others, but every scope that it visited before it still visits,
in the same order and as far away (`filter_search`), so what is offered does not
change. A new name is offered only where the scope that declares it is around the
place of use, and it may hide the same name farther out; all other names stay as
they are. -/
namespace NearMiss

open Scope (Graph Id Tree)

namespace Scope.Graph

/-- The second graph has one more scope, with nothing in it. -/
structure Gains (graph : Graph) (fresh : Id) (graph' : Graph) : Prop where
  kind_eq : ∀ scope, scope ≠ fresh → graph'.kind scope = graph.kind scope
  parent_eq : ∀ scope, scope ≠ fresh → graph'.parent scope = graph.parent scope
  members_eq : graph'.members = graph.members
  members_fresh : graph.members fresh = []
  childNamespaces_eq : ∀ scope,
    (graph'.childNamespaces scope).filter (· ≠ fresh) = graph.childNamespaces scope
  childNamespaces_fresh : graph'.childNamespaces fresh = []

variable {graph graph' : Graph} {fresh : Id}

theorem mem_climb_self (graph : Graph) (steps : Nat) (scope : Id) :
    scope ∈ graph.climb (steps + 1) scope := by
  rw [climb]
  split
  · exact List.mem_singleton_self scope
  · exact List.mem_cons_self

/-- A scope that is not around another one is not that one either. -/
theorem ne_of_not_mem_chain {start : Id} (apart : fresh ∉ graph.chain start) : start ≠ fresh :=
  fun same => apart (same ▸ mem_climb_self graph _ start)

theorem SameShape.ancestor_eq (h : graph.SameShape graph') (steps : Nat) (scope : Id) :
    graph.ancestor steps scope = graph'.ancestor steps scope := by
  induction steps generalizing scope with
  | zero => rfl
  | succ steps ih =>
    rw [ancestor, ancestor, ← h.parent_eq]
    exact congrArg _ (funext ih)

section Gains
variable (h : graph.Gains fresh graph') {start : Id}
include h

theorem Gains.climb_eq {steps : Nat} (apart : fresh ∉ graph.climb steps start) :
    graph'.climb steps start = graph.climb steps start := by
  induction steps generalizing start with
  | zero => rfl
  | succ steps ih =>
    have older : start ≠ fresh := fun same => apart (same ▸ mem_climb_self graph steps start)
    rw [climb] at apart ⊢
    rw [climb, h.parent_eq start older]
    cases up : graph.parent start with
    | none => rfl
    | some outer =>
      rw [up] at apart
      exact congrArg (start :: ·) (ih fun around => apart (List.mem_cons_of_mem _ around))

/-- The way outwards does not lead through a scope that was not there. -/
theorem Gains.chain_eq (apart : fresh ∉ graph.chain start) :
    graph'.chain start = graph.chain start := h.climb_eq apart

theorem Gains.namespaceChain_eq (apart : fresh ∉ graph.chain start) :
    graph'.namespaceChain start = graph.namespaceChain start := by
  rw [namespaceChain, namespaceChain, h.chain_eq apart]
  refine List.filter_congr fun outer around => ?_
  have older : outer ≠ fresh := fun same => apart (same ▸ around)
  rw [h.kind_eq outer older]

end Gains

end Scope.Graph

section OpenScope
variable {tree grown : Tree} (h : Tree.Sound tree) {parent opened : Id} {kind : Scope.Kind}
  {name : Option Symbol} (step : tree.openScope parent kind name = .ok (opened, grown))
  (room : tree.size < Id.count)
include h step room

/-- What an accepted scope does to a graph. -/
theorem Scope.Tree.gains_openScope : tree.graph.Gains opened grown.graph := by
  have answers := graph_openScope step room
  have absent : tree.record? opened = none := record?_opened step room
  have empty : tree.graph.childNamespaces opened = [] := by simp [graph, absent]
  have others : ∀ scope, (tree.graph.childNamespaces scope).filter (· ≠ opened) =
      tree.graph.childNamespaces scope := by
    intro scope
    refine List.filter_eq_self.mpr fun child listed => ?_
    have up := ((h.mem_childNamespaces scope child).mp listed).1
    simpa using ne_opened step room (owned_of_parent up)
  refine ⟨fun scope older => ?_, fun scope older => ?_, ?_, ?_, fun scope => ?_, ?_⟩
  · rw [answers]
    exact if_neg older
  · rw [answers]
    exact if_neg older
  · rw [answers]
  · simp [graph, absent]
  · rw [answers]
    dsimp only
    split
    · rw [List.filter_append, others, List.filter_cons_of_neg (by simp), List.filter_nil,
        List.append_nil]
    · exact others scope
  · have older : parent ≠ opened := ne_opened step room (parent_owned step)
    rw [answers]
    exact (if_neg fun new => older new.1.symm).trans empty

/-- No scope that was there is inside the new one. -/
theorem Scope.Tree.opened_not_mem_chain {scope : Id} (owned : scope.index < tree.size) :
    opened ∉ tree.graph.chain scope := fun around =>
  ne_opened step room (h.owned_of_mem_chain owned around) rfl

end OpenScope

namespace Candidate

/-! ### A new scope -/

/-- What contributes nothing may be left out. -/
theorem flatMap_filter {α β : Type} {kept : α → Bool} {f : α → List β}
    (nothing : ∀ a, kept a = false → f a = []) (list : List α) :
    (list.filter kept).flatMap f = list.flatMap f := by
  induction list with
  | nil => rfl
  | cons a rest ih =>
    cases stays : kept a with
    | true => rw [List.filter_cons_of_pos stays, List.flatMap_cons, List.flatMap_cons, ih]
    | false =>
      rw [List.filter_cons_of_neg (by simp [stays]), List.flatMap_cons, nothing a stays,
        List.nil_append, ih]

section Gains
variable {graph graph' : Graph} {fresh : Id} (h : graph.Gains fresh graph')
include h

theorem declared_gains : declared graph' = declared graph := by
  funext origin depth scope
  rw [declared, declared, h.members_eq]

/-- The new scope apart, the search goes where it went before. -/
theorem filter_search (stack : List Pending) :
    (search graph' stack).filter (·.1 ≠ fresh) =
      search graph (stack.filter (·.scope ≠ fresh)) := by
  induction stack using search.induct graph' with
  | case1 => rw [search, List.filter_nil, List.filter_nil, search]
  | case2 scope depth rest ih =>
    rw [search, ih]
    by_cases new : scope = fresh
    · rw [List.filter_cons_of_neg (by simpa using new)]
    · rw [List.filter_cons_of_pos (by simpa using new), search]
  | case3 scope depth room rest ih =>
    rw [search_cons]
    by_cases new : scope = fresh
    · have empty : Pending.children graph' scope depth room = [] := by
        rw [Pending.children, new, h.childNamespaces_fresh, List.map_nil]
      rw [empty, List.nil_append] at ih ⊢
      rw [List.filter_cons_of_neg (by simpa using new), ih,
        List.filter_cons_of_neg (by simpa using new)]
    · have children : (Pending.children graph' scope depth room).filter (·.scope ≠ fresh) =
          Pending.children graph scope depth room := by
        rw [Pending.children, Pending.children, List.filter_map, ← h.childNamespaces_eq scope]
        rfl
      rw [List.filter_cons_of_pos (by simpa using new), ih, List.filter_append, children,
        List.filter_cons_of_pos (by simpa using new), search_cons]

variable {start : Id} (apart : fresh ∉ graph.chain start)
include apart

theorem filter_namespacesElsewhere :
    (namespacesElsewhere graph' start).filter (·.1 ≠ fresh) = namespacesElsewhere graph start := by
  unfold namespacesElsewhere
  rw [h.namespaceChain_eq apart]
  dsimp only
  rw [List.filter_flatMap]
  apply congrArg (List.flatMap · _)
  funext (enclosing, level)
  rw [filter_search h, List.filter_map, ← h.childNamespaces_eq enclosing, List.filter_comm]
  rfl

theorem enclosing_gains : enclosing graph' start = enclosing graph start := by
  rw [enclosing, enclosing, h.chain_eq apart, declared_gains h]

/-- What the search visits anew offers nothing. -/
theorem elsewhere_gains : elsewhere graph' start = elsewhere graph start := by
  rw [elsewhere, elsewhere, ← filter_namespacesElsewhere h apart, declared_gains h]
  apply congrArg firstOfEach
  refine (flatMap_filter (fun place new => ?_) _).symm
  have home : place.1 = fresh := by simpa using new
  show (graph.members place.1).map _ = []
  rw [home, h.members_fresh, List.map_nil]

end Gains

/-! ### A new name -/

/-- Dropping names that turned up before does not change which comes first of some names. -/
theorem find?_firstUnseen {wanted : Symbol → Bool} {seen : Std.HashSet Symbol}
    (unwanted : ∀ symbol ∈ seen, wanted symbol = false) (candidates : List Candidate) :
    (firstUnseen seen candidates).find? (wanted ·.symbol) =
      candidates.find? (wanted ·.symbol) := by
  induction candidates generalizing seen with
  | nil => rfl
  | cons candidate rest ih =>
    rw [firstUnseen]
    cases here : wanted candidate.symbol with
    | true =>
      have unseen : seen.contains candidate.symbol = false := by
        rw [Bool.eq_false_iff]
        intro known
        rw [unwanted _ (Std.HashSet.mem_iff_contains.mpr known)] at here
        cases here
      rw [unseen, if_neg Bool.false_ne_true, List.find?_cons_of_pos (by exact here),
        List.find?_cons_of_pos (by exact here)]
    | false =>
      have later : (candidate :: rest).find? (wanted ·.symbol) = rest.find? (wanted ·.symbol) :=
        List.find?_cons_of_neg (by simp [here])
      rw [later]
      split
      · exact ih unwanted
      · rw [List.find?_cons_of_neg (by simp [here])]
        refine ih fun symbol known => ?_
        rcases Std.HashSet.mem_insert.mp known with same | known
        · rw [← beq_iff_eq.mp same]
          exact here
        · exact unwanted symbol known

theorem find?_firstOfEach (wanted : Symbol → Bool) (candidates : List Candidate) :
    (firstOfEach candidates).find? (wanted ·.symbol) = candidates.find? (wanted ·.symbol) :=
  find?_firstUnseen (by simp) candidates

section Declare
variable {tree grown : Tree} {home : Id} {name : Symbol}
  (step : tree.declare home name = .ok grown)
include step

theorem sameShape_declare : tree.graph.SameShape grown.graph := by
  rw [Tree.graph_declare step]
  exact ⟨rfl, rfl, rfl⟩

theorem members_declare_cases (scope : Id) :
    grown.graph.members scope = tree.graph.members scope ∨
      grown.graph.members scope = tree.graph.members scope ++ [name] := by
  rw [Tree.members_declare step]
  dsimp only
  split
  · exact .inr rfl
  · exact .inl rfl

/-- A declaration in a scope that is not around the place of use is not seen from there. -/
theorem enclosing_declare_of_not_mem {start : Id} (outside : home ∉ tree.graph.chain start) :
    enclosing grown.graph start = enclosing tree.graph start := by
  rw [enclosing, enclosing, ← (sameShape_declare step).chain_eq]
  refine congrArg firstOfEach (List.flatMap_congr fun place around => ?_)
  have apart : place.1 ≠ home := by
    intro same
    exact outside (same ▸ List.fst_mem_of_mem_zipIdx around)
  show (grown.graph.members place.1).map _ = (tree.graph.members place.1).map _
  rw [Tree.members_declare step]
  exact congrArg _ (if_neg fun new => apart new.1)

theorem declared_declare (origin : Origin) (depth : Nat) (scope : Id) :
    declared grown.graph origin depth scope = declared tree.graph origin depth scope ∨
      declared grown.graph origin depth scope =
        declared tree.graph origin depth scope ++ [⟨name, origin, depth⟩] := by
  rw [declared, declared]
  rcases members_declare_cases step scope with same | more
  · rw [same]
    exact .inl rfl
  · rw [more, List.map_append]
    exact .inr rfl

/-- Of some names the same comes first, or the new one does. -/
theorem find?_enclosing_declare (wanted : Symbol → Bool) (start : Id) :
    (enclosing grown.graph start).find? (wanted ·.symbol) =
        (enclosing tree.graph start).find? (wanted ·.symbol) ∨
      ∃ candidate, (enclosing grown.graph start).find? (wanted ·.symbol) = some candidate ∧
        candidate.symbol = name := by
  rw [enclosing, enclosing, find?_firstOfEach, find?_firstOfEach,
    ← (sameShape_declare step).chain_eq]
  generalize (tree.graph.chain start).zipIdx = places
  induction places with
  | nil => exact .inl rfl
  | cons place rest ih =>
    obtain ⟨scope, level⟩ := place
    rw [List.flatMap_cons, List.flatMap_cons, List.find?_append, List.find?_append]
    dsimp only
    rcases declared_declare step .enclosing (rank level) scope with same | more
    · rw [same]
      cases (declared tree.graph .enclosing (rank level) scope).find? (wanted ·.symbol) with
      | some first => exact .inl rfl
      | none => exact ih
    · rw [more, List.find?_append]
      cases (declared tree.graph .enclosing (rank level) scope).find? (wanted ·.symbol) with
      | some first => exact .inl rfl
      | none =>
        cases here : wanted name with
        | true =>
          rw [List.find?_cons_of_pos (by exact here)]
          exact .inr ⟨_, rfl, rfl⟩
        | false =>
          rw [List.find?_cons_of_neg (by simp [here])]
          exact ih

/-- What is visible after a declaration was visible before, or is the new name. -/
theorem visible_declare {start : Id} {candidate : Candidate}
    (visible : Visible grown.graph start candidate) :
    Visible tree.graph start candidate ∨ candidate.symbol = name := by
  obtain ⟨origin, scope, here, declared⟩ := visible
  rw [← (sameShape_declare step).ancestor_eq] at here
  rcases members_declare_cases step scope with same | more
  · exact .inl ⟨origin, scope, here, same ▸ declared⟩
  · rw [more, List.mem_append, List.mem_singleton] at declared
    exact declared.imp_left fun old => ⟨origin, scope, here, old⟩

/-- What was visible before a declaration still is. -/
theorem visible_declare_of_visible {start : Id} {candidate : Candidate}
    (visible : Visible tree.graph start candidate) : Visible grown.graph start candidate := by
  obtain ⟨origin, scope, here, declared⟩ := visible
  rw [(sameShape_declare step).ancestor_eq] at here
  refine ⟨origin, scope, here, ?_⟩
  rcases members_declare_cases step scope with same | more
  · rwa [same]
  · rw [more]
    exact List.mem_append_left _ declared

end Declare

end Candidate

end NearMiss
