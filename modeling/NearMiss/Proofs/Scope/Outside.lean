import NearMiss.Proofs.Scope.Route

/-! Outlying namespaces, seen from where they are.

A route goes inwards from a namespace around the place of use. Gone backwards it
is a way outwards through namespaces, and `outside_iff` says that this way is all
there is to it: a namespace is outlying exactly if it is not around the place of
use but the scopes outwards from it are namespaces up to one that is. -/
namespace NearMiss.Scope.Graph

/-- Not around `start`, but all namespaces outwards up to a scope that is. -/
structure Outside (graph : Graph) (start home : Id) : Prop where
  off : ¬graph.Around start home
  climbs : ∃ steps outer, graph.ancestor steps home = some outer ∧ graph.Around start outer ∧
    ∀ k ≤ steps, ∀ between, graph.ancestor k home = some between →
      graph.kind between = some .namespaceBody

variable {graph : Graph} {start home : Id}

theorem Outside.kind_eq (h : graph.Outside start home) :
    graph.kind home = some .namespaceBody := by
  obtain ⟨_, _, _, _, spaces⟩ := h.climbs
  exact spaces 0 (Nat.zero_le _) home rfl

theorem Outside.exists_parent (h : graph.Outside start home) :
    ∃ outer, graph.parent home = some outer := by
  obtain ⟨steps, outer, way, around, _⟩ := h.climbs
  cases steps with
  | zero =>
    cases way
    exact absurd around h.off
  | succ steps =>
    obtain ⟨next, up, _⟩ := Option.bind_eq_some_iff.mp way
    exact ⟨next, up⟩

theorem getLastD_of_getLast? {path : List Id} (last : path.getLast? = some home) (outer : Id) :
    path.getLastD outer = home := by
  rw [List.getLastD_eq_getLast?, last, Option.getD_some]

theorem Nested.concat {outer : Id} {path : List Id} (nested : graph.Nested outer path)
    (up : graph.parent home = some (path.getLastD outer))
    (space : graph.kind home = some .namespaceBody) : graph.Nested outer (path ++ [home]) := by
  induction nested with
  | nil outer => exact .cons up space (.nil home)
  | cons first kind _ ih =>
    rw [List.getLastD_cons] at up
    exact .cons first kind (ih up)

/-- A path is the way outwards from its end. -/
theorem Nested.climb {outer : Id} {path : List Id} (nested : graph.Nested outer path) :
    graph.ancestor path.length (path.getLastD outer) = some outer ∧
      ∀ k < path.length, ∀ between, graph.ancestor k (path.getLastD outer) = some between →
        between ∈ path := by
  induction nested with
  | nil outer => exact ⟨rfl, fun k less => absurd less (Nat.not_lt_zero k)⟩
  | @cons outer inner path up space _ ih =>
    obtain ⟨way, met⟩ := ih
    rw [List.getLastD_cons, List.length_cons]
    constructor
    · rw [ancestor_succ, way]
      exact up
    · intro k less between here
      rcases Nat.lt_or_eq_of_le (Nat.le_of_lt_succ less) with less | rfl
      · exact List.mem_cons_of_mem _ (met k less between here)
      · cases way.symm.trans here
        exact List.mem_cons_self

/-- Two paths of one length that lead to the same place are the same. -/
theorem Nested.unique {outer outer' : Id} {path path' : List Id} (nested : graph.Nested outer path)
    (nested' : graph.Nested outer' path') (long : path.length = path'.length)
    (last : path.getLastD outer = path'.getLastD outer') : outer = outer' ∧ path = path' := by
  induction nested generalizing outer' path' with
  | nil outer =>
    cases nested' with
    | nil => exact ⟨last, rfl⟩
    | cons => cases long
  | cons up _ _ ih =>
    cases nested' with
    | nil => cases long
    | cons up' _ deeper' =>
      rw [List.getLastD_cons, List.getLastD_cons] at last
      obtain ⟨rfl, rfl⟩ := ih deeper' (Nat.succ.inj long) last
      exact ⟨Option.some.inj (up.symm.trans up'), rfl⟩

/-- Outwards from `home`, all through namespaces, the first scope around `start` is met after some
steps, and it is a namespace of some level there. -/
structure Meets (graph : Graph) (start home : Id) (level steps : Nat) : Prop where
  met : ∃ enclosing, graph.NamespaceAround start level enclosing ∧
    graph.ancestor steps home = some enclosing
  first : ∀ k < steps, ∀ between, graph.ancestor k home = some between →
    graph.kind between = some .namespaceBody ∧ ¬graph.Around start between

theorem Meets.outside {level steps : Nat} (meets : graph.Meets start home level steps)
    (off : ¬graph.Around start home) : graph.Outside start home := by
  obtain ⟨⟨enclosing, space, way⟩, first⟩ := meets
  refine ⟨off, steps, enclosing, way, space.around, fun k le between up => ?_⟩
  rcases Nat.lt_or_eq_of_le le with less | rfl
  · exact (first k less between up).1
  · cases way.symm.trans up
    exact space.kind_eq

theorem Route.meets {level : Nat} {path : List Id} (route : graph.Route start level path)
    (last : path.getLast? = some home) : graph.Meets start home level path.length := by
  have apart : ∀ inner ∈ path, ¬graph.Around start inner := fun _ => route.not_around
  obtain ⟨space, -, nested⟩ := route
  obtain ⟨way, met⟩ := nested.climb
  rw [getLastD_of_getLast? last] at way met
  refine ⟨⟨_, space, way⟩, fun k less between up => ?_⟩
  have on := met k less between up
  exact ⟨nested.kind_of_mem on, apart _ on⟩

theorem Route.outside {level : Nat} {path : List Id} (route : graph.Route start level path)
    (last : path.getLast? = some home) : graph.Outside start home :=
  (route.meets last).outside (route.not_around (List.mem_of_getLast? last))

section Grounded
variable (ends : graph.Grounded start)
include ends

theorem Meets.unique {level level' steps steps' : Nat} (meets : graph.Meets start home level steps)
    (meets' : graph.Meets start home level' steps') : level = level' ∧ steps = steps' := by
  obtain ⟨⟨enclosing, space, way⟩, first⟩ := meets
  obtain ⟨⟨enclosing', space', way'⟩, first'⟩ := meets'
  have same : steps = steps' := by
    rcases Nat.lt_trichotomy steps steps' with less | same | more
    · exact absurd space.around (first' steps less enclosing way).2
    · exact same
    · exact absurd space'.around (first steps' more enclosing' way').2
  subst same
  cases way.symm.trans way'
  exact ⟨space.unique ends space', rfl⟩

/-- No two routes lead to the same place. -/
theorem Route.unique {level level' : Nat} {path path' : List Id}
    (route : graph.Route start level path) (last : path.getLast? = some home)
    (route' : graph.Route start level' path') (last' : path'.getLast? = some home) :
    level = level' ∧ path = path' := by
  obtain ⟨same, long⟩ := (route.meets last).unique ends (route'.meets last')
  obtain ⟨_, _, nested⟩ := route
  obtain ⟨_, _, nested'⟩ := route'
  refine ⟨same, (nested.unique nested' long ?_).2⟩
  rw [getLastD_of_getLast? last, getLastD_of_getLast? last']

end Grounded

/-- Going outwards ends on a route, which leads back. -/
theorem exists_route_of_climb (steps : Nat) {outer : Id} (off : ¬graph.Around start home)
    (way : graph.ancestor steps home = some outer) (around : graph.Around start outer)
    (spaces : ∀ k ≤ steps, ∀ between, graph.ancestor k home = some between →
      graph.kind between = some .namespaceBody) :
    ∃ level path, graph.Route start level path ∧ path.getLast? = some home := by
  induction steps generalizing home with
  | zero =>
    cases way
    exact absurd around off
  | succ steps ih =>
    obtain ⟨next, up, rest⟩ := Option.bind_eq_some_iff.mp way
    have space := spaces 0 (Nat.zero_le _) home rfl
    have outwards : ∀ k ≤ steps, ∀ between, graph.ancestor k next = some between →
        graph.kind between = some .namespaceBody := by
      intro k le between here
      refine spaces (k + 1) (Nat.succ_le_succ le) between ?_
      rw [ancestor, up]
      exact here
    by_cases back : graph.Around start next
    · obtain ⟨level, here⟩ := back.exists_level (outwards 0 (Nat.zero_le _) next rfl)
      exact ⟨level, [home], .mk here off (.cons up space (.nil home)), rfl⟩
    · obtain ⟨level, path, ⟨here, first, nested⟩, last⟩ := ih back rest outwards
      rename_i enclosing begin path
      have further : graph.Nested enclosing ((begin :: path) ++ [home]) :=
        nested.concat (by rw [getLastD_of_getLast? last, up]) space
      refine ⟨level, begin :: (path ++ [home]), .mk here first further, ?_⟩
      rw [← List.cons_append]
      exact List.getLast?_concat

/-- The two views of an outlying namespace agree. -/
theorem outside_iff : graph.Outside start home ↔ ∃ steps, graph.Outlying start home steps := by
  constructor
  · intro ⟨off, steps, outer, way, around, spaces⟩
    obtain ⟨level, path, route, last⟩ := exists_route_of_climb steps off way around spaces
    exact ⟨_, level, path, route, last, rfl⟩
  · intro ⟨_, level, path, route, last, _⟩
    exact route.outside last

/-- How far away an outlying namespace is, seen from where it is. -/
theorem outlying_iff (ends : graph.Grounded start) {steps : Nat} :
    graph.Outlying start home steps ↔ ¬graph.Around start home ∧
      ∃ level climbed, graph.Meets start home level climbed ∧ steps = level + climbed := by
  constructor
  · intro ⟨level, path, route, last, far⟩
    exact ⟨route.not_around (List.mem_of_getLast? last), level, path.length, route.meets last, far⟩
  · intro ⟨off, level, climbed, meets, far⟩
    obtain ⟨_, level', path, route, last, _⟩ := outside_iff.mp (meets.outside off)
    obtain ⟨rfl, rfl⟩ := meets.unique ends (route.meets last)
    exact ⟨level, path, route, last, far⟩

end NearMiss.Scope.Graph
