import NearMiss.Proofs.Scope.Growth

/-! The namespaces that a place of use does not see into.

A route leads to one of them: it starts at a namespace around the place of use
and goes inwards, one namespace at a time, through namespaces that are not
around it. Read from its end it is the way outwards, through namespaces only, to
the first that is around the place of use. `Earlier` is the order in which
routes are gone: those from nearer namespaces first, each before the routes that
go on from it, and what was opened first before what was opened later. -/
namespace NearMiss.Scope

namespace Graph

/-- Namespaces each of which is declared directly in the one before it, the first in `outer`. -/
inductive Nested (graph : Graph) : Id → List Id → Prop
  | nil (outer : Id) : Nested graph outer []
  | cons {outer inner : Id} {path : List Id} : graph.parent inner = some outer →
      graph.kind inner = some .namespaceBody → Nested graph inner path →
      Nested graph outer (inner :: path)

/-- From a namespace around the place of use inwards, at once to one that is not. -/
inductive Route (graph : Graph) (start : Id) : Nat → List Id → Prop
  | mk {level : Nat} {enclosing first : Id} {path : List Id} :
      graph.NamespaceAround start level enclosing → ¬graph.Around start first →
      graph.Nested enclosing (first :: path) → Route graph start level (first :: path)

/-- A namespace that `start` does not see into, with its distance: one step for each namespace
around `start` before the one the route starts at and one for each level of nesting. -/
def Outlying (graph : Graph) (start home : Id) (steps : Nat) : Prop :=
  ∃ level path, graph.Route start level path ∧ path.getLast? = some home ∧
    steps = level + path.length

/-- The order in which routes are gone. -/
def Earlier (a b : Nat × List Id) : Prop :=
  a.1 < b.1 ∨ a.1 = b.1 ∧ List.Lex (fun older younger => older.index < younger.index) a.2 b.2

theorem Earlier.asymm {a b : Nat × List Id} (h : Earlier a b) : ¬Earlier b a := by
  intro back
  rcases h with less | ⟨same, before⟩
  · rcases back with more | ⟨same, _⟩
    · exact Nat.lt_asymm less more
    · exact Nat.ne_of_lt less same.symm
  · rcases back with more | ⟨_, after⟩
    · exact Nat.ne_of_lt more same.symm
    · exact List.lex_asymm (fun less => Nat.lt_asymm less) before after

theorem Nested.kind_of_mem {graph : Graph} {outer inner : Id} {path : List Id}
    (h : graph.Nested outer path) (on : inner ∈ path) :
    graph.kind inner = some .namespaceBody := by
  induction h with
  | nil => cases on
  | cons _ space _ ih =>
    rcases List.mem_cons.mp on with rfl | on
    · exact space
    · exact ih on

/-- A path that leaves what is around the place of use does not come back to it. -/
theorem Nested.not_around {graph : Graph} {start outer inner : Id} {path : List Id}
    (h : graph.Nested outer path) (off : ¬graph.Around start outer) (on : inner ∈ path) :
    ¬graph.Around start inner := by
  induction h with
  | nil => cases on
  | cons up _ _ ih =>
    have next := fun back : graph.Around start _ => off (back.parent up)
    rcases List.mem_cons.mp on with rfl | on
    · exact next
    · exact ih next on

theorem Route.getLast?_eq {graph : Graph} {start : Id} {level : Nat} {path : List Id}
    (route : graph.Route start level path) : path.getLast? = some (path.getLastD start) := by
  cases route
  rfl

/-- No namespace of a route is around the place of use. -/
theorem Route.not_around {graph : Graph} {start inner : Id} {level : Nat} {path : List Id}
    (route : graph.Route start level path) (on : inner ∈ path) : ¬graph.Around start inner := by
  obtain ⟨_, off, _ | ⟨_, _, deeper⟩⟩ := route
  rcases List.mem_cons.mp on with rfl | on
  · exact off
  · exact deeper.not_around off on

/-! ### In a tree -/

section Sound
variable {tree : Tree} (h : Tree.Sound tree)
include h

theorem Nested.sorted {outer : Id} {path : List Id} (nested : tree.graph.Nested outer path) :
    (outer :: path).Pairwise fun older younger => older.index < younger.index := by
  induction nested with
  | nil => exact List.pairwise_singleton _ _
  | @cons outer inner path up _ _ ih =>
    have older := h.parent_lt inner outer up
    refine List.pairwise_cons.mpr ⟨fun other on => ?_, ih⟩
    rcases List.mem_cons.mp on with rfl | on
    · exact older
    · exact Nat.lt_trans older ((List.pairwise_cons.mp ih).1 other on)

theorem Nested.nodup {outer : Id} {path : List Id} (nested : tree.graph.Nested outer path) :
    path.Nodup := by
  refine (List.pairwise_cons.mp (nested.sorted h)).2.imp fun less same => ?_
  exact Nat.ne_of_lt less (congrArg Id.index same)

/-- Nesting cannot go deeper than there are handles. -/
theorem Nested.length_lt {outer : Id} {path : List Id} (nested : tree.graph.Nested outer path) :
    outer.index + path.length < Id.count := by
  induction nested with
  | nil outer => exact outer.index_lt
  | @cons outer inner path up _ _ ih =>
    have older := h.parent_lt inner outer up
    rw [List.length_cons]
    omega

/-- Distances stay below the number of scopes: the namespaces around the place of use up to
the route's level and those of the route are all different. -/
theorem Route.length_lt {start : Id} {level : Nat} {path : List Id}
    (route : tree.graph.Route start level path) (owned : start.index < tree.size) :
    level + path.length < tree.size := by
  have ends := h.grounded start
  have outside : ∀ id ∈ path, id ∉ tree.graph.chain start := fun _ on =>
    mt (mem_chain_iff ends).mp (route.not_around on)
  obtain ⟨space, off, nested⟩ := route
  rename_i enclosing first path
  have bound : level < (tree.graph.namespaceChain start).length :=
    (List.getElem?_eq_some_iff.mp ((getElem?_namespaceChain_iff ends).mpr space)).1
  have around : ∀ id ∈ (tree.graph.namespaceChain start).take (level + 1),
      id ∈ tree.graph.chain start := fun id taken =>
    (mem_namespaceChain_iff.mp (List.mem_of_mem_take taken)).1
  have all : ((tree.graph.namespaceChain start).take (level + 1) ++ first :: path).Nodup := by
    refine List.nodup_append.mpr
      ⟨(namespaceChain_nodup ends).sublist (List.take_sublist _ _), nested.nodup h, ?_⟩
    intro id taken other on same
    exact outside other on (same ▸ around id taken)
  have inside : ∀ id ∈ (tree.graph.namespaceChain start).take (level + 1) ++ first :: path,
      id.index < tree.size := by
    intro id on
    rcases List.mem_append.mp on with taken | on
    · exact h.owned_of_mem_chain owned (around id taken)
    · exact Tree.owned_iff.mpr ⟨_, nested.kind_of_mem on⟩
  have fits := Id.length_le_of_index_lt all inside
  rw [List.length_append, List.length_take] at fits
  omega

end Sound

end Graph

end NearMiss.Scope
