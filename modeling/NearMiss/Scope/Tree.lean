import NearMiss.Fault

/-! Scopes kept in one array.

A tree starts as the global namespace and grows by opening scopes in scopes it
owns and by declaring names in them; a scope's handle is its place in the array,
so a parent always has a smaller handle than its children. A step that names a
scope the tree does not own is refused and changes nothing. -/
namespace NearMiss.Scope

namespace Tree

structure Record where
  kind : Kind
  parent : Option Id
  name : Option Symbol
  members : Array Symbol
  namespaces : Array Id
deriving DecidableEq

end Tree

structure Tree where
  records : Array Tree.Record
deriving DecidableEq

namespace Tree

/-- The tree of the global namespace alone. -/
def empty : Tree := ⟨#[⟨.namespaceBody, none, none, #[], #[]⟩]⟩

/-- The global namespace. -/
def root : Id := ⟨0⟩

def size (tree : Tree) : Nat := tree.records.size

def isEmpty (tree : Tree) : Bool := tree.records.isEmpty

def record? (tree : Tree) (scope : Id) : Option Record := tree.records[scope.index]?

/-- The handle of the scope that is opened next. -/
def nextId (tree : Tree) : Id := ⟨UInt32.ofNat (min tree.size (Id.count - 1))⟩

/-- Opens a scope. A namespace is also entered among its parent's namespaces. -/
def openScope (tree : Tree) (parent : Id) (kind : Kind) (name : Option Symbol) :
    Except Fault (Id × Tree) :=
  if parent.index < tree.size then
    let records := tree.records.push ⟨kind, some parent, name, #[], #[]⟩
    let adopt := fun record : Record =>
      { record with namespaces := record.namespaces.push tree.nextId }
    .ok (tree.nextId, ⟨if kind = .namespaceBody then records.modify parent.index adopt else records⟩)
  else .error (.foreignParent parent)

/-- Declares a name in a scope. A name declared before keeps its place. -/
def declare (tree : Tree) (scope : Id) (name : Symbol) : Except Fault Tree :=
  if scope.index < tree.size then
    let enter := fun record : Record =>
      if name ∈ record.members then record
      else { record with members := record.members.push name }
    .ok ⟨tree.records.modify scope.index enter⟩
  else .error (.foreignScope scope)

/-- Declares names in order; no names can be declared anywhere. -/
def declareAll (tree : Tree) (scope : Id) (names : List Symbol) : Except Fault Tree :=
  names.foldlM (·.declare scope ·) tree

/-- The tree's answers. A scope it does not own has no kind and nothing in it. -/
def graph (tree : Tree) : Graph where
  kind scope := (tree.record? scope).map (·.kind)
  parent scope := (tree.record? scope).bind (·.parent)
  name scope := (tree.record? scope).bind (·.name)
  members scope := (tree.record? scope).elim [] (·.members.toList)
  childNamespaces scope := (tree.record? scope).elim [] (·.namespaces.toList)

/-! ### What is owned -/

theorem contains_graph_iff {tree : Tree} {scope : Id} :
    tree.graph.contains scope = true ↔ scope.index < tree.size := by
  simp [Graph.contains, graph, record?, size]

theorem openScope_of_foreign {tree : Tree} {parent : Id} (h : tree.size ≤ parent.index)
    (kind : Kind) (name : Option Symbol) :
    tree.openScope parent kind name = .error (.foreignParent parent) :=
  if_neg (Nat.not_lt.mpr h)

theorem declare_of_foreign {tree : Tree} {scope : Id} (h : tree.size ≤ scope.index)
    (name : Symbol) : tree.declare scope name = .error (.foreignScope scope) :=
  if_neg (Nat.not_lt.mpr h)

theorem size_declare {tree tree' : Tree} {scope : Id} {name : Symbol}
    (h : tree.declare scope name = .ok tree') : tree'.size = tree.size := by
  unfold declare at h
  split at h
  · cases h
    simp [size]
  · cases h

theorem size_openScope {tree tree' : Tree} {parent opened : Id} {kind : Kind}
    {name : Option Symbol} (h : tree.openScope parent kind name = .ok (opened, tree')) :
    tree'.size = tree.size + 1 ∧ opened = tree.nextId := by
  unfold openScope at h
  split at h
  · cases h
    constructor
    · unfold size
      dsimp only
      split <;> simp
    · rfl
  · cases h

end Tree

end NearMiss.Scope
