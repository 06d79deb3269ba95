import NearMiss.Symbol

/-! Scopes, as the code that resolves names sees them.

A `Graph` answers five questions about a scope and promises nothing about how
the answers fit together: members may repeat, and handles may lead to scopes
the graph does not own. `chain` is the walk outwards through enclosing scopes.
There are `Id.count` handles, so a walk that meets no scope twice takes at most
that many steps; the walk is given exactly as many and ends by itself on every
graph whose parents form no circle. -/
namespace NearMiss.Scope

structure Id where
  raw : UInt32
deriving DecidableEq, Hashable

namespace Id

/-- How many handles there are. -/
def count : Nat := 4294967296

def index (id : Id) : Nat := id.raw.toNat

theorem index_lt (id : Id) : id.index < count := id.raw.toNat_lt

theorem index_injective {a b : Id} (h : a.index = b.index) : a = b := by
  obtain ⟨a⟩ := a
  obtain ⟨b⟩ := b
  exact congrArg mk (UInt32.toNat_inj.mp h)

end Id

/-- The kinds of declarative region. An unscoped enumeration declares its
enumerators in the enclosing scope as well; a scoped one keeps them to itself. -/
inductive Kind where
  | block
  | function
  | classBody
  | namespaceBody
  | unscopedEnumeration
  | scopedEnumeration
deriving DecidableEq

structure Graph where
  /-- What a scope is, for scopes the graph owns. -/
  kind : Id → Option Kind
  /-- The enclosing scope; the global namespace has none. -/
  parent : Id → Option Id
  /-- The name a scope was declared under; anonymous scopes have none. -/
  name : Id → Option Symbol
  /-- The names declared directly in a scope, in a stable order. -/
  members : Id → List Symbol
  /-- The namespaces declared directly in a scope, in a stable order. -/
  childNamespaces : Id → List Id

namespace Graph

def contains (graph : Graph) (scope : Id) : Bool := (graph.kind scope).isSome

/-- The first scopes met on the way outwards. -/
def climb (graph : Graph) : Nat → Id → List Id
  | 0, _ => []
  | steps + 1, scope =>
    match graph.parent scope with
    | none => [scope]
    | some outer => scope :: climb graph steps outer

/-- A scope and everything that encloses it, innermost first. -/
def chain (graph : Graph) (scope : Id) : List Id := graph.climb Id.count scope

/-- The namespaces among them. -/
def namespaceChain (graph : Graph) (scope : Id) : List Id :=
  (graph.chain scope).filter fun enclosing => graph.kind enclosing == some .namespaceBody

/-- A scope with nothing around it is its own chain. -/
theorem chain_of_outermost {graph : Graph} {scope : Id} (h : graph.parent scope = none) :
    graph.chain scope = [scope] := by
  simp [chain, Id.count, climb, h]

end Graph

end NearMiss.Scope
