import Mathlib.Data.Fintype.EquivFin
import NearMiss.Proofs.Scope.Ancestry

/-! The ways inwards.

A scope may list as its child namespaces whatever it likes: the same scope twice,
scopes that are no namespaces, that the graph does not own, or that lie around
it. If only no such list leads back to where one came from (`Acyclic`), every way
inwards ends (`Acyclic.wellFounded`), for there are `Id.count` scopes, and none
takes more steps than there are other scopes (`Acyclic.length_lt`). -/
namespace NearMiss.Scope

instance : Finite Id :=
  Finite.of_injective (fun id : Id => (⟨id.index, id.index_lt⟩ : Fin Id.count)) fun _ _ same =>
    Id.index_injective (Fin.mk.inj same)

namespace Graph
variable {graph : Graph}

/-- `inner` is listed among the child namespaces of `outer`. -/
def Listed (graph : Graph) (outer inner : Id) : Prop := inner ∈ graph.childNamespaces outer

/-- No scope is below itself. -/
def Acyclic (graph : Graph) : Prop := ∀ scope, ¬Relation.TransGen graph.Listed scope scope

/-- What is listed after what lists it forms no circle. -/
theorem acyclic_of_index_lt
    (older : ∀ outer inner, graph.Listed outer inner → outer.index < inner.index) :
    graph.Acyclic := by
  have below : ∀ {outer inner}, Relation.TransGen graph.Listed outer inner →
      outer.index < inner.index := by
    intro outer inner way
    induction way with
    | single listed => exact older _ _ listed
    | tail _ listed ih => exact Nat.lt_trans ih (older _ _ listed)
  exact fun scope circle => Nat.lt_irrefl _ (below circle)

section Acyclic
variable (acyclic : graph.Acyclic)
include acyclic

/-- Going inwards ends. -/
theorem Acyclic.wellFounded : WellFounded fun inner outer => graph.Listed outer inner := by
  let Below := fun inner outer => Relation.TransGen graph.Listed outer inner
  have : IsTrans Id Below := ⟨fun _ _ _ first second => second.trans first⟩
  have : Std.Irrefl Below := ⟨acyclic⟩
  have ends : WellFounded Below := Finite.wellFounded_of_trans_of_irrefl Below
  exact Subrelation.wf (fun listed => .single listed) ends

/-- A way inwards meets no scope twice. -/
theorem Acyclic.nodup {path : List Id} (way : path.IsChain graph.Listed) : path.Nodup := by
  have below : path.IsChain (Relation.TransGen graph.Listed) := way.imp fun _ _ => .single
  refine below.pairwise.imp fun step same => ?_
  exact acyclic _ (same ▸ step)

/-- It is no longer than there are handles. -/
theorem Acyclic.length_lt {scope : Id} {path : List Id}
    (way : (scope :: path).IsChain graph.Listed) : path.length < Id.count := by
  exact Id.length_le_of_index_lt (acyclic.nodup way) fun id _ => id.index_lt

end Acyclic

/-! ### A graph that keeps no promises -/

/-- Scope 4 lies in namespace 2 and that in namespace 0, whose children are listed twice or
unknown. Namespace 1, which has no parent, lists namespace 2 as well. Names are listed twice too. -/
def loose : Graph where
  kind scope := [.namespaceBody, .namespaceBody, .namespaceBody, .classBody, .block][scope.index]?
  parent scope := [none, none, some ⟨0⟩, none, some ⟨2⟩].getD scope.index none
  name _ := none
  members scope := [[⟨12⟩, ⟨11⟩], [⟨11⟩, ⟨12⟩, ⟨11⟩], [⟨12⟩, ⟨14⟩], [⟨12⟩, ⟨13⟩],
    [⟨13⟩, ⟨12⟩, ⟨13⟩]].getD scope.index []
  childNamespaces scope := [[⟨2⟩, ⟨1⟩, ⟨1⟩, ⟨9⟩], [⟨2⟩], [⟨3⟩]].getD scope.index []

theorem wayOut_loose : loose.WayOut ⟨4⟩ [⟨4⟩, ⟨2⟩, ⟨0⟩] := by
  intro level
  rcases level with _ | _ | _ | level <;> rfl

theorem acyclic_loose : loose.Acyclic := by
  refine acyclic_of_index_lt fun outer inner listed => ?_
  rcases place : outer.index with _ | _ | _ | further <;>
    simp [Listed, loose, place] at listed
  · rcases listed with rfl | rfl | rfl <;> decide
  · rw [listed]
    decide
  · rw [listed]
    decide

end Graph

end NearMiss.Scope
