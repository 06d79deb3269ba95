import Mathlib.Data.List.Forall2
import NearMiss.Candidate.Elsewhere
import NearMiss.Correction.Wording

/-! The same names under other symbols.

Two lexicons that learned the same texts in different orders number them
differently. `SameText` pairs the symbols that stand for one text, and no symbol
is paired with two (`SameText.eq_iff`): what only compares symbols cannot tell the
lexicons apart. Graphs of one shape whose symbols are paired, place by place,
offer paired candidates in the same order. -/
namespace NearMiss

/-- The symbols stand for the same text, each in its own lexicon. -/
def Lexicon.SameText (here there : Lexicon) (a b : Symbol) : Prop :=
  ∃ text, here.text? a = some text ∧ there.text? b = some text

variable {here there : Lexicon}

instance (here there : Lexicon) (a b : Symbol) : Decidable (here.SameText there a b) :=
  decidable_of_iff ((here.text? a).isSome ∧ here.text? a = there.text? b) <| by
    simp only [Lexicon.SameText, Option.isSome_iff_exists]
    constructor
    · intro ⟨⟨text, spelled⟩, same⟩
      exact ⟨text, spelled, same ▸ spelled⟩
    · intro ⟨text, spelled, spelled'⟩
      exact ⟨⟨text, spelled⟩, spelled.trans spelled'.symm⟩

theorem Lexicon.SameText.eq_iff {a b a' b' : Symbol} (h : here.SameText there a b)
    (h' : here.SameText there a' b') : a = a' ↔ b = b' := by
  obtain ⟨text, ha, hb⟩ := h
  obtain ⟨text', ha', hb'⟩ := h'
  constructor
  · rintro rfl
    cases ha.symm.trans ha'
    exact text?_injective hb hb'
  · rintro rfl
    cases hb.symm.trans hb'
    exact text?_injective ha ha'

namespace Scope.Graph

/-- The graphs own the same scopes, nested in the same way. -/
structure SameShape (graph graph' : Graph) : Prop where
  kind_eq : graph.kind = graph'.kind
  parent_eq : graph.parent = graph'.parent
  childNamespaces_eq : graph.childNamespaces = graph'.childNamespaces

/-- The graphs differ at most in the symbols that stand for their names. -/
structure Alike (here there : Lexicon) (graph graph' : Graph) : Prop extends
    SameShape graph graph' where
  name : ∀ scope, Option.Rel (here.SameText there) (graph.name scope) (graph'.name scope)
  members : ∀ scope,
    List.Forall₂ (here.SameText there) (graph.members scope) (graph'.members scope)

variable {graph graph' : Graph}

theorem SameShape.climb_eq (h : graph.SameShape graph') (steps : Nat) (scope : Id) :
    graph.climb steps scope = graph'.climb steps scope := by
  induction steps generalizing scope with
  | zero => rfl
  | succ steps ih =>
    rw [climb, climb, ← h.parent_eq]
    cases graph.parent scope with
    | none => rfl
    | some outer => exact congrArg (scope :: ·) (ih outer)

theorem SameShape.chain_eq (h : graph.SameShape graph') (scope : Id) :
    graph.chain scope = graph'.chain scope := h.climb_eq _ scope

theorem SameShape.namespaceChain_eq (h : graph.SameShape graph') (scope : Id) :
    graph.namespaceChain scope = graph'.namespaceChain scope := by
  rw [namespaceChain, namespaceChain, h.chain_eq, h.kind_eq]

/-- The names around a scope are spelled alike. -/
theorem Alike.nameChain (h : graph.Alike here there graph') (scope : Id) :
    List.Forall₂ (here.SameText there) (graph.nameChain scope) (graph'.nameChain scope) := by
  rw [Graph.nameChain, Graph.nameChain, ← h.chain_eq]
  refine List.rel_reverse (List.rel_filterMap ?_ (List.forall₂_eq_eq_eq ▸ rfl))
  rintro outer _ rfl
  exact h.name outer

/-- The graph with other symbols in the places of its own. -/
def rename (graph : Graph) (f : Symbol → Symbol) : Graph :=
  { graph with
    name := fun scope => (graph.name scope).map f
    members := fun scope => (graph.members scope).map f }

/-- A graph is like what it is renamed to, if every symbol goes to one of the same text. -/
theorem alike_rename {f : Symbol → Symbol}
    (names : ∀ scope symbol, graph.name scope = some symbol →
      here.SameText there symbol (f symbol))
    (members : ∀ scope, ∀ symbol ∈ graph.members scope,
      here.SameText there symbol (f symbol)) :
    graph.Alike here there (graph.rename f) where
  kind_eq := rfl
  parent_eq := rfl
  childNamespaces_eq := rfl
  name := by
    intro scope
    rw [Graph.rename]
    dsimp only
    cases named : graph.name scope with
    | none => exact .none
    | some symbol => exact .some (names scope symbol named)
  members := by
    intro scope
    exact List.forall₂_map_right_iff.mpr (List.forall₂_same.mpr (members scope))

end Scope.Graph

/-- Origins in the same place. Headers are compared by their texts. -/
inductive Origin.Alike (here there : Lexicon) : Origin → Origin → Prop
  | enclosing : Alike here there .enclosing .enclosing
  | elsewhere (home : Scope.Id) : Alike here there (.elsewhere home) (.elsewhere home)
  | enumerator (enumeration : Scope.Id) :
      Alike here there (.enumerator enumeration) (.enumerator enumeration)
  | member (scope : Scope.Id) : Alike here there (.member scope) (.member scope)
  | header {a b : Symbol} (same : here.SameText there a b) :
      Alike here there (.header a) (.header b)

namespace Candidate

open Scope (Graph Id)

/-- Candidates that say the same. -/
structure Alike (here there : Lexicon) (a b : Candidate) : Prop where
  symbol : here.SameText there a.symbol b.symbol
  origin : a.origin.Alike here there b.origin
  depth_eq : a.depth = b.depth

/-- Lists of candidates that say the same, one for one. -/
abbrev ListsAlike (here there : Lexicon) : List Candidate → List Candidate → Prop :=
  List.Forall₂ (Alike here there)

/-- All the names have texts, on both sides. -/
theorem ListsAlike.spelled {candidates candidates' : List Candidate}
    (h : ListsAlike here there candidates candidates') :
    (∀ candidate ∈ candidates, ∃ text, here.text? candidate.symbol = some text) ∧
      ∀ candidate ∈ candidates', ∃ text, there.text? candidate.symbol = some text := by
  induction h with
  | nil => simp
  | cons alike _ ih =>
    obtain ⟨text, spelled, spelled'⟩ := alike.symbol
    exact ⟨List.forall_mem_cons.mpr ⟨⟨text, spelled⟩, ih.1⟩,
      List.forall_mem_cons.mpr ⟨⟨text, spelled'⟩, ih.2⟩⟩

/-- Of names that are paired, the same are seen for the first time. -/
theorem firstUnseen_alike {candidates candidates' : List Candidate}
    (h : ListsAlike here there candidates candidates') {seen seen' : Std.HashSet Symbol}
    (same : ∀ a b, here.SameText there a b → (a ∈ seen ↔ b ∈ seen')) :
    ListsAlike here there (firstUnseen seen candidates) (firstUnseen seen' candidates') := by
  induction h generalizing seen seen' with
  | nil => exact .nil
  | @cons head head' rest rest' alike _ ih =>
    rw [firstUnseen, firstUnseen]
    simp only [Std.HashSet.contains_iff_mem, same _ _ alike.symbol]
    split
    · exact ih same
    · refine .cons alike (ih fun a b paired => ?_)
      simp only [Std.HashSet.mem_insert, beq_iff_eq, alike.symbol.eq_iff paired, same a b paired]

theorem firstOfEach_alike {candidates candidates' : List Candidate}
    (h : ListsAlike here there candidates candidates') :
    ListsAlike here there (firstOfEach candidates) (firstOfEach candidates') :=
  firstUnseen_alike h (by simp)

/-- Lists of candidates from one place after another. -/
theorem firstOfEach_flatMap_alike {α : Type} (places : List α) {found found' : α → List Candidate}
    (alike : ∀ place, ListsAlike here there (found place) (found' place)) :
    ListsAlike here there (firstOfEach (places.flatMap found))
      (firstOfEach (places.flatMap found')) := by
  refine firstOfEach_alike ?_
  induction places with
  | nil => exact .nil
  | cons place rest ih => exact List.rel_append (alike place) ih

section Shape
variable {graph graph' : Graph}

theorem search_eq_of_sameShape (h : graph.SameShape graph') (stack : List Pending) :
    search graph stack = search graph' stack := by
  induction stack using search.induct graph with
  | case1 => rw [search, search]
  | case2 scope depth rest ih =>
    rw [search, search]
    exact ih
  | case3 scope depth room rest ih =>
    rw [search_cons, search_cons, ih, Pending.children, Pending.children, h.childNamespaces_eq]

/-- Where the search goes depends on the shape of the graph only. -/
theorem namespacesElsewhere_eq_of_sameShape (h : graph.SameShape graph') (start : Id) :
    namespacesElsewhere graph start = namespacesElsewhere graph' start := by
  unfold namespacesElsewhere
  rw [h.namespaceChain_eq, h.childNamespaces_eq]
  dsimp only
  apply congrArg (List.flatMap · _)
  funext (enclosing, level)
  exact search_eq_of_sameShape h _

end Shape

/-! ### What alike graphs offer -/

section Graphs
variable {graph graph' : Graph} (h : graph.Alike here there graph')
include h

theorem declared_alike {origin : Origin} (place : origin.Alike here there origin) (depth : Nat)
    (scope : Id) : ListsAlike here there (declared graph origin depth scope)
      (declared graph' origin depth scope) :=
  List.rel_map (fun _ _ same => ⟨same, place, rfl⟩) (h.members scope)

theorem enclosing_alike (start : Id) :
    ListsAlike here there (enclosing graph start) (enclosing graph' start) := by
  rw [enclosing, enclosing, ← h.chain_eq]
  exact firstOfEach_flatMap_alike _ fun (scope, _) => declared_alike h .enclosing _ scope

theorem elsewhere_alike (start : Id) :
    ListsAlike here there (elsewhere graph start) (elsewhere graph' start) := by
  rw [elsewhere, elsewhere, ← namespacesElsewhere_eq_of_sameShape h.toSameShape]
  exact firstOfEach_flatMap_alike _ fun (home, _) => declared_alike h (.elsewhere home) _ home

theorem members_alike (scope : Id) :
    ListsAlike here there (members graph scope) (members graph' scope) :=
  firstOfEach_alike (declared_alike h (.member scope) _ _)

theorem enumerators_alike (enumeration : Id) :
    ListsAlike here there (enumerators graph enumeration) (enumerators graph' enumeration) :=
  firstOfEach_alike (declared_alike h (.enumerator enumeration) _ _)

end Graphs

end Candidate

end NearMiss
