import NearMiss.Proofs.Scope.Ancestry
import NearMiss.Scope.Tree

/-! How a tree grows.

A tree is made by edits, some of which it may refuse. `graph_openScope` and
`graph_declare` say what an accepted edit does to the answers of the tree, and
`grow_induction` that these two are all there is. From them comes `Sound`, what
every tree of at most `Id.count` scopes keeps: a parent is older than its
children, the root alone has none, and the namespaces entered in a scope are
those that have it for a parent. -/
namespace NearMiss.Scope.Tree

/-- What can be asked of a tree. -/
inductive Edit where
  | openScope (parent : Id) (kind : Kind) (name : Option Symbol)
  | declare (scope : Id) (name : Symbol)
  | declareAll (scope : Id) (names : List Symbol)
deriving DecidableEq

/-- The tree after an edit. One that is refused changes nothing. -/
def edit (tree : Tree) : Edit → Tree
  | .openScope parent kind name =>
    match tree.openScope parent kind name with
    | .ok (_, grown) => grown
    | .error _ => tree
  | .declare scope name =>
    match tree.declare scope name with
    | .ok grown => grown
    | .error _ => tree
  | .declareAll scope names =>
    match tree.declareAll scope names with
    | .ok grown => grown
    | .error _ => tree

/-- The tree after some edits. -/
def grow (tree : Tree) (edits : List Edit) : Tree := edits.foldl edit tree

/-- Some edits make this tree, from the global namespace alone. -/
def Made (tree : Tree) : Prop := ∃ edits, empty.grow edits = tree

variable {tree grown : Tree}

/-! ### What one step does -/

theorem record?_eq_none_iff {scope : Id} : tree.record? scope = none ↔ tree.size ≤ scope.index := by
  simp [record?, size]

theorem index_nextId (room : tree.size < Id.count) : tree.nextId.index = tree.size := by
  have least : min tree.size (Id.count - 1) = tree.size := Nat.min_eq_left (Nat.le_pred_of_lt room)
  rw [nextId, least]
  exact UInt32.toNat_ofNat_of_lt room

section OpenScope
variable {parent opened : Id} {kind : Kind} {name : Option Symbol}
  (step : tree.openScope parent kind name = .ok (opened, grown))
include step

theorem parent_owned : parent.index < tree.size := by
  rw [openScope] at step
  split at step
  · next owned => exact owned
  · cases step

theorem record?_openScope (room : tree.size < Id.count) (scope : Id) :
    grown.record? scope =
      if scope = opened then some ⟨kind, some parent, name, #[], #[]⟩
      else (tree.record? scope).map fun record =>
        if scope = parent ∧ kind = .namespaceBody then
          { record with namespaces := record.namespaces.push opened }
        else record := by
  have owned := parent_owned step
  rw [openScope, if_pos owned] at step
  cases step
  have next := index_nextId room
  have older : tree.nextId.index ≠ parent.index := by omega
  have same : ∀ other : Id, scope.index = other.index ↔ scope = other := fun other =>
    ⟨Id.index_injective, congrArg Id.index⟩
  have added : scope.index = tree.records.size ↔ scope = tree.nextId := by
    rw [← same, next]
    rfl
  by_cases fresh : scope = tree.nextId
  · have apart : ¬parent.index = tree.size := by omega
    subst fresh
    rw [record?, if_pos rfl, next]
    by_cases space : kind = .namespaceBody
    · rw [if_pos space, Array.getElem?_modify, if_neg apart]
      exact Array.getElem?_push_size
    · rw [if_neg space]
      exact Array.getElem?_push_size
  · have apart : ¬scope.index = tree.records.size := mt added.mp fresh
    have here : parent.index = scope.index ↔ scope = parent := by rw [eq_comm, same]
    simp only [record?, if_neg fresh]
    by_cases space : kind = .namespaceBody
    · rw [if_pos space]
      simp only [Array.getElem?_modify, Array.getElem?_push, if_neg apart, here, space, and_true]
      split <;> simp
    · rw [if_neg space, Array.getElem?_push, if_neg apart]
      simp [space]

section Room
variable (room : tree.size < Id.count)
include room

theorem record?_opened : tree.record? opened = none := by
  rw [record?_eq_none_iff, (size_openScope step).2, index_nextId room]

theorem kind_openScope : grown.graph.kind =
    fun scope => if scope = opened then some kind else tree.graph.kind scope := by
  funext scope
  show (grown.record? scope).map (·.kind) = _
  rw [record?_openScope step room]
  split
  · rfl
  · simp [graph, Function.comp_def, apply_ite Record.kind]

theorem parent_openScope : grown.graph.parent =
    fun scope => if scope = opened then some parent else tree.graph.parent scope := by
  funext scope
  show (grown.record? scope).bind (·.parent) = _
  rw [record?_openScope step room]
  split
  · rfl
  · simp [graph, Option.bind_map, apply_ite Record.parent]

theorem name_openScope : grown.graph.name =
    fun scope => if scope = opened then name else tree.graph.name scope := by
  funext scope
  show (grown.record? scope).bind (·.name) = _
  rw [record?_openScope step room]
  split
  · rfl
  · simp [graph, Option.bind_map, apply_ite Record.name]

/-- The new scope declares nothing. -/
theorem members_openScope : grown.graph.members = tree.graph.members := by
  funext scope
  show (grown.record? scope).elim [] (·.members.toList) = _
  rw [record?_openScope step room]
  split
  · next new => simp [graph, new, record?_opened step room]
  · cases old : tree.record? scope <;> simp [graph, old, apply_ite Record.members]

/-- A namespace is entered in its parent, which is not the new scope itself. -/
theorem childNamespaces_openScope : grown.graph.childNamespaces = fun scope =>
    if scope = parent ∧ kind = .namespaceBody then tree.graph.childNamespaces scope ++ [opened]
    else tree.graph.childNamespaces scope := by
  have owned : tree.record? parent ≠ none :=
    mt record?_eq_none_iff.mp (Nat.not_le.mpr (parent_owned step))
  have fresh := record?_opened step room
  funext scope
  show (grown.record? scope).elim [] (·.namespaces.toList) = _
  rw [record?_openScope step room]
  split
  · next new =>
    have older : opened ≠ parent := fun same => owned (same ▸ fresh)
    simp [graph, new, fresh, older]
  · cases old : tree.record? scope with
    | none =>
      have apart : scope ≠ parent := fun same => owned (same ▸ old)
      simp [graph, old, apart]
    | some found =>
      by_cases entered : scope = parent ∧ kind = .namespaceBody
      · rw [if_pos entered]
        simp [graph, old, entered.2, ← entered.1]
      · rw [if_neg entered]
        simp [graph, old, entered]

/-- An accepted scope joins the tree under the next handle, and a namespace joins its parent's
namespaces as well. -/
theorem graph_openScope :
    grown.graph =
      { kind := fun scope => if scope = opened then some kind else tree.graph.kind scope
        parent := fun scope => if scope = opened then some parent else tree.graph.parent scope
        name := fun scope => if scope = opened then name else tree.graph.name scope
        members := tree.graph.members
        childNamespaces := fun scope =>
          if scope = parent ∧ kind = .namespaceBody then
            tree.graph.childNamespaces scope ++ [opened]
          else tree.graph.childNamespaces scope } := by
  rw [← kind_openScope step room, ← parent_openScope step room, ← name_openScope step room,
    ← members_openScope step room, ← childNamespaces_openScope step room]

end Room

end OpenScope

section Declare
variable {scope : Id} {name : Symbol} (step : tree.declare scope name = .ok grown)
include step

theorem scope_owned : scope.index < tree.size := by
  rw [declare] at step
  split at step
  · next owned => exact owned
  · cases step

theorem record?_declare (other : Id) :
    grown.record? other = (tree.record? other).map fun record =>
      if other = scope ∧ name ∉ record.members then
        { record with members := record.members.push name }
      else record := by
  rw [declare] at step
  split at step
  · cases step
    show (tree.records.modify scope.index _)[other.index]? = _
    rw [Array.getElem?_modify]
    by_cases same : other = scope
    · rw [if_pos (congrArg Id.index same.symm)]
      apply congrArg (Option.map · _)
      funext record
      by_cases known : name ∈ record.members
      · simp [known]
      · simp [known, same]
    · have apart : scope.index ≠ other.index := fun index => same (Id.index_injective index.symm)
      rw [if_neg apart]
      simp [same, record?]
  · cases step

theorem kind_declare : grown.graph.kind = tree.graph.kind := by
  funext other
  show (grown.record? other).map (·.kind) = _
  rw [record?_declare step]
  simp [graph, Function.comp_def, apply_ite Record.kind]

theorem parent_declare : grown.graph.parent = tree.graph.parent := by
  funext other
  show (grown.record? other).bind (·.parent) = _
  rw [record?_declare step]
  simp [graph, Option.bind_map, apply_ite Record.parent]

theorem name_declare : grown.graph.name = tree.graph.name := by
  funext other
  show (grown.record? other).bind (·.name) = _
  rw [record?_declare step]
  simp [graph, Option.bind_map, apply_ite Record.name]

theorem childNamespaces_declare : grown.graph.childNamespaces = tree.graph.childNamespaces := by
  funext other
  show (grown.record? other).elim [] (·.namespaces.toList) = _
  rw [record?_declare step]
  cases old : tree.record? other <;> simp [graph, old, apply_ite Record.namespaces]

theorem members_declare : grown.graph.members = fun other =>
    if other = scope ∧ name ∉ tree.graph.members other then tree.graph.members other ++ [name]
    else tree.graph.members other := by
  have owned : tree.record? scope ≠ none :=
    mt record?_eq_none_iff.mp (Nat.not_le.mpr (scope_owned step))
  funext other
  show (grown.record? other).elim [] (·.members.toList) = _
  rw [record?_declare step]
  cases old : tree.record? other with
  | none =>
    have absent : ¬other = scope := fun same => owned (same ▸ old)
    simp [graph, old, absent]
  | some found =>
    have listed : tree.graph.members other = found.members.toList := by simp [graph, old]
    rw [listed]
    by_cases new : other = scope ∧ name ∉ found.members
    · simp [new]
    · simp [new]

/-- An accepted declaration adds the name to its scope, unless it is there. -/
theorem graph_declare : grown.graph =
    { tree.graph with
      members := fun other =>
        if other = scope ∧ name ∉ tree.graph.members other then tree.graph.members other ++ [name]
        else tree.graph.members other } := by
  show grown.graph =
    ⟨tree.graph.kind, tree.graph.parent, tree.graph.name, _, tree.graph.childNamespaces⟩
  rw [← kind_declare step, ← parent_declare step, ← name_declare step,
    ← childNamespaces_declare step, ← members_declare step]

end Declare

/-! ### What a run of edits does -/

section Induction
variable {holds : Tree → Prop}
  (opens : ∀ {tree grown : Tree} {parent opened : Id} {kind : Kind} {name : Option Symbol},
    holds tree → tree.openScope parent kind name = .ok (opened, grown) → holds grown)
  (declares : ∀ {tree grown : Tree} {scope : Id} {name : Symbol},
    holds tree → tree.declare scope name = .ok grown → holds grown)
include declares

theorem declareAll_induction (start : holds tree) {scope : Id} {names : List Symbol}
    (step : tree.declareAll scope names = .ok grown) : holds grown := by
  induction names generalizing tree with
  | nil =>
    cases step
    exact start
  | cons name rest ih =>
    rw [declareAll, List.foldlM_cons] at step
    cases first : tree.declare scope name with
    | error fault =>
      rw [first] at step
      cases step
    | ok declared =>
      rw [first] at step
      exact ih (declares start first) step

include opens

theorem edit_induction (start : holds tree) (change : Edit) : holds (tree.edit change) := by
  cases change with
  | openScope parent kind name =>
    rw [edit]
    split
    · next step => exact opens start step
    · exact start
  | declare scope name =>
    rw [edit]
    split
    · next step => exact declares start step
    · exact start
  | declareAll scope names =>
    rw [edit]
    split
    · next step => exact declareAll_induction declares start step
    · exact start

/-- What opening and declaring keep, every run of edits keeps. -/
theorem grow_induction (start : holds tree) (edits : List Edit) : holds (tree.grow edits) := by
  induction edits generalizing tree with
  | nil => exact start
  | cons change rest ih => exact ih (edit_induction opens declares start change)

end Induction

/-! ### What every tree keeps -/

/-- Parents are older than their children, and the two records of who is whose child agree. -/
structure Sound (tree : Tree) : Prop where
  kind_root : tree.graph.kind root = some .namespaceBody
  parent_root : tree.graph.parent root = none
  exists_parent : ∀ scope : Id, scope.index < tree.size → scope ≠ root →
    ∃ parent, tree.graph.parent scope = some parent
  parent_lt : ∀ scope parent : Id, tree.graph.parent scope = some parent →
    parent.index < scope.index
  mem_childNamespaces : ∀ parent child : Id, child ∈ tree.graph.childNamespaces parent ↔
    tree.graph.parent child = some parent ∧ tree.graph.kind child = some .namespaceBody
  /-- Namespaces are entered in the order they were opened. -/
  children_sorted : ∀ parent : Id,
    (tree.graph.childNamespaces parent).Pairwise fun older younger => older.index < younger.index
  members_nodup : ∀ scope : Id, (tree.graph.members scope).Nodup

theorem owned_iff {scope : Id} :
    scope.index < tree.size ↔ ∃ kind, tree.graph.kind scope = some kind := by
  rw [← contains_graph_iff, Graph.contains, Option.isSome_iff_exists]

theorem owned_of_parent {scope parent : Id} (h : tree.graph.parent scope = some parent) :
    scope.index < tree.size := by
  rw [← Nat.not_le, ← record?_eq_none_iff]
  intro absent
  simp [graph, absent] at h

theorem record?_empty (scope : Id) : empty.record? scope =
    if scope = root then some ⟨.namespaceBody, none, none, #[], #[]⟩ else none := by
  split
  · next first =>
    rw [first]
    rfl
  · next apart =>
    rw [record?_eq_none_iff]
    exact Nat.pos_of_ne_zero fun zero => apart (Id.index_injective zero)

theorem graph_empty : empty.graph =
    { kind := fun scope => if scope = root then some .namespaceBody else none
      parent := fun _ => none
      name := fun _ => none
      members := fun _ => []
      childNamespaces := fun _ => [] } := by
  simp only [graph, record?_empty, Graph.mk.injEq]
  refine ⟨?_, ?_, ?_, ?_, ?_⟩
  all_goals
    funext scope
    split
    · rfl
    · rfl

theorem sound_empty : Sound empty where
  kind_root := by simp [graph_empty]
  parent_root := by simp [graph_empty]
  exists_parent := by
    intro scope owned apart
    have zero : scope.index = 0 := Nat.lt_one_iff.mp owned
    exact absurd (Id.index_injective zero) apart
  parent_lt := by simp [graph_empty]
  mem_childNamespaces := by simp [graph_empty]
  children_sorted := by simp [graph_empty]
  members_nodup := by simp [graph_empty]

section SoundOpenScope
variable {parent opened : Id} {kind : Kind} {name : Option Symbol} (h : Sound tree)
  (step : tree.openScope parent kind name = .ok (opened, grown)) (room : tree.size < Id.count)

include step room

theorem index_opened : opened.index = tree.size := by
  rw [(size_openScope step).2, index_nextId room]

theorem ne_opened {scope : Id} (inside : scope.index < tree.size) : scope ≠ opened := by
  intro same
  rw [same, index_opened step room] at inside
  exact Nat.lt_irrefl _ inside

include h

/-- A scope's namespaces are still those that have it for a parent. -/
theorem mem_childNamespaces_openScope (outer child : Id) :
    child ∈ grown.graph.childNamespaces outer ↔
      grown.graph.parent child = some outer ∧ grown.graph.kind child = some .namespaceBody := by
  rw [graph_openScope step room]
  dsimp only
  by_cases new : child = opened
  · have unlisted : child ∉ tree.graph.childNamespaces outer := by
      rw [h.mem_childNamespaces]
      intro ⟨up, _⟩
      exact ne_opened step room (owned_of_parent up) new
    rw [if_pos new, if_pos new]
    split
    · next entered => simp [new, entered]
    · next apart =>
      simp only [unlisted, Option.some.injEq, false_iff]
      exact fun h => apart ⟨h.1.symm, h.2⟩
  · rw [if_neg new, if_neg new, ← h.mem_childNamespaces]
    split
    · simp [new]
    · rfl

/-- The new scope is younger than all others. -/
theorem children_sorted_openScope (outer : Id) :
    (grown.graph.childNamespaces outer).Pairwise fun older younger =>
      older.index < younger.index := by
  rw [childNamespaces_openScope step room]
  dsimp only
  split
  · refine List.pairwise_append.mpr ⟨h.children_sorted outer, List.pairwise_singleton _ _, ?_⟩
    intro older listed younger added
    rw [List.mem_singleton.mp added, index_opened step room]
    exact owned_of_parent ((h.mem_childNamespaces outer older).mp listed).1
  · exact h.children_sorted outer

theorem sound_openScope : Sound grown := by
  have answers := graph_openScope step room
  have owned := parent_owned step
  have size := (size_openScope step).1
  have next := index_opened step room
  have root_old : root ≠ opened := ne_opened step room (owned_iff.mpr ⟨_, h.kind_root⟩)
  constructor
  case kind_root =>
    rw [answers]
    exact (if_neg root_old).trans h.kind_root
  case parent_root =>
    rw [answers]
    exact (if_neg root_old).trans h.parent_root
  case exists_parent =>
    intro scope inside apart
    rw [answers]
    by_cases new : scope = opened
    · exact ⟨parent, if_pos new⟩
    · have old : scope.index ≠ tree.size := fun same =>
        new (Id.index_injective (same.trans next.symm))
      obtain ⟨outer, up⟩ := h.exists_parent scope (by omega) apart
      exact ⟨outer, (if_neg new).trans up⟩
  case parent_lt =>
    intro scope outer up
    rw [answers] at up
    dsimp only at up
    split at up
    · next new =>
      cases up
      rw [new]
      omega
    · exact h.parent_lt scope outer up
  case mem_childNamespaces => exact mem_childNamespaces_openScope h step room
  case children_sorted => exact children_sorted_openScope h step room
  case members_nodup =>
    rw [answers]
    exact h.members_nodup

end SoundOpenScope

theorem sound_declare {scope : Id} {name : Symbol} (h : Sound tree)
    (step : tree.declare scope name = .ok grown) : Sound grown := by
  have answers := graph_declare step
  constructor
  case kind_root =>
    rw [answers]
    exact h.kind_root
  case parent_root =>
    rw [answers]
    exact h.parent_root
  case exists_parent =>
    rw [answers, size_declare step]
    exact h.exists_parent
  case parent_lt =>
    rw [answers]
    exact h.parent_lt
  case mem_childNamespaces =>
    rw [answers]
    exact h.mem_childNamespaces
  case children_sorted =>
    rw [answers]
    exact h.children_sorted
  case members_nodup =>
    intro other
    rw [answers]
    dsimp only
    split
    · next new =>
      refine List.nodup_append.mpr ⟨h.members_nodup other, List.nodup_singleton name, ?_⟩
      intro known held added single same
      rw [same, List.mem_singleton.mp single] at held
      exact new.2 held
    · exact h.members_nodup other

theorem Made.sound (made : tree.Made) (small : tree.size ≤ Id.count) : Sound tree := by
  obtain ⟨edits, rfl⟩ := made
  refine @grow_induction empty (fun tree => tree.size ≤ Id.count → Sound tree) ?_ ?_
    (fun _ => sound_empty) edits small
  · intro tree grown parent opened kind name h step small
    have size := (size_openScope step).1
    exact sound_openScope (h (by omega)) step (by omega)
  · intro tree grown scope name h step small
    rw [size_declare step] at small
    exact sound_declare (h small) step

/-! ### Ways outwards in a tree -/

section Sound
variable (h : Sound tree)
include h

/-- Every step outwards is a step to an older scope. -/
theorem Sound.ancestor_index {steps : Nat} {scope outer : Id}
    (way : tree.graph.ancestor steps scope = some outer) : outer.index + steps ≤ scope.index := by
  induction steps generalizing scope with
  | zero =>
    cases way
    exact Nat.le_refl _
  | succ steps ih =>
    obtain ⟨next, up, rest⟩ := Option.bind_eq_some_iff.mp way
    have older := h.parent_lt scope next up
    have further := ih rest
    omega

theorem Sound.grounded (scope : Id) : tree.graph.Grounded scope := by
  refine ⟨scope.index + 1, ?_⟩
  cases way : tree.graph.ancestor (scope.index + 1) scope with
  | none => rfl
  | some outer =>
    have older := h.ancestor_index way
    omega

/-- All scopes of a chain are owned. -/
theorem Sound.owned_of_mem_chain {scope outer : Id} (owned : scope.index < tree.size)
    (around : outer ∈ tree.graph.chain scope) : outer.index < tree.size := by
  obtain ⟨steps, way⟩ := (Graph.mem_chain_iff (h.grounded scope)).mp around
  have older := h.ancestor_index way
  omega

end Sound

end NearMiss.Scope.Tree
