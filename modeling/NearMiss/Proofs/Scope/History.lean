import NearMiss.Proofs.Distinct
import NearMiss.Proofs.Scope.Path

/-! What was done to a tree, and what the tree knows of it.

The history of some edits lists what was really done, in order: a scope that was
opened, with the handle it got, or a name that was declared. Edits that were
refused leave no trace in it. `Told` says that the tree's answers can be read off
the history. Each event keeps that, and a history only grows, so what a tree once
answered about the place of a scope stands for good (`extends_grow_append`). -/
namespace NearMiss.Scope.Tree

/-- Something that was done to a tree. -/
inductive Event where
  | opened (scope parent : Id) (kind : Kind) (name : Option Symbol)
  | declared (scope : Id) (name : Symbol)
deriving DecidableEq

namespace Event

/-- The scope that was opened. -/
def opened? : Event → Option Id
  | opened scope _ _ _ => some scope
  | declared _ _ => none

/-- The namespace that was opened in a scope. -/
def namespaceIn? (outer : Id) : Event → Option Id
  | opened scope parent kind _ =>
    if parent = outer ∧ kind = .namespaceBody then some scope else none
  | declared _ _ => none

/-- The name that was declared in a scope. -/
def declaredIn? (scope : Id) : Event → Option Symbol
  | opened _ _ _ _ => none
  | declared home name => if home = scope then some name else none

/-- The names in use. -/
def symbols : Event → List Symbol
  | opened _ _ _ name => name.toList
  | declared _ name => [name]

end Event

/-- The scopes that were opened, in order. -/
def openedIn (history : List Event) : List Id := history.filterMap Event.opened?

/-- The names that were declared in a scope, in order. -/
def declaredIn (scope : Id) (history : List Event) : List Symbol :=
  history.filterMap (Event.declaredIn? scope)

/-- What an edit does, if it is accepted. -/
def accepted (tree : Tree) : Edit → List Event
  | .openScope parent kind name =>
    match tree.openScope parent kind name with
    | .ok (opened, _) => [.opened opened parent kind name]
    | .error _ => []
  | .declare scope name =>
    match tree.declare scope name with
    | .ok _ => [.declared scope name]
    | .error _ => []
  | .declareAll scope names =>
    match tree.declareAll scope names with
    | .ok _ => names.map (.declared scope)
    | .error _ => []

/-- What some edits do, in order. -/
def history (tree : Tree) : List Edit → List Event
  | [] => []
  | change :: rest => tree.accepted change ++ (tree.edit change).history rest

variable {tree grown : Tree} {past : List Event}

theorem history_append (tree : Tree) (edits later : List Edit) :
    tree.history (edits ++ later) = tree.history edits ++ (tree.grow edits).history later := by
  induction edits generalizing tree with
  | nil => rfl
  | cons change rest ih =>
    rw [List.cons_append, history, ih, history, List.append_assoc]
    rfl

theorem grow_append (tree : Tree) (edits later : List Edit) :
    tree.grow (edits ++ later) = (tree.grow edits).grow later := List.foldl_append

theorem size_le_grow (tree : Tree) (edits : List Edit) : tree.size ≤ (tree.grow edits).size := by
  refine @grow_induction tree (fun grown => tree.size ≤ grown.size) ?_ ?_ (Nat.le_refl _) edits
  · intro middle grown _ _ _ _ le step
    exact le.trans (Nat.le_of_lt ((size_openScope step).1 ▸ Nat.lt_succ_self _))
  · intro middle grown _ _ le step
    rw [size_declare step]
    exact le

theorem size_declareAll {scope : Id} {names : List Symbol}
    (step : tree.declareAll scope names = .ok grown) : grown.size = tree.size :=
  @declareAll_induction tree grown (fun grown => grown.size = tree.size)
    (fun same step => (size_declare step).trans same) rfl scope names step

/-! ### What is accepted -/

theorem openScope_cases (tree : Tree) (parent : Id) (kind : Kind) (name : Option Symbol) :
    (parent.index < tree.size ∧
      ∃ opened grown, tree.openScope parent kind name = .ok (opened, grown)) ∨
    (tree.size ≤ parent.index ∧
      tree.openScope parent kind name = .error (.foreignParent parent)) := by
  rcases Nat.lt_or_ge parent.index tree.size with owned | foreign
  · exact .inl ⟨owned, _, _, if_pos owned⟩
  · exact .inr ⟨foreign, openScope_of_foreign foreign kind name⟩

theorem exists_declareAll {scope : Id} (owned : scope.index < tree.size) (names : List Symbol) :
    ∃ grown, tree.declareAll scope names = .ok grown := by
  induction names generalizing tree with
  | nil => exact ⟨tree, rfl⟩
  | cons name rest ih =>
    obtain ⟨declared, first⟩ : ∃ declared, tree.declare scope name = .ok declared :=
      ⟨_, if_pos owned⟩
    obtain ⟨grown, later⟩ := ih (size_declare first ▸ owned)
    rw [declareAll, List.foldlM_cons]
    exact ⟨grown, except_bind_eq_ok_iff.mpr ⟨declared, first, later⟩⟩

/-- The first name decides: no other is ever declared in a scope that is not there. -/
theorem declareAll_cases (tree : Tree) (scope : Id) (names : List Symbol) :
    ((names = [] ∨ scope.index < tree.size) ∧ ∃ grown, tree.declareAll scope names = .ok grown) ∨
    (names ≠ [] ∧ tree.size ≤ scope.index ∧
      tree.declareAll scope names = .error (.foreignScope scope)) := by
  rcases Nat.lt_or_ge scope.index tree.size with owned | foreign
  · exact .inl ⟨.inr owned, exists_declareAll owned names⟩
  · cases names with
    | nil => exact .inl ⟨.inl rfl, tree, rfl⟩
    | cons name rest =>
      refine .inr ⟨List.cons_ne_nil _ _, foreign, ?_⟩
      rw [declareAll, List.foldlM_cons, declare_of_foreign foreign]
      rfl

theorem exists_declareAll_iff (scope : Id) (names : List Symbol) :
    (∃ grown, tree.declareAll scope names = .ok grown) ↔ names = [] ∨ scope.index < tree.size := by
  rcases declareAll_cases tree scope names with ⟨fit, done⟩ | ⟨any, foreign, refused⟩
  · simp only [fit, done]
  · simp [refused, any, Nat.not_lt.mpr foreign]

/-- A name alone is declared like a list of one. -/
theorem declareAll_singleton (tree : Tree) (scope : Id) (name : Symbol) :
    tree.declareAll scope [name] = tree.declare scope name := by
  rw [declareAll, List.foldlM_cons]
  cases tree.declare scope name with
  | ok grown => rfl
  | error fault => rfl

/-! ### Answers that can be read off -/

/-- The tree's answers are those of its history. -/
structure Told (past : List Event) (tree : Tree) : Prop where
  size_eq : tree.size = (openedIn past).length + 1
  /-- Handles count up from the global namespace, which was never opened. -/
  indices : (openedIn past).map Id.index = List.range' 1 (openedIn past).length
  opened : ∀ scope parent kind name, .opened scope parent kind name ∈ past →
    tree.graph.kind scope = some kind ∧ tree.graph.parent scope = some parent ∧
      tree.graph.name scope = name
  namespaces : ∀ scope,
    tree.graph.childNamespaces scope = past.filterMap (Event.namespaceIn? scope)
  /-- Of a name that was declared again the first time counts. -/
  members : ∀ scope, tree.graph.members scope = (declaredIn scope past).eraseDups

theorem told_empty : Told [] empty where
  size_eq := rfl
  indices := rfl
  opened := by simp
  namespaces := by simp [graph_empty]
  members := by simp [graph_empty, declaredIn]

theorem opened?_eq_some_iff {event : Event} {scope : Id} :
    event.opened? = some scope ↔ ∃ parent kind name, event = .opened scope parent kind name := by
  cases event with
  | opened other parent kind name => simp [Event.opened?]
  | declared home name => simp [Event.opened?]

theorem mem_openedIn_iff {scope : Id} :
    scope ∈ openedIn past ↔ ∃ parent kind name, .opened scope parent kind name ∈ past := by
  simp only [openedIn, List.mem_filterMap, opened?_eq_some_iff]
  constructor
  · intro ⟨event, on, parent, kind, name, made⟩
    exact ⟨parent, kind, name, made ▸ on⟩
  · intro ⟨parent, kind, name, on⟩
    exact ⟨_, on, parent, kind, name, rfl⟩

/-- Every scope but the global namespace was opened. -/
theorem Told.mem_openedIn_iff (h : Told past tree) {scope : Id} :
    scope ∈ openedIn past ↔ scope.index < tree.size ∧ scope ≠ root := by
  have listed : scope ∈ openedIn past ↔ scope.index ∈ (openedIn past).map Id.index :=
    (List.mem_map_of_injective fun _ _ => Id.index_injective).symm
  have outermost : scope = root ↔ scope.index = 0 :=
    ⟨fun same => same ▸ rfl, fun same => Id.index_injective same⟩
  rw [listed, h.indices, List.mem_range'_1, h.size_eq, ne_eq, outermost]
  omega

/-- Only a scope that is owned has a name. -/
theorem owned_of_name {scope : Id} {symbol : Symbol} (named : tree.graph.name scope = some symbol) :
    scope.index < tree.size := by
  rw [← Nat.not_le, ← record?_eq_none_iff]
  intro absent
  simp [graph, absent] at named

/-- Only a scope that is owned declares names. -/
theorem owned_of_member {scope : Id} {symbol : Symbol}
    (declared : symbol ∈ tree.graph.members scope) : scope.index < tree.size := by
  rw [← Nat.not_le, ← record?_eq_none_iff]
  intro absent
  simp [graph, absent] at declared

/-- A name that is declared in a scope came with an event. -/
theorem Told.exists_event_of_member (h : Told past tree) {scope : Id} {symbol : Symbol}
    (declared : symbol ∈ tree.graph.members scope) : ∃ event ∈ past, symbol ∈ event.symbols := by
  rw [h.members, List.mem_eraseDups, declaredIn, List.mem_filterMap] at declared
  obtain ⟨event, on, found⟩ := declared
  refine ⟨event, on, ?_⟩
  cases event with
  | opened _ _ _ _ => cases found
  | declared home name =>
    rw [Event.declaredIn?] at found
    split at found
    · cases found
      exact List.mem_singleton_self _
    · cases found

/-- And so did the name of a scope, which is not the global namespace. -/
theorem Told.exists_event_of_name (h : Told past tree) (nameless : tree.graph.name root = none)
    {scope : Id} {symbol : Symbol} (named : tree.graph.name scope = some symbol) :
    ∃ event ∈ past, symbol ∈ event.symbols := by
  have apart : scope ≠ root := by
    rintro rfl
    cases nameless.symm.trans named
  obtain ⟨parent, kind, name, on⟩ :=
    Tree.mem_openedIn_iff.mp (h.mem_openedIn_iff.mpr ⟨owned_of_name named, apart⟩)
  have same : name = some symbol := (h.opened scope parent kind name on).2.2.symm.trans named
  exact ⟨_, on, by simp [Event.symbols, same]⟩

/-! ### One event after another -/

/-- A scope that is opened joins the history. -/
theorem Told.openScope (h : Told past tree) {parent opened : Id} {kind : Kind}
    {name : Option Symbol} (step : tree.openScope parent kind name = .ok (opened, grown))
    (room : tree.size < Id.count) : Told (past ++ [.opened opened parent kind name]) grown := by
  have answers := graph_openScope step room
  have next := index_opened step room
  have added : openedIn (past ++ [.opened opened parent kind name]) = openedIn past ++ [opened] :=
    List.filterMap_append
  constructor
  case size_eq => rw [(size_openScope step).1, h.size_eq, added, List.length_append]; rfl
  case indices =>
    rw [added, List.map_append, h.indices, List.length_append, List.map_singleton, next, h.size_eq,
      List.length_singleton, List.range'_concat]
    simp [Nat.add_comm]
  case opened =>
    intro scope outer kind' name' on
    rw [answers]
    rcases List.mem_append.mp on with old | new
    · have inside := (h.mem_openedIn_iff.mp (Tree.mem_openedIn_iff.mpr ⟨_, _, _, old⟩)).1
      have apart := ne_opened step room inside
      dsimp only
      rw [if_neg apart, if_neg apart, if_neg apart]
      exact h.opened scope outer kind' name' old
    · cases List.mem_singleton.mp new
      simp
  case namespaces =>
    intro scope
    rw [answers, List.filterMap_append, ← h.namespaces]
    by_cases entered : scope = parent ∧ kind = .namespaceBody
    · simp [Event.namespaceIn?, entered]
    · simp [Event.namespaceIn?, entered, eq_comm (a := parent)]
  case members =>
    intro scope
    rw [answers, declaredIn, List.filterMap_append]
    exact (h.members scope).trans (congrArg List.eraseDups (List.append_nil _).symm)

/-- A name that is declared joins the history. -/
theorem Told.declare (h : Told past tree) {scope : Id} {name : Symbol}
    (step : tree.declare scope name = .ok grown) : Told (past ++ [.declared scope name]) grown := by
  have answers := graph_declare step
  have same : openedIn (past ++ [.declared scope name]) = openedIn past :=
    List.filterMap_append.trans (List.append_nil _)
  constructor
  case size_eq => rw [size_declare step, same, h.size_eq]
  case indices => rw [same, h.indices]
  case opened =>
    intro other outer kind name' on
    rw [answers]
    rcases List.mem_append.mp on with old | new
    · exact h.opened other outer kind name' old
    · cases List.mem_singleton.mp new
  case namespaces =>
    intro other
    rw [answers, List.filterMap_append]
    exact (h.namespaces other).trans (List.append_nil _).symm
  case members =>
    intro other
    rw [answers, declaredIn, List.filterMap_append]
    simp only [h.members other, List.mem_eraseDups]
    by_cases here : other = scope
    · have added : [Event.declared scope name].filterMap (Event.declaredIn? other) = [name] := by
        simp [Event.declaredIn?, here]
      rw [added, ← declaredIn, eraseDups_concat]
      simp [here]
    · have nothing : [Event.declared scope name].filterMap (Event.declaredIn? other) = [] := by
        simp [Event.declaredIn?, Ne.symm here]
      rw [nothing, ← declaredIn, List.append_nil]
      simp [here]

theorem Told.declareAll (h : Told past tree) {scope : Id} {names : List Symbol}
    (step : tree.declareAll scope names = .ok grown) :
    Told (past ++ names.map (.declared scope)) grown := by
  induction names generalizing past tree with
  | nil =>
    cases step
    rw [List.map_nil, List.append_nil]
    exact h
  | cons name rest ih =>
    rw [Tree.declareAll, List.foldlM_cons] at step
    obtain ⟨declared, first, later⟩ := except_bind_eq_ok_iff.mp step
    rw [List.map_cons, List.append_cons]
    exact ih (h.declare first) later

/-- Whether it is accepted or not, an edit keeps the history and the tree together. -/
theorem Told.edit (h : Told past tree) (change : Edit)
    (small : (tree.edit change).size ≤ Id.count) :
    Told (past ++ tree.accepted change) (tree.edit change) := by
  cases change with
  | openScope parent kind name =>
    rw [Tree.edit] at small ⊢
    rw [accepted]
    cases step : tree.openScope parent kind name with
    | ok result =>
      rw [step] at small
      have size := (size_openScope step).1
      exact h.openScope step (by simp only at small; omega)
    | error fault => simpa only [List.append_nil] using h
  | declare scope name =>
    rw [Tree.edit, accepted]
    cases step : tree.declare scope name with
    | ok grown => exact h.declare step
    | error fault => simpa only [List.append_nil] using h
  | declareAll scope names =>
    rw [Tree.edit, accepted]
    cases step : tree.declareAll scope names with
    | ok grown => exact h.declareAll step
    | error fault => simpa only [List.append_nil] using h

theorem Told.grow (h : Told past tree) (edits : List Edit)
    (small : (tree.grow edits).size ≤ Id.count) :
    Told (past ++ tree.history edits) (tree.grow edits) := by
  induction edits generalizing past tree with
  | nil =>
    rw [history, List.append_nil]
    exact h
  | cons change rest ih =>
    have first := h.edit change ((size_le_grow (tree.edit change) rest).trans small)
    rw [history, ← List.append_assoc]
    exact ih first small

theorem told_grow (edits : List Edit) (small : (empty.grow edits).size ≤ Id.count) :
    Told (empty.history edits) (empty.grow edits) := told_empty.grow edits small

/-! ### What stands for good -/

/-- The later tree has all scopes of the earlier one, in their places. -/
structure Extends (earlier later : Tree) : Prop where
  size_le : earlier.size ≤ later.size
  kind_eq : ∀ scope : Id, scope.index < earlier.size →
    later.graph.kind scope = earlier.graph.kind scope
  parent_eq : ∀ scope : Id, scope.index < earlier.size →
    later.graph.parent scope = earlier.graph.parent scope
  name_eq : ∀ scope : Id, scope.index < earlier.size →
    later.graph.name scope = earlier.graph.name scope

theorem size_grow_le_append (edits later : List Edit) :
    (empty.grow edits).size ≤ (empty.grow (edits ++ later)).size := by
  rw [grow_append]
  exact size_le_grow _ _

/-- A scope has its place from the start, or from the event that opened it, and the history that
has this event only grows. -/
theorem place_eq_grow_append (edits later : List Edit)
    (small : (empty.grow (edits ++ later)).size ≤ Id.count) {scope : Id}
    (owned : scope.index < (empty.grow edits).size) :
    (empty.grow (edits ++ later)).graph.kind scope = (empty.grow edits).graph.kind scope ∧
      (empty.grow (edits ++ later)).graph.parent scope = (empty.grow edits).graph.parent scope ∧
      (empty.grow (edits ++ later)).graph.name scope = (empty.grow edits).graph.name scope := by
  have small' := (size_grow_le_append edits later).trans small
  by_cases outermost : scope = root
  · have made : (empty.grow edits).Made := ⟨_, rfl⟩
    have made' : (empty.grow (edits ++ later)).Made := ⟨_, rfl⟩
    have sound := made.sound small'
    have sound' := made'.sound small
    rw [outermost, sound.kind_root, sound'.kind_root, sound.parent_root, sound'.parent_root,
      made.name_root small', made'.name_root small]
    exact ⟨rfl, rfl, rfl⟩
  · have told := told_grow edits small'
    have told' := told_grow (edits ++ later) small
    obtain ⟨parent, kind, name, on⟩ :=
      mem_openedIn_iff.mp (told.mem_openedIn_iff.mpr ⟨owned, outermost⟩)
    have on' : .opened scope parent kind name ∈ empty.history (edits ++ later) := by
      rw [history_append]
      exact List.mem_append_left _ on
    obtain ⟨kinds, parents, names⟩ := told.opened scope parent kind name on
    obtain ⟨kinds', parents', names'⟩ := told'.opened scope parent kind name on'
    exact ⟨kinds'.trans kinds.symm, parents'.trans parents.symm, names'.trans names.symm⟩

/-- More edits leave the scopes that are there where they are. -/
theorem extends_grow_append (edits later : List Edit)
    (small : (empty.grow (edits ++ later)).size ≤ Id.count) :
    (empty.grow edits).Extends (empty.grow (edits ++ later)) where
  size_le := size_grow_le_append edits later
  kind_eq := fun _ owned => (place_eq_grow_append edits later small owned).1
  parent_eq := fun _ owned => (place_eq_grow_append edits later small owned).2.1
  name_eq := fun _ owned => (place_eq_grow_append edits later small owned).2.2

section Extends
variable {earlier later : Tree} (h : earlier.Extends later) (sound : earlier.Sound) {scope : Id}
  (owned : scope.index < earlier.size)
include h sound owned

theorem Extends.chain_eq : later.graph.chain scope = earlier.graph.chain scope := by
  rw [Graph.chain, Graph.chain]
  induction Id.count generalizing scope with
  | zero => rfl
  | succ steps ih =>
    rw [Graph.climb, Graph.climb, h.parent_eq scope owned]
    cases up : earlier.graph.parent scope with
    | none => rfl
    | some outer =>
      have older := sound.parent_lt scope outer up
      exact congrArg (scope :: ·) (ih (by omega))

/-- A path once spelled is spelled by the same names later. -/
theorem Extends.nameChain_eq : later.graph.nameChain scope = earlier.graph.nameChain scope := by
  rw [Graph.nameChain, Graph.nameChain, h.chain_eq sound owned]
  refine congrArg List.reverse (List.filterMap_congr fun outer around => ?_)
  exact h.name_eq outer (sound.owned_of_mem_chain owned around)

end Extends

/-- From every scope the way outwards ends at the global namespace. -/
theorem Sound.exists_ancestor_root (h : Sound tree) {scope : Id} (owned : scope.index < tree.size) :
    ∃ steps, tree.graph.ancestor steps scope = some root ∧
      tree.graph.ancestor (steps + 1) scope = none := by
  induction index : scope.index using Nat.strong_induction_on generalizing scope with
  | _ index ih =>
    by_cases outermost : scope = root
    · refine ⟨0, congrArg some outermost, ?_⟩
      rw [Graph.ancestor, outermost, h.parent_root]
      rfl
    · obtain ⟨outer, up⟩ := h.exists_parent scope owned outermost
      have older := h.parent_lt scope outer up
      obtain ⟨steps, reached, ended⟩ := ih outer.index (by omega) (by omega) rfl
      refine ⟨steps + 1, ?_, ?_⟩
      · rw [Graph.ancestor, up]
        exact reached
      · rw [Graph.ancestor, up]
        exact ended

/-- A namespace is entered where it was opened, and where it has its parent. -/
theorem Told.childNamespaces_eq (h : Told past tree) (outer : Id) :
    tree.graph.childNamespaces outer = (openedIn past).filter fun scope =>
      tree.graph.parent scope = some outer ∧ tree.graph.kind scope = some .namespaceBody := by
  rw [h.namespaces, openedIn, List.filter_filterMap]
  refine List.filterMap_congr fun event on => ?_
  cases event with
  | opened scope parent kind name =>
    obtain ⟨kinds, parents, _⟩ := h.opened scope parent kind name on
    rw [Event.opened?, Option.filter_some]
    simp [Event.namespaceIn?, kinds, parents]
  | declared home name => rfl

/-- What a tree of so many edits, some of them refused, answers. -/
structure Faithful (edits : List Edit) (tree : Tree) : Prop where
  /-- The scopes that were opened have the handles after the root's, in order. -/
  numbered : (openedIn (empty.history edits)).map Id.index = List.range' 1 (tree.size - 1)
  /-- They are where and what they were asked to be. -/
  asked : ∀ scope parent kind name, .opened scope parent kind name ∈ empty.history edits →
    tree.graph.kind scope = some kind ∧ tree.graph.parent scope = some parent ∧
      tree.graph.name scope = name
  /-- And have been so ever since. -/
  lasting : ∀ earlier later, edits = earlier ++ later → (empty.grow earlier).Extends tree
  outermost : ∀ scope : Id, scope.index < tree.size →
    (tree.graph.parent scope = none ↔ scope = root)
  older : ∀ scope parent : Id, tree.graph.parent scope = some parent → parent.index < scope.index
  ends : ∀ scope : Id, scope.index < tree.size → ∃ steps,
    tree.graph.ancestor steps scope = some root ∧ tree.graph.ancestor (steps + 1) scope = none
  /-- The namespaces in a scope are those that have it for a parent, in order. -/
  namespaces : ∀ outer, tree.graph.childNamespaces outer =
    (openedIn (empty.history edits)).filter fun scope =>
      tree.graph.parent scope = some outer ∧ tree.graph.kind scope = some .namespaceBody
  /-- The names in a scope are those that were declared in it, each where it was first. -/
  members : ∀ scope,
    tree.graph.members scope = (declaredIn scope (empty.history edits)).eraseDups
  /-- The next edit is accepted if it is about a scope that the tree owns, or about no name. -/
  opens_iff : ∀ parent kind name,
    (∃ opened grown, tree.openScope parent kind name = .ok (opened, grown)) ↔
      parent.index < tree.size
  declares_iff : ∀ scope name,
    (∃ grown, tree.declare scope name = .ok grown) ↔ scope.index < tree.size
  declaresAll_iff : ∀ scope names, (∃ grown, tree.declareAll scope names = .ok grown) ↔
    names = [] ∨ scope.index < tree.size
  foreign : ∀ scope : Id, tree.size ≤ scope.index →
    tree.graph.kind scope = none ∧ tree.graph.parent scope = none ∧
      tree.graph.name scope = none ∧ tree.graph.members scope = [] ∧
      tree.graph.childNamespaces scope = []

/-- **A tree is what its accepted edits made it.** Handles count up with the scopes that are
opened, and a scope keeps its kind, parent and name. Parents are older than their children, so every
way outwards ends, at the global namespace. What a scope lists can be read off the history: the
namespaces that were opened in it, in order, and the names that were declared in it, each once, in
the order of their first declarations. A scope that is not there has nothing. -/
theorem grow_faithful (edits : List Edit) (small : (empty.grow edits).size ≤ Id.count) :
    Faithful edits (empty.grow edits) := by
  have told := told_grow edits small
  have made : (empty.grow edits).Made := ⟨edits, rfl⟩
  have sound := made.sound small
  constructor
  case numbered => rw [told.indices, told.size_eq, Nat.add_sub_cancel]
  case asked => exact told.opened
  case lasting =>
    rintro earlier later rfl
    exact extends_grow_append earlier later small
  case outermost =>
    intro scope owned
    constructor
    · intro alone
      by_contra apart
      obtain ⟨parent, up⟩ := sound.exists_parent scope owned apart
      cases alone.symm.trans up
    · rintro rfl
      exact sound.parent_root
  case older => exact sound.parent_lt
  case ends => exact fun scope owned => sound.exists_ancestor_root owned
  case namespaces => exact told.childNamespaces_eq
  case members => exact told.members
  case opens_iff =>
    intro parent kind name
    rcases openScope_cases (empty.grow edits) parent kind name with
      ⟨owned, done⟩ | ⟨foreign, refused⟩
    · simp only [owned, done]
    · simp [refused, Nat.not_lt.mpr foreign]
  case declares_iff =>
    intro scope name
    rw [← declareAll_singleton, exists_declareAll_iff]
    simp
  case declaresAll_iff => exact exists_declareAll_iff
  case foreign =>
    intro scope outside
    have absent := record?_eq_none_iff.mpr outside
    simp [graph, absent]

/-- A namespace with a scope in it. Nothing is opened or declared in a scope that is not there. -/
def someRefused : List Edit :=
  [.openScope root .namespaceBody none, .openScope ⟨7⟩ .block none, .declare ⟨9⟩ .empty,
    .openScope ⟨1⟩ .block none, .declareAll ⟨1⟩ [.empty, .empty]]

theorem someRefused_faithful :
    (empty.grow someRefused).size ≤ Id.count ∧ Faithful someRefused (empty.grow someRefused) :=
  ⟨by decide, grow_faithful someRefused (by decide)⟩

end NearMiss.Scope.Tree
