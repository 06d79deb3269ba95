import NearMiss.Correction.Wording
import NearMiss.Proofs.Scope.Growth
import NearMiss.Proofs.Scope.Segments

/-! A path leads back to its namespace.

The path of a namespace is spelled on the way outwards, and `descend` reads it on
the way inwards, one child namespace for each segment. Where namespaces lie in
namespaces, have names to tell them from those beside them and no colon in any
name, the way inwards ends where the way outwards began (`descend_segments`). -/
namespace NearMiss.Scope

namespace Graph

/-- The namespaces that a path leads to, from some scope inwards. -/
def descend (graph : Graph) (lexicon : Lexicon) : Id → List String → List Id
  | scope, [] => [scope]
  | scope, segment :: rest =>
    ((graph.childNamespaces scope).filter fun child =>
      (graph.name child).bind lexicon.text? = some segment).flatMap
        fun child => graph.descend lexicon child rest

variable {graph : Graph} {lexicon : Lexicon}

theorem descend_append (scope : Id) (path further : List String) :
    graph.descend lexicon scope (path ++ further) =
      (graph.descend lexicon scope path).flatMap fun inner =>
        graph.descend lexicon inner further := by
  induction path generalizing scope with
  | nil => rw [List.nil_append, descend, List.flatMap_singleton]
  | cons segment rest ih => simp only [List.cons_append, descend, List.flatMap_assoc, ih]

theorem chain_of_parent {scope outer : Id} (ends : graph.Grounded scope)
    (up : graph.parent scope = some outer) : graph.chain scope = scope :: graph.chain outer := by
  have ends' : graph.Grounded outer := by
    obtain ⟨steps, ended⟩ := ends
    refine ⟨steps, ?_⟩
    have longer := ancestor_none_of_le ended (Nat.le_succ steps)
    rw [ancestor, up] at longer
    exact longer
  apply List.ext_getElem?
  intro k
  rw [getElem?_chain ends]
  cases k with
  | zero => rfl
  | succ k =>
    rw [List.getElem?_cons_succ, getElem?_chain ends', ancestor, up]
    rfl

theorem nameChain_of_parent {scope outer : Id} (ends : graph.Grounded scope)
    (up : graph.parent scope = some outer) :
    graph.nameChain scope = graph.nameChain outer ++ (graph.name scope).toList := by
  rw [nameChain, nameChain, chain_of_parent ends up]
  cases here : graph.name scope with
  | none => rw [List.filterMap_cons_none here, Option.toList_none, List.append_nil]
  | some name => rw [List.filterMap_cons_some here, List.reverse_cons, Option.toList_some]

theorem path_eq {scope : Id} {segments : List String}
    (read : (graph.nameChain scope).mapM lexicon.text = .ok segments) :
    graph.path lexicon scope = .ok ("::".intercalate segments) := by
  rw [path, read]
  rfl

end Graph

namespace Tree

variable {tree grown : Tree}

/-- The global namespace has no name. -/
theorem Made.name_root (made : tree.Made) (small : tree.size ≤ Id.count) :
    tree.graph.name root = none := by
  obtain ⟨edits, rfl⟩ := made
  refine @grow_induction empty (fun tree => tree.size ≤ Id.count → tree.graph.name root = none)
    ?_ ?_ (fun _ => by rw [graph_empty]) edits small
  · intro tree grown parent opened kind name nameless step small
    have size := (size_openScope step).1
    have owned := parent_owned step
    have old : root ≠ opened := ne_opened step (by omega) (Nat.zero_lt_of_lt owned)
    rw [name_openScope step (by omega)]
    exact (if_neg old).trans (nameless (by omega))
  · intro tree grown scope name nameless step small
    rw [size_declare step] at small
    rw [name_declare step]
    exact nameless small

/-- Namespaces lie in namespaces and have names without colons, different from those of the
namespaces beside them. -/
structure Qualifiable (tree : Tree) (lexicon : Lexicon) : Prop where
  outer : ∀ scope : Id, tree.graph.kind scope = some .namespaceBody → scope ≠ root →
    ∃ parent, tree.graph.parent scope = some parent ∧
      tree.graph.kind parent = some .namespaceBody
  named : ∀ scope : Id, tree.graph.kind scope = some .namespaceBody → scope ≠ root →
    ∃ symbol text, tree.graph.name scope = some symbol ∧ lexicon.text? symbol = some text ∧
      ':' ∉ text.toList
  apart : ∀ scope : Id, ((tree.graph.childNamespaces scope).map tree.graph.name).Nodup

section Qualifiable
variable {lexicon : Lexicon} (made : tree.Made) (small : tree.size ≤ Id.count)
  (qualifiable : tree.Qualifiable lexicon)
include made small qualifiable

/-- From its outer namespace a namespace is found by its name, and no other is. -/
theorem Qualifiable.descend_name {scope outer : Id} {symbol : Symbol} {text : String}
    (space : tree.graph.kind scope = some .namespaceBody)
    (up : tree.graph.parent scope = some outer) (name : tree.graph.name scope = some symbol)
    (spelled : lexicon.text? symbol = some text) :
    tree.graph.descend lexicon outer [text] = [scope] := by
  have listed : scope ∈ tree.graph.childNamespaces outer :=
    ((made.sound small).mem_childNamespaces outer scope).mpr ⟨up, space⟩
  have apart := qualifiable.apart outer
  simp only [Graph.descend, List.flatMap_singleton']
  refine List.perm_singleton.mp ((List.perm_ext_iff_of_nodup ?_ (List.nodup_singleton _)).mpr ?_)
  · exact apart.of_map.filter _
  intro child
  rw [List.mem_filter, decide_eq_true_eq, List.mem_singleton]
  constructor
  · intro ⟨beside, same⟩
    obtain ⟨symbol', name', spelled'⟩ := Option.bind_eq_some_iff.mp same
    cases Lexicon.text?_injective spelled spelled'
    exact List.inj_on_of_nodup_map apart beside listed (name'.trans name.symm)
  · rintro rfl
    exact ⟨listed, by rw [name, Option.bind_some, spelled]⟩

/-- The names on the way outwards are the segments of the way inwards. -/
theorem Qualifiable.descend_segments (scope : Id)
    (space : tree.graph.kind scope = some .namespaceBody) :
    ∃ segments, (tree.graph.nameChain scope).mapM lexicon.text = .ok segments ∧
      (∀ segment ∈ segments, ':' ∉ segment.toList) ∧ (scope ≠ root → segments ≠ []) ∧
      tree.graph.descend lexicon root segments = [scope] := by
  have h := made.sound small
  induction index : scope.index using Nat.strong_induction_on generalizing scope with
  | _ index ih =>
    by_cases outermost : scope = root
    · have nothing : tree.graph.nameChain scope = [] := by
        rw [outermost, Graph.nameChain, Graph.chain_of_outermost h.parent_root,
          List.filterMap_cons_none (made.name_root small)]
        rfl
      rw [nothing, outermost]
      exact ⟨[], rfl, by simp, fun apart => absurd rfl apart, rfl⟩
    · obtain ⟨outer, up, space'⟩ := qualifiable.outer scope space outermost
      obtain ⟨symbol, text, name, spelled, plain⟩ := qualifiable.named scope space outermost
      have older := h.parent_lt scope outer up
      obtain ⟨segments, read, plains, _, leads⟩ := ih outer.index (by omega) outer space' rfl
      refine ⟨segments ++ [text], ?_, ?_, by simp, ?_⟩
      · rw [Graph.nameChain_of_parent (h.grounded scope) up, name, Option.toList_some,
          List.mapM_append, read, List.mapM_cons, Lexicon.text_eq_ok_iff.mpr spelled]
        rfl
      · intro segment on
        rcases List.mem_append.mp on with on | on
        · exact plains segment on
        · rw [List.mem_singleton.mp on]
          exact plain
      · rw [Graph.descend_append, leads, List.flatMap_singleton]
        exact qualifiable.descend_name made small space up name spelled

end Qualifiable

end Tree

end NearMiss.Scope
