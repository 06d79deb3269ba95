import NearMiss.Proofs.Lookup.Nearest

/-! Questions about the scopes around a name.

What a place of use sees is settled by all the declarations around it, hidden
ones included: one that is hidden never wins, since what hides it is as near in
spelling and nearer in scope. A question about one scope is settled by what that
scope declares. -/
namespace NearMiss.Lookup

open Scope (Graph Id Tree)

/-- The names around a place of use settle a question, as far as they can be read. -/
theorem nearest_enclosing_settles {lookup : Lookup} {name : Unresolved} {written : String}
    (known : lookup.lexicon.text? name.symbol = some written) {graph : Graph} {scope : Id}
    (ends : graph.Grounded scope)
    (spelled : ∀ candidate ∈ Candidate.enclosing graph scope,
      ∃ text, lookup.lexicon.text? candidate.symbol = some text) :
    ∃ answer, lookup.nearest name (Candidate.enclosing graph scope) = .ok answer ∧
      Settles (lookup.Pool name (Candidate.Visible graph scope)) name.span answer := by
  refine nearest_settles known spelled (Candidate.enclosing_nodup _ _) ?_ ?_
  · intro candidate on
    exact ((Candidate.mem_enclosing_iff ends).mp on).1
  · intro candidate visible
    exact Candidate.exists_mem_enclosing ends visible

section InTree
variable {lookup : Lookup} {tree : Tree} (inTree : lookup.InTree tree)
include inTree

theorem InTree.sound : tree.Sound := inTree.made.sound inTree.small

theorem InTree.requireScope_eq {scope : Id} {kind : Scope.Kind}
    (here : tree.graph.kind scope = some kind) : lookup.requireScope scope = .ok kind := by
  rw [requireScope, inTree.graph_eq, here]

variable {name : Unresolved} {written : String}
  (known : lookup.lexicon.text? name.symbol = some written) {scope : Id}
include known

theorem enclosing_settles (owned : scope.index < tree.size) :
    ∃ answer, lookup.enclosing name scope = .ok answer ∧
      Settles (lookup.Pool name (Candidate.Visible tree.graph scope)) name.span answer := by
  have ends := inTree.sound.grounded scope
  obtain ⟨kind, here⟩ := Tree.owned_iff.mp owned
  have asked : lookup.enclosing name scope =
      lookup.nearest name (Candidate.enclosing tree.graph scope) := by
    rw [enclosing, inTree.requireScope_eq here, inTree.graph_eq]
    rfl
  rw [asked]
  refine nearest_enclosing_settles known ends fun candidate on => ?_
  obtain ⟨outer, _, declared⟩ := ((Candidate.mem_enclosing_iff ends).mp on).1.declared
  exact inTree.spelled outer _ declared

/-- A scope's own names settle a question about it. -/
theorem nearest_inside_settles (origin : Origin) (scope : Id) :
    ∃ answer, lookup.nearest name
        (Candidate.firstOfEach (Candidate.declared tree.graph origin 0 scope)) = .ok answer ∧
      Settles (lookup.Pool name (Candidate.Inside tree.graph origin scope)) name.span answer := by
  refine nearest_settles known ?_ (Candidate.firstOfEach_nodup _) ?_ ?_
  · intro candidate on
    exact inTree.spelled scope _ (Candidate.mem_firstOfEach_declared_iff.mp on).declared
  · intro candidate on
    exact Candidate.mem_firstOfEach_declared_iff.mp on
  · intro candidate inside
    exact ⟨candidate, Candidate.mem_firstOfEach_declared_iff.mpr inside, rfl, .inl rfl⟩

theorem member_settles (owned : scope.index < tree.size) :
    ∃ answer, lookup.member name scope = .ok answer ∧
      Settles (lookup.Pool name (Candidate.Inside tree.graph (.member scope) scope)) name.span
        answer := by
  obtain ⟨kind, here⟩ := Tree.owned_iff.mp owned
  rw [member, inTree.requireScope_eq here, inTree.graph_eq]
  exact nearest_inside_settles inTree known (.member scope) scope

theorem enumerator_settles (closed : tree.graph.kind scope = some .scopedEnumeration) :
    ∃ answer, lookup.enumerator name scope = .ok answer ∧
      Settles (lookup.Pool name (Candidate.Inside tree.graph (.enumerator scope) scope)) name.span
        answer := by
  rw [enumerator, requireScopedEnumeration, inTree.requireScope_eq closed, inTree.graph_eq]
  exact nearest_inside_settles inTree known (.enumerator scope) scope

end InTree

/-! ### A small lookup -/

theorem of_mem_members {tree : Tree} {holds : Symbol → Prop}
    (all : ∀ record ∈ tree.records, ∀ symbol ∈ record.members, holds symbol) {scope : Id}
    {symbol : Symbol} (declared : symbol ∈ tree.graph.members scope) : holds symbol := by
  rw [Tree.graph] at declared
  dsimp only at declared
  cases here : tree.record? scope with
  | none =>
    rw [here] at declared
    cases declared
  | some record =>
    rw [here] at declared
    exact all record (Array.mem_of_getElem? here) symbol (Array.mem_toList_iff.mp declared)

theorem spelled_of_records {lexicon : Lexicon} {tree : Tree}
    (known : ∀ record ∈ tree.records, ∀ symbol ∈ record.members, (lexicon.text? symbol).isSome)
    (scope : Id) (symbol : Symbol) (declared : symbol ∈ tree.graph.members scope) :
    ∃ text, lexicon.text? symbol = some text :=
  Option.isSome_iff_exists.mp (of_mem_members known declared)

theorem fresh_of_not_mem {shard : Shard} {text : String} (absent : text ∉ shard.texts) :
    shard.slots[text]? = none := by
  cases found : shard.slots[text]? with
  | none => rfl
  | some slot => exact absurd (Array.mem_of_getElem? ((shard.agree text slot).mp found)) absent

/-- The texts `colr`, `color` and `colors`. -/
def colors : Lexicon :=
  ((Lexicon.empty.push "colr" (fresh_of_not_mem (by decide +kernel)) (by decide +kernel)).push
    "color" (fresh_of_not_mem (by decide +kernel)) (by decide +kernel)).push
    "colors" (fresh_of_not_mem (by decide +kernel)) (by decide +kernel)

/-- `color` is declared globally and `colors` in a scoped enumeration. -/
def palette : Tree :=
  Tree.empty.grow [
    .openScope Tree.root .scopedEnumeration none,
    .declare Tree.root ⟨805306368⟩,
    .declare ⟨1⟩ ⟨1⟩]

def paletteLookup : Lookup := ⟨palette.graph, colors, .empty, {}⟩

/-- The name that was written. -/
def colr : Unresolved := ⟨⟨536870912⟩, .dummy⟩

theorem text?_colr : colors.text? colr.symbol = some "colr" := by decide +kernel

theorem inTree_palette : paletteLookup.InTree palette where
  graph_eq := rfl
  made := ⟨_, rfl⟩
  small := by decide
  spelled := spelled_of_records (by decide +kernel)

/-- `color` is visible in the enumeration, one edit away. -/
theorem color_near_colr : paletteLookup.Pool colr (Candidate.Visible palette.graph ⟨1⟩)
    ⟨⟨⟨805306368⟩, .enclosing, 1⟩, 1, "color"⟩ :=
  ⟨⟨rfl, Tree.root, by decide +kernel, by decide +kernel⟩, by decide, by decide +kernel,
    "colr", text?_colr, by decide +kernel, by decide +kernel⟩

/-- **Every answer is the best there is**: of the near names declared around a place of use the
one with the fewest edits, of those the innermost, of those the first by text; and of the near
names that a scope or a scoped enumeration declares itself likewise. -/
theorem best_of_visible_and_of_members {lookup : Lookup} {tree : Tree}
    (inTree : lookup.InTree tree) {name : Unresolved}
    (known : ∃ written, lookup.lexicon.text? name.symbol = some written) {scope : Id}
    (owned : scope.index < tree.size) :
    (∃ answer, lookup.enclosing name scope = .ok answer ∧
      Settles (lookup.Pool name (Candidate.Visible tree.graph scope)) name.span answer) ∧
    (∃ answer, lookup.member name scope = .ok answer ∧
      Settles (lookup.Pool name (Candidate.Inside tree.graph (.member scope) scope)) name.span
        answer) ∧
    (tree.graph.kind scope = some .scopedEnumeration →
      ∃ answer, lookup.enumerator name scope = .ok answer ∧
        Settles (lookup.Pool name (Candidate.Inside tree.graph (.enumerator scope) scope)) name.span
          answer) := by
  obtain ⟨written, known⟩ := known
  exact ⟨enclosing_settles inTree known owned, member_settles inTree known owned,
    enumerator_settles inTree known⟩

theorem palette_answered :
    paletteLookup.InTree palette ∧
      (∃ written, paletteLookup.lexicon.text? colr.symbol = some written) ∧
      (⟨1⟩ : Id).index < palette.size ∧
      palette.graph.kind ⟨1⟩ = some .scopedEnumeration ∧
      (∃ winner : Entrant, paletteLookup.enclosing colr ⟨1⟩ =
          .ok (some ⟨winner.candidate.symbol, winner.candidate.origin, .dummy, winner.distance⟩) ∧
        paletteLookup.Pool colr (Candidate.Visible palette.graph ⟨1⟩) winner) ∧
      ∃ answer, paletteLookup.enumerator colr ⟨1⟩ = .ok answer ∧
        Settles (paletteLookup.Pool colr (Candidate.Inside palette.graph (.enumerator ⟨1⟩) ⟨1⟩))
          .dummy answer := by
  have known : ∃ written, paletteLookup.lexicon.text? colr.symbol = some written :=
    ⟨_, text?_colr⟩
  have owned : (⟨1⟩ : Id).index < palette.size := by decide
  have closed : palette.graph.kind ⟨1⟩ = some .scopedEnumeration := by decide +kernel
  obtain ⟨⟨answer, visible, settled⟩, _, enumerators⟩ :=
    best_of_visible_and_of_members inTree_palette known owned
  refine ⟨inTree_palette, known, owned, closed, ?_, enumerators closed⟩
  cases settled with
  | nobody empty => exact absurd color_near_colr (empty _)
  | best here _ => exact ⟨_, visible, here⟩

end NearMiss.Lookup
