import Mathlib.Order.Bounds.Basic
import NearMiss.Proofs.Candidate.Offer
import NearMiss.Proofs.Scope.Descent

/-! The order in which visible names are offered.

Names that are seen at one place are not offered at a later one, so the order of
the places is the order of the offers (`pairwise_firstUnseen`), and within a place
it is that of the first declarations (`firstUnseen_declared_sorted`). Around a
place of use the places are the scopes, innermost first: `enclosing_sorted`. -/
namespace NearMiss.Candidate

open Scope (Graph Id)
open Scope.Graph (loose wayOut_loose)

/-! ### In any order of places -/

/-- What is seen in a first part of a list changes only what is left of the rest. -/
theorem firstUnseen_append (seen : Std.HashSet Symbol) (candidates : List Candidate) :
    ∃ known, ∀ rest, firstUnseen seen (candidates ++ rest) =
      firstUnseen seen candidates ++ firstUnseen known rest := by
  induction candidates generalizing seen with
  | nil => exact ⟨seen, fun rest => rfl⟩
  | cons first candidates ih =>
    by_cases known : seen.contains first.symbol
    · obtain ⟨known', parts⟩ := ih seen
      refine ⟨known', fun rest => ?_⟩
      simp only [List.cons_append, firstUnseen, known, if_true, parts]
    · obtain ⟨known', parts⟩ := ih (seen.insert first.symbol)
      refine ⟨known', fun rest => ?_⟩
      simp only [List.cons_append, firstUnseen, known, parts]
      rfl

section Places
variable {α : Type} {graph : Graph} {places : List α} {origin : α → Origin} {depth : α → Nat}
  {scope : α → Id} {before : Candidate → Candidate → Prop}

/-- What is in order within each place, and from each place to the later ones, is in order. -/
theorem pairwise_firstUnseen
    (within : ∀ place ∈ places, ∀ seen, (firstUnseen seen
      (declared graph (origin place) (depth place) (scope place))).Pairwise before)
    (across : places.Pairwise fun near far =>
      ∀ a ∈ declared graph (origin near) (depth near) (scope near),
        ∀ b ∈ declared graph (origin far) (depth far) (scope far), before a b)
    (seen : Std.HashSet Symbol) :
    (firstUnseen seen (places.flatMap fun place =>
      declared graph (origin place) (depth place) (scope place))).Pairwise before := by
  induction places generalizing seen with
  | nil => exact .nil
  | cons place rest ih =>
    obtain ⟨far, across⟩ := List.pairwise_cons.mp across
    obtain ⟨known, parts⟩ :=
      firstUnseen_append seen (declared graph (origin place) (depth place) (scope place))
    rw [List.flatMap_cons, parts, List.pairwise_append]
    refine ⟨within place List.mem_cons_self seen,
      ih (fun other on => within other (List.mem_cons_of_mem _ on)) across known, ?_⟩
    intro a first b second
    obtain ⟨other, on, later⟩ :=
      List.mem_flatMap.mp ((firstUnseen_sublist known _).subset second)
    exact far other on a ((firstUnseen_sublist seen _).subset first) b later

end Places

/-- The names of one scope are offered in the order in which they were first declared. -/
theorem firstUnseen_declared_sorted (graph : Graph) (origin : Origin) (depth : Nat) (scope : Id)
    (seen : Std.HashSet Symbol) :
    (firstUnseen seen (declared graph origin depth scope)).Pairwise fun a b =>
      (graph.members scope).idxOf a.symbol < (graph.members scope).idxOf b.symbol := by
  rw [declared]
  induction graph.members scope generalizing seen with
  | nil => exact .nil
  | cons name rest ih =>
    -- a name that is left in the rest is not the first one, so its place is one later
    have shift : ∀ {seen : Std.HashSet Symbol}, seen.contains name = true →
        (firstUnseen seen (rest.map fun symbol => ⟨symbol, origin, depth⟩)).Pairwise fun a b =>
          (name :: rest).idxOf a.symbol < (name :: rest).idxOf b.symbol := by
      intro seen known
      refine (ih seen).imp_of_mem fun {a b} first second less => ?_
      have other : ∀ {c}, c ∈ firstUnseen seen (rest.map fun symbol => ⟨symbol, origin, depth⟩) →
          name ≠ c.symbol := by
        rintro c left rfl
        exact (mem_firstUnseen_iff.mp left).1 (Std.HashSet.mem_iff_contains.mpr known)
      rw [List.idxOf_cons_ne _ (other first), List.idxOf_cons_ne _ (other second)]
      exact Nat.succ_lt_succ less
    rw [List.map_cons, firstUnseen]
    split
    · next known => exact shift known
    · next new =>
      have kept : (seen.insert name).contains name = true := by simp
      refine List.pairwise_cons.mpr ⟨fun later left => ?_, shift kept⟩
      have other : name ≠ later.symbol := by
        rintro rfl
        exact (mem_firstUnseen_iff.mp left).1 (Std.HashSet.mem_iff_contains.mpr kept)
      rw [List.idxOf_cons_self, List.idxOf_cons_ne _ other]
      exact Nat.succ_pos _

/-! ### Around a place of use -/

/-- The scope some steps outwards declares a name. -/
def DeclaredAt (graph : Graph) (start : Id) (symbol : Symbol) (level : Nat) : Prop :=
  ∃ scope, graph.ancestor level start = some scope ∧ symbol ∈ graph.members scope

/-- One name comes before another: it is nearer, or it is declared in the same scope and comes
first among its members. -/
def Sooner (graph : Graph) (start : Id) (a b : Candidate) : Prop :=
  a.depth < b.depth ∨ a.depth = b.depth ∧ ∀ scope, graph.ancestor a.depth start = some scope →
    (graph.members scope).idxOf a.symbol < (graph.members scope).idxOf b.symbol

section Grounded
variable {graph : Graph} {start : Id} (ends : graph.Grounded start)
include ends

theorem depth_of_mem_declared {place : Id × Nat} (on : place ∈ (graph.chain start).zipIdx)
    {candidate : Candidate}
    (declares : candidate ∈ declared graph .enclosing (rank place.2) place.1) :
    candidate.depth = place.2 ∧ graph.ancestor candidate.depth start = some place.1 := by
  have here : graph.ancestor place.2 start = some place.1 := by
    rw [← Graph.getElem?_chain ends]
    exact List.mem_zipIdx_iff_getElem?.mp on
  obtain ⟨symbol, _, rfl⟩ := List.mem_map.mp declares
  rw [rank_level ends here]
  exact ⟨rfl, here⟩

theorem enclosing_sorted : (enclosing graph start).Pairwise (Sooner graph start) := by
  refine pairwise_firstUnseen (fun place on seen => ?_) ?_ ∅
  · refine (firstUnseen_declared_sorted graph _ _ place.1 seen).imp_of_mem
      fun {a b} first second less => .inr ?_
    obtain ⟨level, here⟩ :=
      depth_of_mem_declared ends on ((firstUnseen_sublist seen _).subset first)
    obtain ⟨level', _⟩ :=
      depth_of_mem_declared ends on ((firstUnseen_sublist seen _).subset second)
    refine ⟨level.trans level'.symm, fun scope there => ?_⟩
    cases here.symm.trans there
    exact less
  · refine (zipIdx_sorted _).imp_of_mem fun {near far} on on' less a first b second => .inl ?_
    obtain ⟨level, _⟩ := depth_of_mem_declared ends on first
    obtain ⟨level', _⟩ := depth_of_mem_declared ends on' second
    omega

/-- **Every visible name is offered once, where it is nearest.** The names that are offered are
those that some scope around the place of use declares, and none of them twice; each is as far
away as the nearest scope that declares it; and they are offered from the inside out, those of
one scope in the order in which it first declares them. -/
theorem enclosing_offers_each_where_nearest :
    ((enclosing graph start).map symbol).Nodup ∧
    (∀ name, name ∈ (enclosing graph start).map symbol ↔
      ∃ level, DeclaredAt graph start name level) ∧
    (∀ candidate ∈ enclosing graph start, candidate.origin = .enclosing ∧
      IsLeast {level | DeclaredAt graph start candidate.symbol level} candidate.depth) ∧
    (enclosing graph start).Pairwise (Sooner graph start) := by
  refine ⟨enclosing_nodup graph start, fun name => ?_, fun candidate on => ?_,
    enclosing_sorted ends⟩
  · constructor
    · intro offered
      obtain ⟨candidate, on, rfl⟩ := List.mem_map.mp offered
      exact ⟨candidate.depth, ((mem_enclosing_iff ends).mp on).1.declared⟩
    · intro ⟨level, declares⟩
      have visible : Visible graph start ⟨name, .enclosing, level⟩ := ⟨rfl, declares⟩
      obtain ⟨first, on, same, _⟩ := exists_mem_enclosing ends visible
      exact List.mem_map.mpr ⟨first, on, same⟩
  · obtain ⟨visible, nearest⟩ := (mem_enclosing_iff ends).mp on
    refine ⟨visible.origin_eq, visible.declared, ?_⟩
    intro level ⟨scope, here, declares⟩
    exact nearest level scope here declares

end Grounded

theorem enclosing_loose :
    enclosing loose ⟨4⟩ =
      [⟨⟨13⟩, .enclosing, 0⟩, ⟨⟨12⟩, .enclosing, 0⟩, ⟨⟨14⟩, .enclosing, 1⟩,
        ⟨⟨11⟩, .enclosing, 2⟩] := by
  rw [enclosing, firstOfEach_eq_eraseDupsBy, wayOut_loose.chain_eq]
  decide

/-- A name that is listed twice, and again in both scopes farther out, is offered once. -/
theorem loose_offered_in_order :
    loose.Grounded ⟨4⟩ ∧
    IsLeast {level | DeclaredAt loose ⟨4⟩ ⟨12⟩ level} 0 ∧
    DeclaredAt loose ⟨4⟩ ⟨12⟩ 2 ∧
    Sooner loose ⟨4⟩ ⟨⟨13⟩, .enclosing, 0⟩ ⟨⟨12⟩, .enclosing, 0⟩ := by
  have ends := wayOut_loose.grounded
  obtain ⟨_, _, nearest, sorted⟩ := enclosing_offers_each_where_nearest ends
  rw [enclosing_loose] at nearest sorted
  refine ⟨ends, (nearest ⟨⟨12⟩, .enclosing, 0⟩ (by decide)).2, ⟨⟨0⟩, rfl, by decide⟩, ?_⟩
  exact (List.pairwise_cons.mp sorted).1 _ List.mem_cons_self

end NearMiss.Candidate
