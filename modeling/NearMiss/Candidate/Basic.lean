import NearMiss.Scope.Basic
import Std.Data.HashSet

/-! Names that may be meant.

A candidate is a name, where it was found, and how far away that is. The lists
of candidates for each kind of lookup all go through `firstOfEach`, which offers
a name once, where it first turned up: `mem_firstOfEach_iff` says which
candidates are left, and `firstOfEach_nodup` that no name is left twice.

The names a place of use sees are what the scopes around it declare, from the
inside out. A name's depth is then the number of scopes between its declaration
and the place of use, so a declaration hides those of the same name farther out. -/
namespace NearMiss

/-- Where a name was found. -/
inductive Origin where
  /-- In a scope around the place of use. -/
  | enclosing
  /-- In a namespace that the use does not see into, so it has to be qualified. -/
  | elsewhere (home : Scope.Id)
  /-- Among the enumerators of a scoped enumeration. -/
  | enumerator (enumeration : Scope.Id)
  /-- Among the members of a scope named by a qualifier. -/
  | member (scope : Scope.Id)
  /-- Declared by a header that is not included. -/
  | header (header : Symbol)
deriving DecidableEq

structure Candidate where
  symbol : Symbol
  origin : Origin
  /-- How many steps away it was found; 0 is nearest. -/
  depth : Nat
deriving DecidableEq

namespace Candidate

/-- Distances beyond this one are not told apart. -/
def farthest : Nat := 4294967295

def rank (steps : Nat) : Nat := min steps farthest

theorem rank_of_le {steps : Nat} (h : steps ≤ farthest) : rank steps = steps := Nat.min_eq_left h

/-- The candidates for the names one scope declares. -/
def declared (graph : Scope.Graph) (origin : Origin) (depth : Nat) (scope : Scope.Id) :
    List Candidate :=
  (graph.members scope).map fun symbol => ⟨symbol, origin, depth⟩

/-- Candidates whose names have not been seen, each name once. -/
def firstUnseen (seen : Std.HashSet Symbol) : List Candidate → List Candidate
  | [] => []
  | candidate :: rest =>
    if seen.contains candidate.symbol then firstUnseen seen rest
    else candidate :: firstUnseen (seen.insert candidate.symbol) rest

/-- Each name where it first turns up. -/
def firstOfEach (candidates : List Candidate) : List Candidate := firstUnseen ∅ candidates

/-- The names that a place of use sees. -/
def enclosing (graph : Scope.Graph) (start : Scope.Id) : List Candidate :=
  firstOfEach <| (graph.chain start).zipIdx.flatMap fun (scope, level) =>
    declared graph .enclosing (rank level) scope

/-- The direct members of the scope that a qualifier names. -/
def members (graph : Scope.Graph) (scope : Scope.Id) : List Candidate :=
  firstOfEach (declared graph (.member scope) 0 scope)

def enumerators (graph : Scope.Graph) (enumeration : Scope.Id) : List Candidate :=
  firstOfEach (declared graph (.enumerator enumeration) 0 enumeration)

/-! ### What is left -/

theorem firstUnseen_sublist (seen : Std.HashSet Symbol) (candidates : List Candidate) :
    (firstUnseen seen candidates).Sublist candidates := by
  induction candidates generalizing seen with
  | nil => exact List.Sublist.refl _
  | cons candidate rest ih =>
    unfold firstUnseen
    split
    · exact (ih seen).cons _
    · exact (ih _).cons_cons _

theorem mem_firstUnseen_iff {seen : Std.HashSet Symbol} {candidates : List Candidate}
    {candidate : Candidate} :
    candidate ∈ firstUnseen seen candidates ↔ candidate.symbol ∉ seen ∧
      candidates.find? (fun other => other.symbol == candidate.symbol) = some candidate := by
  induction candidates generalizing seen with
  | nil => simp [firstUnseen]
  | cons head rest ih =>
    by_cases same : head.symbol = candidate.symbol
    · have here : (head :: rest).find? (fun other => other.symbol == candidate.symbol) = some head :=
        List.find?_cons_of_pos (beq_iff_eq.mpr same)
      rw [here, firstUnseen]
      split
      · next known => simp [ih, ← same, Std.HashSet.mem_iff_contains.mpr known]
      · next known => simp [ih, ← same, mt Std.HashSet.mem_iff_contains.mp known, eq_comm]
    · have later : (head :: rest).find? (fun other => other.symbol == candidate.symbol) =
          rest.find? fun other => other.symbol == candidate.symbol :=
        List.find?_cons_of_neg (mt beq_iff_eq.mp same)
      have other : candidate ≠ head := fun h => same (congrArg symbol h.symm)
      rw [later, firstUnseen]
      split
      · exact ih
      · simp [ih, same, other]

/-- What is left is what comes first under its name. -/
theorem mem_firstOfEach_iff {candidates : List Candidate} {candidate : Candidate} :
    candidate ∈ firstOfEach candidates ↔
      candidates.find? (fun other => other.symbol == candidate.symbol) = some candidate := by
  simp [firstOfEach, mem_firstUnseen_iff]

theorem firstUnseen_nodup (seen : Std.HashSet Symbol) (candidates : List Candidate) :
    ((firstUnseen seen candidates).map symbol).Nodup := by
  induction candidates generalizing seen with
  | nil => simp [firstUnseen]
  | cons head rest ih =>
    unfold firstUnseen
    split
    · exact ih seen
    · refine List.nodup_cons.mpr ⟨fun h => ?_, ih _⟩
      obtain ⟨other, left, same⟩ := List.mem_map.mp h
      exact (mem_firstUnseen_iff.mp left).1 (by simp [same])

/-- No name is left twice. -/
theorem firstOfEach_nodup (candidates : List Candidate) :
    ((firstOfEach candidates).map symbol).Nodup := firstUnseen_nodup ∅ candidates

/-- A visible name is offered once, however often it is declared. -/
theorem enclosing_nodup (graph : Scope.Graph) (start : Scope.Id) :
    ((enclosing graph start).map symbol).Nodup := firstOfEach_nodup _

/-- No name is lost. -/
theorem exists_mem_firstOfEach {candidates : List Candidate} {candidate : Candidate}
    (h : candidate ∈ candidates) :
    ∃ first ∈ firstOfEach candidates, first.symbol = candidate.symbol := by
  have found : (candidates.find? fun other => other.symbol == candidate.symbol).isSome :=
    List.find?_isSome.mpr ⟨candidate, h, by simp⟩
  obtain ⟨first, earliest⟩ := Option.isSome_iff_exists.mp found
  have same : first.symbol = candidate.symbol := by simpa using List.find?_some earliest
  exact ⟨first, mem_firstOfEach_iff.mpr (same ▸ earliest), same⟩

end Candidate

end NearMiss
