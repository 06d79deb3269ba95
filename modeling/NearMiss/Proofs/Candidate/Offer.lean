import Mathlib.Data.Nat.Find
import NearMiss.Candidate.Basic
import NearMiss.Proofs.Scope.Ancestry

/-! Where each name is offered.

All candidates come from places that are gone through in some order, and a name
is offered at the first place that declares it (`mem_offers_iff`). For the names
around a place of use that is the innermost scope (`mem_enclosing_iff`). -/
namespace NearMiss.Candidate

open Scope (Graph Id)

/-! ### Each name once -/

theorem firstUnseen_eq (seen : Std.HashSet Symbol) (candidates : List Candidate) :
    firstUnseen seen candidates =
      (candidates.filter (!seen.contains ·.symbol)).eraseDupsBy
        fun later earlier => later.symbol == earlier.symbol := by
  induction candidates generalizing seen with
  | nil => rfl
  | cons first rest ih =>
    rw [firstUnseen]
    split
    · next known =>
      rw [ih, List.filter_cons_of_neg (by simp [known])]
    · next new =>
      have later : rest.filter (!(seen.insert first.symbol).contains ·.symbol) =
          (rest.filter (!seen.contains ·.symbol)).filter
            fun other => decide ((other.symbol == first.symbol) = false) := by
        rw [List.filter_filter]
        refine List.filter_congr fun other _ => ?_
        rw [Std.HashSet.contains_insert, Bool.not_or, BEq.comm, Bool.decide_eq_false]
      rw [ih, later, List.filter_cons_of_pos (by simpa using new), List.eraseDupsBy_cons]

/-- Of several candidates with one name the first is kept. -/
theorem firstOfEach_eq_eraseDupsBy (candidates : List Candidate) :
    firstOfEach candidates =
      candidates.eraseDupsBy fun later earlier => later.symbol == earlier.symbol := by
  simp [firstOfEach, firstUnseen_eq]

/-! ### In the order of the places -/

/-- What comes first in a list that is in order. -/
theorem find?_eq_some_iff_of_sorted {α : Type} {before : α → α → Prop}
    (asymm : ∀ {a b : α}, before a b → ¬before b a) {list : List α}
    (sorted : list.Pairwise before) {wanted : α → Bool} {first : α} :
    list.find? wanted = some first ↔
      first ∈ list ∧ wanted first = true ∧
        ∀ other ∈ list, wanted other = true → ¬before other first := by
  constructor
  · intro found
    obtain ⟨fits, passed, rest, rfl, unfit⟩ := List.find?_eq_some_iff_append.mp found
    refine ⟨List.mem_of_find?_eq_some found, fits, fun other on fit earlier => ?_⟩
    obtain ⟨_, after, _⟩ := List.pairwise_append.mp sorted
    rcases List.mem_append.mp on with on | on
    · have refused := unfit other on
      simp [fit] at refused
    · rcases List.mem_cons.mp on with rfl | on
      · exact asymm earlier earlier
      · exact asymm earlier ((List.pairwise_cons.mp after).1 other on)
  · intro ⟨on, fits, least⟩
    obtain ⟨found, here⟩ : ∃ found, list.find? wanted = some found :=
      Option.isSome_iff_exists.mp (List.find?_isSome.mpr ⟨first, on, fits⟩)
    obtain ⟨fit, passed, rest, rfl, unfit⟩ := List.find?_eq_some_iff_append.mp here
    obtain ⟨_, after, _⟩ := List.pairwise_append.mp sorted
    rw [here]
    rcases List.mem_append.mp on with early | late
    · have refused := unfit first early
      simp [fits] at refused
    · rcases List.mem_cons.mp late with rfl | late
      · rfl
      · exact absurd ((List.pairwise_cons.mp after).1 first late)
          (least found (List.mem_of_find?_eq_some here) fit)

theorem find?_declared (graph : Graph) (origin : Origin) (depth : Nat) (scope : Id)
    (symbol : Symbol) :
    (declared graph origin depth scope).find? (·.symbol == symbol) =
      if symbol ∈ graph.members scope then some ⟨symbol, origin, depth⟩ else none := by
  rw [declared, List.find?_map]
  by_cases known : symbol ∈ graph.members scope
  · have found : (graph.members scope).find? (· == symbol) = some symbol := by
      cases here : (graph.members scope).find? (· == symbol) with
      | none => simpa using List.find?_eq_none.mp here symbol known
      | some other =>
        have same : other = symbol := by simpa using List.find?_some here
        rw [same]
    rw [if_pos known]
    show Option.map _ ((graph.members scope).find? (· == symbol)) = _
    rw [found]
    rfl
  · have absent : (graph.members scope).find? (· == symbol) = none :=
      List.find?_eq_none.mpr fun other on same => known (beq_iff_eq.mp same ▸ on)
    rw [if_neg known]
    show Option.map _ ((graph.members scope).find? (· == symbol)) = _
    rw [absent]
    rfl

section Places
variable {α : Type} {graph : Graph} {places : List α} {origin : α → Origin} {depth : α → Nat}
  {scope : α → Id}

theorem find?_flatMap_declared (symbol : Symbol) :
    (places.flatMap fun place => declared graph (origin place) (depth place) (scope place)).find?
        (·.symbol == symbol) =
      (places.find? fun place => symbol ∈ graph.members (scope place)).map
        fun place => ⟨symbol, origin place, depth place⟩ := by
  induction places with
  | nil => rfl
  | cons place rest ih =>
    rw [List.flatMap_cons, List.find?_append, find?_declared, ih, List.find?_cons]
    by_cases known : symbol ∈ graph.members (scope place)
    · simp [known]
    · simp [known]

/-- A name is offered at the first place that declares it, once. -/
theorem mem_offers_iff {before : α → α → Prop} (asymm : ∀ {a b : α}, before a b → ¬before b a)
    (sorted : places.Pairwise before) {candidate : Candidate} :
    candidate ∈ firstOfEach
        (places.flatMap fun place => declared graph (origin place) (depth place) (scope place)) ↔
      ∃ place ∈ places, candidate = ⟨candidate.symbol, origin place, depth place⟩ ∧
        candidate.symbol ∈ graph.members (scope place) ∧
        ∀ other ∈ places, candidate.symbol ∈ graph.members (scope other) →
          ¬before other place := by
  rw [mem_firstOfEach_iff, find?_flatMap_declared, Option.map_eq_some_iff]
  simp only [find?_eq_some_iff_of_sorted asymm sorted, decide_eq_true_eq]
  constructor
  · intro ⟨place, ⟨on, known, first⟩, made⟩
    exact ⟨place, on, made.symm, known, first⟩
  · intro ⟨place, on, made, known, first⟩
    exact ⟨place, ⟨on, known, first⟩, made.symm⟩

end Places

/-! ### Around a place of use -/

theorem zipIdx_sorted {α : Type} (list : List α) : list.zipIdx.Pairwise fun a b => a.2 < b.2 := by
  apply List.pairwise_map.mp
  rw [List.zipIdx_map_snd]
  exact List.pairwise_lt_range'

/-- A name that some scope around the place of use declares, and how far out that scope is. -/
structure Visible (graph : Graph) (start : Id) (candidate : Candidate) : Prop where
  origin_eq : candidate.origin = .enclosing
  declared : ∃ scope, graph.ancestor candidate.depth start = some scope ∧
    candidate.symbol ∈ graph.members scope

/-- No chain is so long that a level of it is cut off. -/
theorem rank_level {graph : Graph} {start scope : Id} {level : Nat} (ends : graph.Grounded start)
    (here : graph.ancestor level start = some scope) : rank level = level := by
  refine rank_of_le (Nat.le_of_not_lt fun far => ?_)
  have ended := Graph.ancestor_none_of_le (Graph.ancestor_count ends) far
  rw [here] at ended
  cases ended

/-- A visible name is offered at the innermost scope that declares it. -/
theorem mem_enclosing_iff {graph : Graph} {start : Id} (ends : graph.Grounded start)
    {candidate : Candidate} :
    candidate ∈ enclosing graph start ↔ Visible graph start candidate ∧
      ∀ nearer inner, graph.ancestor nearer start = some inner →
        candidate.symbol ∈ graph.members inner → candidate.depth ≤ nearer := by
  rw [enclosing, mem_offers_iff Nat.lt_asymm (zipIdx_sorted _)]
  simp only [Prod.exists, Prod.forall, List.mem_zipIdx_iff_getElem?,
    Graph.getElem?_chain ends, Nat.not_lt]
  constructor
  · intro ⟨scope, level, here, made, known, first⟩
    rw [rank_level ends here] at made
    have depth : candidate.depth = level := congrArg Candidate.depth made
    have origin : candidate.origin = .enclosing := congrArg Candidate.origin made
    rw [← depth] at here first
    exact ⟨⟨origin, scope, here, known⟩, fun nearer inner => first inner nearer⟩
  · intro ⟨⟨origin, scope, here, known⟩, first⟩
    refine ⟨scope, candidate.depth, here, ?_, known, fun inner nearer => first nearer inner⟩
    rw [rank_level ends here, ← origin]

/-- What hides a visible name is the same name, nearer. -/
theorem exists_mem_enclosing {graph : Graph} {start : Id} (ends : graph.Grounded start)
    {candidate : Candidate} (visible : Visible graph start candidate) :
    ∃ first ∈ enclosing graph start, first.symbol = candidate.symbol ∧
      (first = candidate ∨ first.depth < candidate.depth) := by
  classical
  have somewhere : ∃ level scope, graph.ancestor level start = some scope ∧
      candidate.symbol ∈ graph.members scope := ⟨candidate.depth, visible.declared⟩
  have least : Nat.find somewhere ≤ candidate.depth := Nat.find_min' somewhere visible.declared
  refine ⟨⟨candidate.symbol, .enclosing, Nat.find somewhere⟩, ?_, rfl, ?_⟩
  · refine (mem_enclosing_iff ends).mpr ⟨⟨rfl, Nat.find_spec somewhere⟩, ?_⟩
    intro nearer inner here known
    exact Nat.find_min' somewhere ⟨inner, here, known⟩
  · rcases Nat.lt_or_eq_of_le least with closer | same
    · exact .inr closer
    · apply Or.inl
      rw [same, ← visible.origin_eq]

/-! ### In one scope -/

/-- A name that the scope itself declares. -/
structure Inside (graph : Graph) (origin : Origin) (scope : Id) (candidate : Candidate) : Prop where
  origin_eq : candidate.origin = origin
  depth_eq : candidate.depth = 0
  declared : candidate.symbol ∈ graph.members scope

theorem mem_firstOfEach_declared_iff {graph : Graph} {origin : Origin} {scope : Id}
    {candidate : Candidate} :
    candidate ∈ firstOfEach (declared graph origin 0 scope) ↔
      Inside graph origin scope candidate := by
  rw [mem_firstOfEach_iff, find?_declared]
  obtain ⟨symbol, place, depth⟩ := candidate
  constructor
  · intro found
    split at found
    · next known =>
      cases found
      exact ⟨rfl, rfl, known⟩
    · cases found
  · intro ⟨origin_eq, depth_eq, known⟩
    cases origin_eq
    cases depth_eq
    exact if_pos known

end NearMiss.Candidate
