import NearMiss.Proofs.Candidate.Walk
import NearMiss.Proofs.Scope.Outside

/-! Where a name from elsewhere is offered.

A name is offered once, where the first route to a namespace that declares it
leads (`mem_elsewhere_iff`). That is its closest position only if no later route
is shorter, and one may be: the search goes all the way down before it goes to
the next namespace beside. -/
namespace NearMiss.Candidate

open Scope (Graph Id Tree)

/-- A route to a namespace that declares the name. -/
structure Leads (graph : Graph) (start : Id) (symbol : Symbol) (route : Nat × List Id) (home : Id) :
    Prop where
  goes : graph.Route start route.1 route.2
  ends : route.2.getLast? = some home
  declares : symbol ∈ graph.members home

/-- The first of these routes. -/
structure LeadsFirst (graph : Graph) (start : Id) (symbol : Symbol) (route : Nat × List Id)
    (home : Id) : Prop extends Leads graph start symbol route home where
  least : ∀ other inner, Leads graph start symbol other inner → ¬Graph.Earlier other route

/-- Some namespace that the place of use does not see into declares the name. -/
def DeclaredElsewhere (graph : Graph) (start : Id) (symbol : Symbol) : Prop :=
  ∃ home steps, graph.Outlying start home steps ∧ symbol ∈ graph.members home

/-- The name is offered once, at a namespace that no other of those that declare it is
closer than. -/
def KeepsClosest (graph : Graph) (start : Id) (symbol : Symbol) : Prop :=
  ∃ home steps,
    (elsewhere graph start).filter (·.symbol = symbol) = [⟨symbol, .elsewhere home, steps⟩] ∧
    graph.Outlying start home steps ∧ symbol ∈ graph.members home ∧
    ∀ other further, graph.Outlying start other further → symbol ∈ graph.members other →
      steps ≤ further

theorem Leads.home_eq {graph : Graph} {start : Id} {symbol : Symbol} {route : Nat × List Id}
    {home : Id} (leads : Leads graph start symbol route home) : home = route.2.getLastD start :=
  Option.some.inj (leads.ends.symm.trans leads.goes.getLast?_eq)

theorem Leads.outlying {graph : Graph} {start : Id} {symbol : Symbol} {route : Nat × List Id}
    {home : Id} (leads : Leads graph start symbol route home) :
    graph.Outlying start home (route.1 + route.2.length) :=
  ⟨route.1, route.2, leads.goes, leads.ends, rfl⟩

theorem declaredElsewhere_iff {graph : Graph} {start : Id} {symbol : Symbol} :
    DeclaredElsewhere graph start symbol ↔ ∃ route home, Leads graph start symbol route home := by
  constructor
  · intro ⟨home, _, ⟨level, path, goes, ends, _⟩, declares⟩
    exact ⟨(level, path), home, goes, ends, declares⟩
  · intro ⟨_, home, leads⟩
    exact ⟨home, _, leads.outlying, leads.declares⟩

theorem declaredElsewhere_iff_outside {graph : Graph} {start : Id} {symbol : Symbol} :
    DeclaredElsewhere graph start symbol ↔
      ∃ home, graph.Outside start home ∧ symbol ∈ graph.members home := by
  simp only [DeclaredElsewhere, Graph.outside_iff]
  constructor
  · intro ⟨home, steps, outlying, declares⟩
    exact ⟨home, ⟨steps, outlying⟩, declares⟩
  · intro ⟨home, ⟨steps, outlying⟩, declares⟩
    exact ⟨home, steps, outlying, declares⟩

/-- A name that is among different names once is the only one of its kind. -/
theorem filter_symbol_eq {candidates : List Candidate} (different : (candidates.map symbol).Nodup)
    {candidate : Candidate} (on : candidate ∈ candidates) :
    candidates.filter (·.symbol = candidate.symbol) = [candidate] := by
  induction candidates with
  | nil => cases on
  | cons head rest ih =>
    rw [List.map_cons, List.nodup_cons] at different
    obtain ⟨apart, different⟩ := different
    rcases List.mem_cons.mp on with rfl | on
    · rw [List.filter_cons_of_pos (by simp)]
      refine congrArg (List.cons candidate) (List.filter_eq_nil_iff.mpr fun other on same => ?_)
      exact apart (of_decide_eq_true same ▸ List.mem_map_of_mem on)
    · rw [List.filter_cons_of_neg, ih different on]
      intro same
      exact apart (of_decide_eq_true same ▸ List.mem_map_of_mem on)

section Sound
variable {tree : Tree} (h : tree.Sound) (small : tree.size ≤ Id.count) {start : Id}
  (owned : start.index < tree.size)
include h small owned

/-- A name from elsewhere is offered where the first route to a declaration leads. -/
theorem mem_elsewhere_iff {candidate : Candidate} :
    candidate ∈ elsewhere tree.graph start ↔
      ∃ route home, LeadsFirst tree.graph start candidate.symbol route home ∧
        candidate = ⟨candidate.symbol, .elsewhere home, route.1 + route.2.length⟩ := by
  rw [elsewhere, namespacesElsewhere_eq, List.flatMap_map,
    mem_offers_iff Graph.Earlier.asymm (routes_sorted h start)]
  constructor
  · intro ⟨route, on, made, declares, first⟩
    have goes := (mem_routes_iff h).mp on
    refine ⟨route, _, ⟨⟨goes, goes.getLast?_eq, declares⟩, fun other inner leads => ?_⟩, ?_⟩
    · exact first other ((mem_routes_iff h).mpr leads.goes) (leads.home_eq ▸ leads.declares)
    · rw [← rank_route h on owned small]
      exact made
  · intro ⟨route, home, first, made⟩
    have on := (mem_routes_iff h).mpr first.goes
    have here := first.home_eq
    refine ⟨route, on, ?_, here ▸ first.declares, fun other listed declares => ?_⟩
    · rw [rank_route h on owned small, ← here]
      exact made
    · have goes := (mem_routes_iff h).mp listed
      exact first.least other _ ⟨goes, goes.getLast?_eq, declares⟩

theorem LeadsFirst.filter_eq {symbol : Symbol} {route : Nat × List Id} {home : Id}
    (first : LeadsFirst tree.graph start symbol route home) :
    (elsewhere tree.graph start).filter (·.symbol = symbol) =
      [⟨symbol, .elsewhere home, route.1 + route.2.length⟩] := by
  have offered : ⟨symbol, .elsewhere home, route.1 + route.2.length⟩ ∈ elsewhere tree.graph start :=
    (mem_elsewhere_iff h small owned).mpr ⟨route, home, first, rfl⟩
  exact (filter_symbol_eq (elsewhere_nodup _ _) offered :)

/-- Every name declared elsewhere is offered. -/
theorem exists_mem_elsewhere_iff {symbol : Symbol} :
    (∃ candidate ∈ elsewhere tree.graph start, candidate.symbol = symbol) ↔
      DeclaredElsewhere tree.graph start symbol := by
  rw [declaredElsewhere_iff]
  constructor
  · intro ⟨candidate, on, same⟩
    rw [← same]
    obtain ⟨route, home, first, _⟩ := (mem_elsewhere_iff h small owned).mp on
    exact ⟨route, home, first.toLeads⟩
  · intro ⟨route, home, leads⟩
    have on := (mem_routes_iff h).mpr leads.goes
    have listed : (⟨symbol, .elsewhere home, rank (route.1 + route.2.length)⟩ : Candidate) ∈
        (namespacesElsewhere tree.graph start).flatMap fun place =>
          declared tree.graph (.elsewhere place.1) place.2 place.1 := by
      rw [namespacesElsewhere_eq, List.flatMap_map, List.mem_flatMap]
      refine ⟨route, on, List.mem_map.mpr ⟨symbol, ?_, ?_⟩⟩
      · rw [← leads.home_eq]
        exact leads.declares
      · rw [← leads.home_eq]
    exact exists_mem_firstOfEach listed

/-- Every candidate from elsewhere names an outlying namespace that declares it. -/
theorem outside_of_mem_elsewhere {candidate : Candidate}
    (on : candidate ∈ elsewhere tree.graph start) :
    ∃ home, candidate.origin = .elsewhere home ∧ tree.graph.Outside start home ∧
      candidate.symbol ∈ tree.graph.members home := by
  obtain ⟨route, home, first, made⟩ := (mem_elsewhere_iff h small owned).mp on
  have outside := Graph.outside_iff.mpr ⟨_, first.outlying⟩
  exact ⟨home, congrArg Candidate.origin made, outside, first.declares⟩

/-- Every name that an outlying namespace declares is a candidate. -/
theorem exists_mem_elsewhere_of_outside {home : Id} {symbol : Symbol}
    (outside : tree.graph.Outside start home) (declared : symbol ∈ tree.graph.members home) :
    ∃ candidate ∈ elsewhere tree.graph start, candidate.symbol = symbol :=
  (exists_mem_elsewhere_iff h small owned).mpr
    (declaredElsewhere_iff_outside.mpr ⟨home, outside, declared⟩)

theorem exists_leadsFirst {symbol : Symbol} (declares : DeclaredElsewhere tree.graph start symbol) :
    ∃ route home, LeadsFirst tree.graph start symbol route home := by
  obtain ⟨candidate, on, rfl⟩ := (exists_mem_elsewhere_iff h small owned).mpr declares
  obtain ⟨route, home, first, _⟩ := (mem_elsewhere_iff h small owned).mp on
  exact ⟨route, home, first⟩

end Sound

/-! ### A name declared twice -/

/-- Two namespaces beside each other, with a name declared in a namespace inside the first
and in the second itself. -/
def twinned : Tree :=
  Tree.empty.grow [
    .openScope Tree.root .namespaceBody none,
    .openScope ⟨1⟩ .namespaceBody none,
    .openScope Tree.root .namespaceBody none,
    .declare ⟨2⟩ ⟨1⟩,
    .declare ⟨3⟩ ⟨1⟩]

theorem routes_twinned :
    routes twinned.graph Tree.root = [(0, [⟨1⟩]), (0, [⟨1⟩, ⟨2⟩]), (0, [⟨3⟩])] := by
  decide +kernel

theorem sound_twinned : twinned.Sound := Tree.Made.sound ⟨_, rfl⟩ (by decide)

/-- The second of the two namespaces is one step away. -/
theorem outlying_twinned : twinned.graph.Outlying Tree.root ⟨3⟩ 1 := by
  refine ⟨0, [⟨3⟩], (mem_routes_iff sound_twinned).mp ?_, rfl, rfl⟩
  rw [routes_twinned]
  decide

theorem declares_twinned : ⟨1⟩ ∈ twinned.graph.members ⟨3⟩ := by decide +kernel

/-- The name is offered where it lies deeper. -/
theorem mem_elsewhere_twinned :
    ⟨⟨1⟩, .elsewhere ⟨2⟩, 2⟩ ∈ elsewhere twinned.graph Tree.root := by
  rw [elsewhere, mem_firstOfEach_iff, namespacesElsewhere_eq, routes_twinned]
  decide +kernel

/-- A name that is declared nowhere else is not offered. Any other is offered once, where the
first route to a declaration leads, and this is its closest position exactly if no other
declaration is fewer steps away than that route is long. -/
theorem offered_where_first_route_leads {tree : Tree} (made : tree.Made)
    (small : tree.size ≤ Id.count) {start : Id} (owned : start.index < tree.size)
    (symbol : Symbol) :
    (¬DeclaredElsewhere tree.graph start symbol →
      (elsewhere tree.graph start).filter (·.symbol = symbol) = []) ∧
    (DeclaredElsewhere tree.graph start symbol →
      ∃ route home, LeadsFirst tree.graph start symbol route home ∧
        (elsewhere tree.graph start).filter (·.symbol = symbol) =
          [⟨symbol, .elsewhere home, route.1 + route.2.length⟩] ∧
        (KeepsClosest tree.graph start symbol ↔
          ∀ other further, tree.graph.Outlying start other further →
            symbol ∈ tree.graph.members other → route.1 + route.2.length ≤ further)) := by
  have h := made.sound small
  constructor
  · intro absent
    refine List.filter_eq_nil_iff.mpr fun candidate on same => absent ?_
    exact (exists_mem_elsewhere_iff h small owned).mp ⟨candidate, on, of_decide_eq_true same⟩
  · intro declares
    obtain ⟨route, home, first⟩ := exists_leadsFirst h small owned declares
    have only := first.filter_eq h small owned
    refine ⟨route, home, first, only, ?_⟩
    constructor
    · intro ⟨inner, steps, kept, _, _, closest⟩
      rw [only] at kept
      cases kept
      exact closest
    · intro shortest
      exact ⟨home, _, only, first.outlying, first.declares, shortest⟩

theorem twinned_offered_once :
    twinned.Made ∧ twinned.size ≤ Id.count ∧ Tree.root.index < twinned.size ∧
      DeclaredElsewhere twinned.graph Tree.root ⟨1⟩ ∧
      ∃ route home, LeadsFirst twinned.graph Tree.root ⟨1⟩ route home ∧
        (elsewhere twinned.graph Tree.root).filter (·.symbol = ⟨1⟩) =
          [⟨⟨1⟩, .elsewhere home, route.1 + route.2.length⟩] := by
  have declares : DeclaredElsewhere twinned.graph Tree.root ⟨1⟩ :=
    ⟨⟨3⟩, 1, outlying_twinned, declares_twinned⟩
  obtain ⟨route, home, first, only, _⟩ :=
    (offered_where_first_route_leads ⟨_, rfl⟩ (by decide) (by decide) ⟨1⟩).2 declares
  exact ⟨⟨_, rfl⟩, by decide, by decide, declares, route, home, first, only⟩

/-- A name is not always kept where it is closest: one that lies deeper in an earlier namespace
hides it. -/
theorem deep_name_hides_near_one :
    ¬∀ {tree : Tree} {start : Id}, tree.Made → tree.size ≤ Id.count → start.index < tree.size →
      ∀ symbol, DeclaredElsewhere tree.graph start symbol →
        KeepsClosest tree.graph start symbol := by
  intro always
  obtain ⟨home, steps, only, _, _, closest⟩ :=
    @always twinned Tree.root ⟨_, rfl⟩ (by decide) (by decide) ⟨1⟩
      ⟨⟨3⟩, 1, outlying_twinned, declares_twinned⟩
  have offered : ⟨⟨1⟩, .elsewhere ⟨2⟩, 2⟩ ∈
      (elsewhere twinned.graph Tree.root).filter (·.symbol = ⟨1⟩) :=
    List.mem_filter.mpr ⟨mem_elsewhere_twinned, rfl⟩
  rw [only, List.mem_singleton] at offered
  cases offered
  have near : 2 ≤ 1 := closest ⟨3⟩ 1 outlying_twinned declares_twinned
  omega

end NearMiss.Candidate
