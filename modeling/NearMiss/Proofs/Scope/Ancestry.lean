import Mathlib.Data.Finset.Card
import Mathlib.Data.List.Perm.Subperm
import Mathlib.Data.Nat.Count
import NearMiss.Scope.Basic

/-! The way outwards, step by step.

`ancestor` is a number of steps to the enclosing scope, and `getElem?_chain` says
that a chain lists exactly those: the walk behind `chain` is long enough for
every scope whose way outwards ends. It ends only if it meets no scope twice
(`ancestor_injective`), and there are `Id.count` scopes to meet. What is met is
`Around` the scope, and the namespaces among it are numbered as they are met
(`NamespaceAround`); `chain` and `namespaceChain` list just these. -/
namespace NearMiss.Scope

/-- There are no more different scopes than indices for them. -/
theorem Id.length_le_of_index_lt {ids : List Id} {size : Nat} (different : ids.Nodup)
    (inside : ∀ id ∈ ids, id.index < size) : ids.length ≤ size := by
  have indices : (ids.map Id.index).Nodup :=
    different.map fun _ _ => Id.index_injective
  have least : (ids.map Id.index).Subperm (List.range size) := by
    refine List.subperm_of_subset indices fun index listed => ?_
    obtain ⟨id, on, rfl⟩ := List.mem_map.mp listed
    exact List.mem_range.mpr (inside id on)
  simpa using least.length_le

/-- The place of an entry among those that pass a test is the number of those before it. -/
theorem exists_count_of_getElem?_filter {α : Type} {test : α → Bool} {entries : List α} {entry : α}
    {passes : Nat → Prop} [DecidablePred passes] (tested : ∀ k, passes k ↔ entries[k]?.any test)
    {place : Nat} (here : (entries.filter test)[place]? = some entry) :
    ∃ k, entries[k]? = some entry ∧ place = Nat.count passes k := by
  induction entries generalizing passes place with
  | nil => cases here
  | cons head rest ih =>
    have later : ∀ k, Nat.count passes (k + 1) =
        Nat.count (fun k => passes (k + 1)) k + if test head then 1 else 0 := by
      intro k
      simp only [Nat.count_succ', show passes 0 ↔ test head from tested 0]
    have deeper : ∀ {place}, (rest.filter test)[place]? = some entry →
        ∃ k, rest[k]? = some entry ∧ place = Nat.count (fun k => passes (k + 1)) k :=
      ih fun k => tested (k + 1)
    by_cases pass : test head
    · rw [List.filter_cons_of_pos pass] at here
      cases place with
      | zero => exact ⟨0, here, (Nat.count_zero _).symm⟩
      | succ place =>
        obtain ⟨k, there, rfl⟩ := deeper here
        exact ⟨k + 1, there, by rw [later, if_pos pass]⟩
    · rw [List.filter_cons_of_neg pass] at here
      obtain ⟨k, there, rfl⟩ := deeper here
      exact ⟨k + 1, there, by rw [later, if_neg pass, Nat.add_zero]⟩

namespace Graph

/-- The scope some steps outwards. -/
def ancestor (graph : Graph) : Nat → Id → Option Id
  | 0, scope => some scope
  | steps + 1, scope => (graph.parent scope).bind (ancestor graph steps)

/-- The way outwards from a scope ends. -/
def Grounded (graph : Graph) (scope : Id) : Prop := ∃ steps, graph.ancestor steps scope = none

/-- Met on the way outwards from `start`, which is around itself. -/
def Around (graph : Graph) (start outer : Id) : Prop :=
  ∃ steps, graph.ancestor steps start = some outer

/-- A namespace around `start`, with the number of those that are met before it. -/
structure NamespaceAround (graph : Graph) (start : Id) (level : Nat) (enclosing : Id) : Prop where
  kind_eq : graph.kind enclosing = some .namespaceBody
  counted : ∃ steps, graph.ancestor steps start = some enclosing ∧ level =
    Nat.count (fun k => (graph.ancestor k start).bind graph.kind = some .namespaceBody) steps

variable {graph : Graph} {scope : Id}

theorem ancestor_add (first second : Nat) (scope : Id) :
    graph.ancestor (first + second) scope =
      (graph.ancestor first scope).bind (graph.ancestor second) := by
  induction first generalizing scope with
  | zero => rw [Nat.zero_add, ancestor, Option.bind_some]
  | succ first ih =>
    rw [Nat.succ_add, ancestor, ancestor]
    cases graph.parent scope with
    | none => rfl
    | some outer => exact ih outer

theorem ancestor_succ (steps : Nat) (scope : Id) :
    graph.ancestor (steps + 1) scope = (graph.ancestor steps scope).bind graph.parent := by
  rw [ancestor_add]
  cases graph.ancestor steps scope with
  | none => rfl
  | some outer => simp [ancestor]

/-- A way that has ended stays ended. -/
theorem ancestor_none_of_le {few many : Nat} (h : graph.ancestor few scope = none)
    (le : few ≤ many) : graph.ancestor many scope = none := by
  obtain ⟨more, rfl⟩ := Nat.exists_eq_add_of_le le
  rw [ancestor_add, h]
  rfl

/-- Going round a circle leads nowhere. -/
theorem ancestor_mul_of_circle {round : Nat} (h : graph.ancestor round scope = some scope)
    (times : Nat) : graph.ancestor (times * round) scope = some scope := by
  induction times with
  | zero => rw [Nat.zero_mul, ancestor]
  | succ times ih =>
    rw [Nat.succ_mul, ancestor_add, ih]
    exact h

/-- A way that ends meets no scope twice. -/
theorem ancestor_injective (ends : graph.Grounded scope) {i j : Nat} {met : Id}
    (hi : graph.ancestor i scope = some met) (hj : graph.ancestor j scope = some met) :
    i = j := by
  have forwards : ∀ {i j : Nat}, i < j → graph.ancestor i scope = some met →
      graph.ancestor j scope ≠ some met := by
    intro i j less hi hj
    obtain ⟨round, rfl⟩ := Nat.exists_eq_add_of_lt less
    rw [Nat.add_assoc, ancestor_add, hi, Option.bind_some] at hj
    obtain ⟨last, ended⟩ := ends
    have reached : graph.ancestor (i + last * (round + 1)) scope = some met := by
      rw [ancestor_add, hi]
      exact ancestor_mul_of_circle hj last
    have far : last ≤ i + last * (round + 1) :=
      (Nat.le_mul_of_pos_right last (Nat.succ_pos round)).trans (Nat.le_add_left _ _)
    rw [ancestor_none_of_le ended far] at reached
    cases reached
  rcases Nat.lt_trichotomy i j with less | same | more
  · exact absurd hj (forwards less hi)
  · exact same
  · exact absurd hi (forwards more hj)

/-- There are not enough scopes for a longer way. -/
theorem ancestor_count (ends : graph.Grounded scope) : graph.ancestor Id.count scope = none := by
  cases last : graph.ancestor Id.count scope with
  | none => rfl
  | some _ =>
    exfalso
    have met : ∀ k ≤ Id.count, ∃ id, graph.ancestor k scope = some id := by
      intro k hk
      cases here : graph.ancestor k scope with
      | some id => exact ⟨id, rfl⟩
      | none =>
        rw [ancestor_none_of_le here hk] at last
        cases last
    have index : ∀ k ∈ Finset.range (Id.count + 1),
        ((graph.ancestor k scope).elim 0 Id.index) ∈ Finset.range Id.count := by
      intro k hk
      obtain ⟨id, here⟩ := met k (Nat.le_of_lt_succ (Finset.mem_range.mp hk))
      rw [here]
      exact Finset.mem_range.mpr id.index_lt
    have more : (Finset.range Id.count).card < (Finset.range (Id.count + 1)).card := by
      rw [Finset.card_range, Finset.card_range]
      exact Nat.lt_succ_self _
    obtain ⟨i, hi, j, hj, apart, same⟩ :=
      Finset.exists_ne_map_eq_of_card_lt_of_maps_to more index
    obtain ⟨a, ha⟩ := met i (Nat.le_of_lt_succ (Finset.mem_range.mp hi))
    obtain ⟨b, hb⟩ := met j (Nat.le_of_lt_succ (Finset.mem_range.mp hj))
    simp only [ha, hb, Option.elim_some] at same
    cases Id.index_injective same
    exact apart (ancestor_injective ends ha hb)

/-! ### Around a scope -/

/-- What encloses a scope around the place of use is around it, too. -/
theorem Around.parent {inner outer : Id} (h : graph.Around scope inner)
    (up : graph.parent inner = some outer) : graph.Around scope outer := by
  obtain ⟨steps, way⟩ := h
  refine ⟨steps + 1, ?_⟩
  rw [ancestor_succ, way]
  exact up

theorem Around.exists_level {outer : Id} (h : graph.Around scope outer)
    (kind_eq : graph.kind outer = some .namespaceBody) :
    ∃ level, graph.NamespaceAround scope level outer :=
  h.elim fun steps way => ⟨_, kind_eq, steps, way, rfl⟩

theorem NamespaceAround.around {level : Nat} {enclosing : Id}
    (h : graph.NamespaceAround scope level enclosing) : graph.Around scope enclosing :=
  h.counted.imp fun _ => And.left

theorem NamespaceAround.unique (ends : graph.Grounded scope) {level level' : Nat} {enclosing : Id}
    (h : graph.NamespaceAround scope level enclosing)
    (h' : graph.NamespaceAround scope level' enclosing) : level = level' := by
  obtain ⟨_, steps, way, rfl⟩ := h
  obtain ⟨_, steps', way', rfl⟩ := h'
  rw [ancestor_injective ends way way']

/-! ### Chains -/

theorem getElem?_climb (steps : Nat) (scope : Id) (k : Nat) :
    (graph.climb steps scope)[k]? = if k < steps then graph.ancestor k scope else none := by
  induction steps generalizing scope k with
  | zero => simp [climb]
  | succ steps ih =>
    rw [climb]
    cases k with
    | zero => cases graph.parent scope <;> simp [ancestor]
    | succ k =>
      cases outer : graph.parent scope with
      | none => simp [ancestor, outer]
      | some outer' => simp [ancestor, outer, ih]

/-- The chain of a scope lists its ancestors in their order. -/
theorem getElem?_chain (ends : graph.Grounded scope) (k : Nat) :
    (graph.chain scope)[k]? = graph.ancestor k scope := by
  rw [chain, getElem?_climb]
  split
  · rfl
  · next far => exact (ancestor_none_of_le (ancestor_count ends) (Nat.le_of_not_lt far)).symm

/-- A list of all the scopes met on the way outwards, in their order. -/
def WayOut (graph : Graph) (scope : Id) (chain : List Id) : Prop :=
  ∀ level, chain[level]? = graph.ancestor level scope

theorem WayOut.grounded {chain : List Id} (way : graph.WayOut scope chain) :
    graph.Grounded scope :=
  ⟨chain.length, (way chain.length).symm.trans (List.getElem?_length chain)⟩

theorem WayOut.chain_eq {chain : List Id} (way : graph.WayOut scope chain) :
    graph.chain scope = chain :=
  List.ext_getElem? fun level => (getElem?_chain way.grounded level).trans (way level).symm

theorem mem_chain_iff (ends : graph.Grounded scope) {outer : Id} :
    outer ∈ graph.chain scope ↔ graph.Around scope outer := by
  simp only [List.mem_iff_getElem?, getElem?_chain ends, Around]

theorem chain_nodup (ends : graph.Grounded scope) : (graph.chain scope).Nodup := by
  refine List.nodup_iff_getElem?_ne_getElem?.mpr fun i j less bound same => ?_
  rw [getElem?_chain ends, getElem?_chain ends] at same
  obtain ⟨id, here⟩ : ∃ id, graph.ancestor j scope = some id := by
    rw [← getElem?_chain ends]
    exact ⟨_, List.getElem?_eq_getElem bound⟩
  exact absurd (ancestor_injective ends (same.trans here) here) (Nat.ne_of_lt less)

theorem mem_namespaceChain_iff {outer : Id} : outer ∈ graph.namespaceChain scope ↔
    outer ∈ graph.chain scope ∧ graph.kind outer = some .namespaceBody := by
  simp [namespaceChain]

theorem namespaceChain_nodup (ends : graph.Grounded scope) :
    (graph.namespaceChain scope).Nodup := (chain_nodup ends).filter _

/-- The namespaces of a chain come in the order of their levels. -/
theorem getElem?_namespaceChain_iff (ends : graph.Grounded scope) {level : Nat} {enclosing : Id} :
    (graph.namespaceChain scope)[level]? = some enclosing ↔
      graph.NamespaceAround scope level enclosing := by
  have counted : ∀ {level outer}, (graph.namespaceChain scope)[level]? = some outer →
      graph.NamespaceAround scope level outer := by
    intro level outer here
    refine ⟨(mem_namespaceChain_iff.mp (List.mem_of_getElem? here)).2, ?_⟩
    simp only [← getElem?_chain ends]
    refine exists_count_of_getElem?_filter (fun k => ?_) here
    cases (graph.chain scope)[k]? <;> simp
  constructor
  · exact counted
  · intro space
    have on : enclosing ∈ graph.namespaceChain scope :=
      mem_namespaceChain_iff.mpr ⟨(mem_chain_iff ends).mpr space.around, space.kind_eq⟩
    obtain ⟨level', here⟩ := List.mem_iff_getElem?.mp on
    rw [space.unique ends (counted here)]
    exact here

end Graph

end NearMiss.Scope
