import Mathlib.Data.Prod.Lex
import Mathlib.Data.String.Basic
import NearMiss.Proofs.Contest
import NearMiss.Proofs.Lookup.Visible

/-! Who leads a contest while the candidates come in.

At every point the best so far is the first, among the candidates seen that take
part, of those with the least key: edits, then nearness, then the text
(`FirstBest`). One more candidate keeps that (`Leads.consider`): it takes the
lead only with a smaller key, so of equal ones the earliest stays. -/
namespace NearMiss

namespace Entrant

/-- What entrants are compared by. Texts are compared character by character, in the order of
their code points. -/
def key (entrant : Entrant) : Nat ×ₗ Nat ×ₗ List Char :=
  toLex (entrant.distance, toLex (entrant.candidate.depth, entrant.text.toList))

theorem beats_iff_key_lt {a b : Entrant} : a.Beats b ↔ a.key < b.key := by
  rw [key, key, Prod.Lex.toLex_lt_toLex, Prod.Lex.toLex_lt_toLex]
  exact Iff.rfl

end Entrant

namespace Contest

/-- Who takes part: in a contest for an exact name whoever has the name that was written, with no
edits; in one for near names whoever has another name, with at most so many edits. -/
inductive Admits (contest : Contest) (entrant : Entrant) : Prop
  | exact : contest.acceptance = .exact →
      contest.lexicon.text? entrant.candidate.symbol = some entrant.text →
        entrant.candidate.symbol = contest.target → entrant.distance = 0 → Admits contest entrant
  | near {cap : Nat} : contest.acceptance = .within cap →
      contest.lexicon.text? entrant.candidate.symbol = some entrant.text →
        entrant.candidate.symbol ≠ contest.target →
          contest.metric.distance contest.targetText entrant.text = entrant.distance →
            entrant.distance ≤ cap → Admits contest entrant

/-- Nobody among the candidates has a smaller key than this entrant, and nobody before it has
the same one. -/
def FirstBest (contest : Contest) (candidates : List Candidate) (best : Entrant) : Prop :=
  contest.Admits best ∧ ∃ place : Nat, candidates[place]? = some best.candidate ∧
    ∀ (place' : Nat) (rival : Entrant), candidates[place']? = some rival.candidate →
      contest.Admits rival → best.key ≤ rival.key ∧ (place' < place → best.key < rival.key)

/-- The lead after some candidates. -/
inductive Leads (contest : Contest) (seen : List Candidate) : Option Entrant → Prop
  | nobody : (∀ rival, contest.Admits rival → rival.candidate ∉ seen) → Leads contest seen none
  | best {leader : Entrant} : contest.FirstBest seen leader → Leads contest seen (some leader)

variable {contest : Contest}

theorem entrant?_eq_some_iff_admits {candidate : Candidate} {entrant : Entrant} :
    contest.entrant? candidate = some entrant ↔
      entrant.candidate = candidate ∧ contest.Admits entrant := by
  cases accepts : contest.acceptance with
  | exact =>
    simp only [entrant?, edits?, accepts, Option.bind_eq_some_iff, Option.map_eq_some_iff]
    constructor
    · rintro ⟨text, spelled, distance, qualified, made⟩
      split at qualified
      · next same =>
        cases qualified
        cases made
        exact ⟨rfl, .exact accepts spelled same rfl⟩
      · cases qualified
    · rintro ⟨rfl, admitted⟩
      cases admitted with
      | exact _ spelled same none => exact ⟨entrant.text, spelled, 0, if_pos same, none ▸ rfl⟩
      | near other => cases accepts.symm.trans other
  | within cap =>
    rw [entrant?_eq_some_iff accepts]
    constructor
    · rintro ⟨rfl, other, spelled, measured, close⟩
      exact ⟨rfl, .near accepts spelled other (measured ▸ contest.metric.distance_eq _ _) close⟩
    · rintro ⟨rfl, admitted⟩
      cases admitted with
      | exact other => cases accepts.symm.trans other
      | near accepts' spelled other measured close =>
        cases accepts.symm.trans accepts'
        exact ⟨rfl, other, spelled, measured ▸ (contest.metric.distance_eq _ _).symm, close⟩

/-- A candidate takes part in one way at most. -/
theorem Admits.unique {a b : Entrant} (ha : contest.Admits a) (hb : contest.Admits b)
    (same : a.candidate = b.candidate) : a = b :=
  Option.some.inj ((entrant?_eq_some_iff_admits.mpr ⟨rfl, ha⟩).symm.trans
    (entrant?_eq_some_iff_admits.mpr ⟨same.symm, hb⟩))

/-- There is one first best at most. -/
theorem FirstBest.unique {candidates : List Candidate} {a b : Entrant}
    (ha : contest.FirstBest candidates a) (hb : contest.FirstBest candidates b) : a = b := by
  obtain ⟨admitted, place, here, best⟩ := ha
  obtain ⟨admitted', place', here', best'⟩ := hb
  rcases Nat.lt_trichotomy place place' with before | same | after
  · have less := (best' place a here admitted).2 before
    exact absurd less (not_lt.mpr (best place' b here' admitted').1)
  · subst same
    exact admitted.unique admitted' (Option.some.inj (here.symm.trans here'))
  · have less := (best place' b here' admitted').2 after
    exact absurd less (not_lt.mpr (best' place a here admitted).1)

/-! ### One more candidate -/

section Concat
variable {seen : List Candidate} {candidate : Candidate}

/-- A place in the longer list is one of the shorter list or the new one. -/
theorem getElem?_concat_cases {place : Nat} {other : Candidate}
    (here : (seen ++ [candidate])[place]? = some other) :
    place < seen.length ∧ seen[place]? = some other ∨ place = seen.length ∧ other = candidate := by
  rcases Nat.lt_or_ge place seen.length with inside | behind
  · rw [List.getElem?_append_left inside] at here
    exact .inl ⟨inside, here⟩
  · rw [List.getElem?_append_right behind] at here
    obtain ⟨last, same⟩ := List.getElem?_eq_some_iff.mp here
    simp only [List.length_singleton, Nat.lt_one_iff] at last
    simp only [last, List.getElem_cons_zero] at same
    exact .inr ⟨by omega, same.symm⟩

theorem getElem?_concat_of_some {place : Nat} {other : Candidate}
    (here : seen[place]? = some other) : (seen ++ [candidate])[place]? = some other := by
  rw [List.getElem?_append_left (List.getElem?_eq_some_iff.mp here).1]
  exact here

/-- The leader stays if whoever comes next has no smaller key, or does not take part. -/
theorem FirstBest.concat {leader : Entrant} (h : contest.FirstBest seen leader)
    (least : ∀ rival, contest.Admits rival → rival.candidate = candidate →
      leader.key ≤ rival.key) : contest.FirstBest (seen ++ [candidate]) leader := by
  obtain ⟨admitted, place, here, best⟩ := h
  refine ⟨admitted, place, getElem?_concat_of_some here, fun place' rival there takes => ?_⟩
  rcases getElem?_concat_cases there with ⟨_, there⟩ | ⟨rfl, same⟩
  · exact best place' rival there takes
  · have inside := (List.getElem?_eq_some_iff.mp here).1
    exact ⟨least rival takes same, fun before => by omega⟩

/-- A newcomer leads if its key is smaller than that of everyone before it. -/
theorem firstBest_concat {newcomer : Entrant} (admitted : contest.Admits newcomer)
    (less : ∀ rival, contest.Admits rival → rival.candidate ∈ seen → newcomer.key < rival.key) :
    contest.FirstBest (seen ++ [newcomer.candidate]) newcomer := by
  refine ⟨admitted, seen.length, List.getElem?_concat_length, fun place rival there takes => ?_⟩
  rcases getElem?_concat_cases there with ⟨_, there⟩ | ⟨rfl, same⟩
  · have smaller := less rival takes (List.mem_of_getElem? there)
    exact ⟨smaller.le, fun _ => smaller⟩
  · rw [takes.unique admitted same]
    exact ⟨le_rfl, fun before => absurd before (Nat.lt_irrefl _)⟩

/-- A candidate that does not take part changes nothing. -/
theorem Leads.pass {holder : Option Entrant} (h : contest.Leads seen holder)
    (out : ∀ rival, contest.Admits rival → rival.candidate ≠ candidate) :
    contest.Leads (seen ++ [candidate]) holder := by
  cases h with
  | nobody empty =>
    refine .nobody fun rival takes on => ?_
    rcases List.mem_append.mp on with on | same
    · exact empty rival takes on
    · exact out rival takes (List.mem_singleton.mp same)
  | best first => exact .best (first.concat fun rival takes same => absurd same (out rival takes))

/-- One that takes part is compared with the leader, if there is one. -/
theorem Leads.enter {holder : Option Entrant} (h : contest.Leads seen holder) {newcomer : Entrant}
    (admitted : contest.Admits newcomer) :
    contest.Leads (seen ++ [newcomer.candidate]) (some (newcomer.orBest holder)) := by
  cases h with
  | nobody empty =>
    exact .best (firstBest_concat admitted fun rival takes on => absurd on (empty rival takes))
  | @best leader first =>
    rw [Entrant.orBest]
    split
    · next better =>
      have smaller := Entrant.beats_iff_key_lt.mp better
      refine .best (firstBest_concat admitted fun rival takes on => ?_)
      obtain ⟨_, place, _, best⟩ := first
      obtain ⟨place', there⟩ := List.getElem?_of_mem on
      exact smaller.trans_le (best place' rival there takes).1
    · next unbeaten =>
      have least := not_lt.mp (mt Entrant.beats_iff_key_lt.mpr unbeaten)
      refine .best (first.concat fun rival takes same => ?_)
      rw [takes.unique admitted same]
      exact least

theorem Leads.consider {holder : Option Entrant} (h : contest.Leads seen holder)
    (spelled : ∃ text, contest.lexicon.text? candidate.symbol = some text) :
    ∃ holder', contest.consider holder candidate = .ok holder' ∧
      contest.Leads (seen ++ [candidate]) holder' := by
  obtain ⟨text, known⟩ := spelled
  refine ⟨_, consider_eq known, ?_⟩
  cases qualified : contest.entrant? candidate with
  | none =>
    refine h.pass fun rival takes same => ?_
    have taking := entrant?_eq_some_iff_admits.mpr ⟨same, takes⟩
    cases qualified.symm.trans taking
  | some newcomer =>
    obtain ⟨rfl, takes⟩ := entrant?_eq_some_iff_admits.mp qualified
    exact h.enter takes

end Concat

/-- Going through more candidates keeps the lead right, and no fault comes of it. -/
theorem Leads.foldlM {seen : List Candidate} {holder : Option Entrant}
    (h : contest.Leads seen holder) {more : List Candidate}
    (spelled : ∀ candidate ∈ more, ∃ text, contest.lexicon.text? candidate.symbol = some text) :
    ∃ holder', more.foldlM contest.consider holder = .ok holder' ∧
      contest.Leads (seen ++ more) holder' := by
  induction more generalizing seen holder with
  | nil => exact ⟨holder, rfl, by rwa [List.append_nil]⟩
  | cons candidate rest ih =>
    obtain ⟨next, considered, leads⟩ := h.consider (spelled candidate List.mem_cons_self)
    obtain ⟨last, gone, leads⟩ := ih leads fun other on => spelled other (List.mem_cons_of_mem _ on)
    refine ⟨last, ?_, by simpa using leads⟩
    rw [List.foldlM_cons, considered]
    exact gone

theorem winner_eq_map (contest : Contest) (candidates : List Candidate) (span : Span) :
    contest.winner candidates span =
      (contest.best candidates).map fun holder => holder.map (·.correction span) := by
  rw [winner]
  cases contest.best candidates with
  | ok holder => rfl
  | error fault => rfl

theorem Leads.none_iff {seen : List Candidate} {holder : Option Entrant}
    (h : contest.Leads seen holder) :
    holder = none ↔ ∀ rival, contest.Admits rival → rival.candidate ∉ seen := by
  cases h with
  | nobody empty => exact iff_of_true rfl empty
  | best first =>
    obtain ⟨admitted, place, here, _⟩ := first
    exact iff_of_false (by simp) fun empty => empty _ admitted (List.mem_of_getElem? here)

theorem Leads.some_iff {seen : List Candidate} {holder : Option Entrant}
    (h : contest.Leads seen holder) (winner : Entrant) :
    holder = some winner ↔ contest.FirstBest seen winner := by
  cases h with
  | nobody empty =>
    refine iff_of_false (by simp) ?_
    intro ⟨admitted, place, here, _⟩
    exact empty _ admitted (List.mem_of_getElem? here)
  | best first =>
    constructor
    · intro same
      cases same
      exact first
    · intro first'
      rw [first.unique first']

/-- **The first of the best leads at every point.** A contest for a name that has a text, over
candidates that have texts, goes through without a fault. After any beginning of the list nobody
leads exactly if nobody in it takes part, and otherwise the first of those with the least key does,
who gives the answer if nothing more comes. The answer for the whole list is the one that going on
from there leads to. -/
theorem first_best_leads_throughout {lexicon : Lexicon} {target : Symbol} {written : String}
    (known : lexicon.text? target = some written) (metric : Metric) (acceptance : Acceptance)
    {candidates : List Candidate}
    (spelled : ∀ candidate ∈ candidates, ∃ text, lexicon.text? candidate.symbol = some text)
    (span : Span) :
    ∃ contest : Contest, start lexicon metric target acceptance = .ok contest ∧
      contest = ⟨lexicon, metric, target, written, acceptance⟩ ∧
      ∀ seen rest, candidates = seen ++ rest → ∃ holder,
        contest.best seen = .ok holder ∧
        (holder = none ↔ ∀ rival, contest.Admits rival → rival.candidate ∉ seen) ∧
        (∀ winner, holder = some winner ↔ contest.FirstBest seen winner) ∧
        contest.winner seen span = .ok (holder.map fun winner =>
          ⟨winner.candidate.symbol, winner.candidate.origin, span, winner.distance⟩) ∧
        contest.winner candidates span =
          (rest.foldlM contest.consider holder).map fun last => last.map (·.correction span) := by
  refine ⟨_, start_eq known metric acceptance, rfl, ?_⟩
  rintro seen rest rfl
  have nobody : Leads ⟨lexicon, metric, target, written, acceptance⟩ [] none :=
    .nobody fun _ _ => List.not_mem_nil
  obtain ⟨holder, gone, leads⟩ := nobody.foldlM fun candidate on =>
    spelled candidate (List.mem_append_left rest on)
  refine ⟨holder, gone, leads.none_iff, leads.some_iff, ?_, ?_⟩
  · rw [winner_eq_map, best, gone]
    rfl
  · rw [winner_eq_map, best, List.foldlM_append, gone]
    rfl

/-- For `colr` come the name itself, `colors`, and `color` from three places. -/
def colorStream : List Candidate :=
  [⟨⟨536870912⟩, .enclosing, 0⟩, ⟨⟨1⟩, .enclosing, 0⟩, ⟨⟨805306368⟩, .member ⟨1⟩, 3⟩,
    ⟨⟨805306368⟩, .enclosing, 1⟩, ⟨⟨805306368⟩, .elsewhere ⟨2⟩, 1⟩]

theorem colr_leads_never :
    Lookup.colors.text? Lookup.colr.symbol = some "colr" ∧
      (∀ candidate ∈ colorStream, ∃ text, Lookup.colors.text? candidate.symbol = some text) ∧
      ∃ contest, start Lookup.colors .alignment Lookup.colr.symbol (.within 2) = .ok contest ∧
        contest.winner (colorStream.take 1) .dummy = .ok none ∧
        ∃ winner, contest.FirstBest colorStream winner ∧
          contest.winner colorStream .dummy =
            .ok (some ⟨winner.candidate.symbol, winner.candidate.origin, .dummy, winner.distance⟩) := by
  have spelled : ∀ candidate ∈ colorStream,
      ∃ text, Lookup.colors.text? candidate.symbol = some text := by
    have all : ∀ candidate ∈ colorStream, (Lookup.colors.text? candidate.symbol).isSome := by
      decide +kernel
    exact fun candidate on => Option.isSome_iff_exists.mp (all candidate on)
  obtain ⟨contest, begun, made, throughout⟩ :=
    first_best_leads_throughout Lookup.text?_colr .alignment (.within 2) spelled .dummy
  refine ⟨Lookup.text?_colr, spelled, contest, begun, ?_, ?_⟩
  · obtain ⟨holder, _, none_iff, _, answered, _⟩ := throughout (colorStream.take 1) _ rfl
    have nobody : holder = none := by
      refine none_iff.mpr fun rival takes on => ?_
      rw [made] at takes
      cases takes with
      | exact accepts => cases accepts
      | near _ _ other => exact other (congrArg Candidate.symbol (List.mem_singleton.mp on))
    rw [answered, nobody]
    rfl
  · obtain ⟨holder, _, none_iff, some_iff, answered, _⟩ :=
      throughout colorStream [] (List.append_nil _).symm
    have color : contest.Admits ⟨⟨⟨805306368⟩, .enclosing, 1⟩, 1, "color"⟩ := by
      rw [made]
      exact .near rfl (by decide +kernel) (by decide) (by decide +kernel) (by decide)
    cases holder with
    | none => exact absurd (by decide) (none_iff.mp rfl _ color)
    | some winner => exact ⟨winner, (some_iff winner).mp rfl, answered⟩

end Contest

end NearMiss
