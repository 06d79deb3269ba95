import NearMiss.Proofs.Candidate.Alike
import NearMiss.Proofs.HeaderIndex
import NearMiss.Proofs.Lookup.Qualified

/-! Answers depend on texts, not on symbols.

Two lookups that read the same texts in the same places may work with different
symbols throughout, since their lexicons learned the texts in different orders.
Each stage keeps them together: paired candidates become entrants of the same
rank, of those the same one wins, and what the two winners say is worded alike.
`Agree` is what the two answers have in common in the end. -/
namespace NearMiss

open Scope (Graph Id Tree)

variable {here there : Lexicon}

/-! ### The contest -/

namespace Entrant

/-- Entrants of the same rank, for candidates that say the same. -/
structure Alike (here there : Lexicon) (a b : Entrant) : Prop where
  candidate : a.candidate.Alike here there b.candidate
  distance_eq : a.distance = b.distance
  text_eq : a.text = b.text

theorem Alike.beats_iff {a a' b b' : Entrant} (ha : a.Alike here there a')
    (hb : b.Alike here there b') : a.Beats b ↔ a'.Beats b' := by
  simp only [Beats, ha.distance_eq, hb.distance_eq, ha.text_eq, hb.text_eq,
    ha.candidate.depth_eq, hb.candidate.depth_eq]

theorem Alike.orBest {newcomer newcomer' : Entrant} (h : newcomer.Alike here there newcomer')
    {holder holder' : Option Entrant} (best : Option.Rel (Alike here there) holder holder') :
    (newcomer.orBest holder).Alike here there (newcomer'.orBest holder') := by
  cases best with
  | none => exact h
  | some held =>
    rw [Entrant.orBest, Entrant.orBest]
    simp only [h.beats_iff held]
    split
    · exact h
    · exact held

theorem best_alike {entrants entrants' : List Entrant}
    (h : List.Forall₂ (Alike here there) entrants entrants') :
    Option.Rel (Alike here there) (best entrants) (best entrants') :=
  List.rel_foldl (fun _ _ held _ _ newcomer => .some (newcomer.orBest held)) .none h

end Entrant

/-- Corrections that say the same. -/
structure Correction.Alike (here there : Lexicon) (a b : Correction) : Prop where
  symbol : here.SameText there a.symbol b.symbol
  origin : a.origin.Alike here there b.origin
  span_eq : a.span = b.span
  distance_eq : a.distance = b.distance

namespace Contest

/-- Contests for the same name, under the same rules. -/
structure Alike (contest contest' : Contest) : Prop where
  target : contest.lexicon.SameText contest'.lexicon contest.target contest'.target
  targetText_eq : contest.targetText = contest'.targetText
  metric_eq : contest.metric = contest'.metric
  acceptance_eq : contest.acceptance = contest'.acceptance

variable {contest contest' : Contest} (h : contest.Alike contest')
include h

theorem Alike.edits?_eq {a b : Symbol} (same : contest.lexicon.SameText contest'.lexicon a b)
    (text : String) : contest.edits? a text = contest'.edits? b text := by
  simp only [edits?, same.eq_iff h.target, h.targetText_eq, h.metric_eq, h.acceptance_eq]

theorem Alike.entrant? {a b : Candidate} (alike : a.Alike contest.lexicon contest'.lexicon b) :
    Option.Rel (Entrant.Alike contest.lexicon contest'.lexicon) (contest.entrant? a)
      (contest'.entrant? b) := by
  obtain ⟨text, spelled, spelled'⟩ := alike.symbol
  rw [Contest.entrant?, Contest.entrant?, spelled, spelled', Option.bind_some, Option.bind_some,
    h.edits?_eq alike.symbol]
  cases contest'.edits? b.symbol text with
  | none => exact .none
  | some distance => exact .some ⟨alike, rfl, rfl⟩

/-- The two winners say the same, and neither contest fails. -/
theorem Alike.winner {candidates candidates' : List Candidate}
    (alike : Candidate.ListsAlike contest.lexicon contest'.lexicon candidates candidates')
    (span : Span) : ∃ answer answer', contest.winner candidates span = .ok answer ∧
      contest'.winner candidates' span = .ok answer' ∧
      Option.Rel (Correction.Alike contest.lexicon contest'.lexicon) answer answer' := by
  have same := Entrant.best_alike (List.rel_filterMap (fun _ _ alike => h.entrant? alike) alike)
  rw [Contest.winner, Contest.winner, best_eq alike.spelled.1, best_eq alike.spelled.2]
  generalize Entrant.best (candidates.filterMap contest.entrant?) = best,
    Entrant.best (candidates'.filterMap contest'.entrant?) = best' at same ⊢
  cases same with
  | none => exact ⟨none, none, rfl, rfl, .none⟩
  | some same =>
    exact ⟨_, _, rfl, rfl,
      .some ⟨same.candidate.symbol, same.candidate.origin, rfl, same.distance_eq⟩⟩

end Contest

/-! ### What is said -/

/-- Symbols that are paired are read as the same texts. -/
theorem Lexicon.exists_texts {symbols symbols' : List Symbol}
    (h : List.Forall₂ (here.SameText there) symbols symbols') :
    ∃ texts, symbols.mapM here.text = .ok texts ∧ symbols'.mapM there.text = .ok texts := by
  induction h with
  | nil => exact ⟨[], rfl, rfl⟩
  | @cons symbol symbol' _ _ same _ ih =>
    obtain ⟨text, spelled, spelled'⟩ := same
    obtain ⟨texts, read, read'⟩ := ih
    refine ⟨text :: texts, ?_, ?_⟩
    · rw [List.mapM_cons, text_eq_ok_iff.mpr spelled, read]
      rfl
    · rw [List.mapM_cons, text_eq_ok_iff.mpr spelled', read']
      rfl

section Wording
variable {graph graph' : Graph}

/-- Corrections that say the same are worded in the same way, where their paths are. -/
theorem Correction.Alike.exists_advice_of_paths {a b : Correction} (h : a.Alike here there b)
    (paths : ∀ home, a.origin = .elsewhere home →
      ∃ path, graph.path here home = .ok path ∧ graph'.path there home = .ok path) :
    ∃ advice, a.advice graph here = .ok advice ∧ b.advice graph' there = .ok advice := by
  obtain ⟨symbol, origin, span, distance⟩ := a
  obtain ⟨symbol', origin', span', distance'⟩ := b
  obtain ⟨⟨text, spelled, spelled'⟩, origin, rfl, _⟩ := h
  simp only [Correction.advice, Lexicon.text_eq_ok_iff.mpr spelled,
    Lexicon.text_eq_ok_iff.mpr spelled']
  cases origin with
  | enclosing => exact ⟨_, rfl, rfl⟩
  | enumerator enumeration => exact ⟨_, rfl, rfl⟩
  | member scope => exact ⟨_, rfl, rfl⟩
  | elsewhere home =>
    obtain ⟨path, reached, reached'⟩ := paths home rfl
    simp only [reached, reached']
    exact ⟨_, rfl, rfl⟩
  | header same =>
    obtain ⟨header, spelled, spelled'⟩ := same
    simp only [Lexicon.text_eq_ok_iff.mpr spelled, Lexicon.text_eq_ok_iff.mpr spelled']
    exact ⟨_, rfl, rfl⟩

variable (graphs : graph.Alike here there graph')
include graphs

theorem Scope.Graph.Alike.exists_path (home : Id) :
    ∃ path, graph.path here home = .ok path ∧ graph'.path there home = .ok path := by
  obtain ⟨segments, read, read'⟩ := Lexicon.exists_texts (graphs.nameChain home)
  exact ⟨_, Graph.path_eq read, Graph.path_eq read'⟩

/-- Corrections that say the same are worded in the same way. -/
theorem Correction.Alike.exists_advice {a b : Correction} (h : a.Alike here there b) :
    ∃ advice, a.advice graph here = .ok advice ∧ b.advice graph' there = .ok advice :=
  h.exists_advice_of_paths fun home _ => graphs.exists_path home

end Wording

/-! ### Headers -/

namespace HeaderIndex

variable {index index' : HeaderIndex} {entries : List (String × String)}
  (h : index.Lists entries here) (h' : index'.Lists entries there)
include h h'

/-- Indexes of the same entries find the same headers. -/
theorem find?_alike {a b : Symbol} (same : here.SameText there a b) :
    Option.Rel (here.SameText there) (index.find? a) (index'.find? b) := by
  obtain ⟨name, named, named'⟩ := same
  cases found : index.find? a with
  | some header =>
    obtain ⟨text, spelled, listed⟩ := h.lookup_of_find? named found
    obtain ⟨header', spelled', found'⟩ := h'.find?_of_lookup named' listed
    rw [found']
    exact .some ⟨text, spelled, spelled'⟩
  | none =>
    cases found' : index'.find? b with
    | none => exact .none
    | some header' =>
      obtain ⟨text, _, listed⟩ := h'.lookup_of_find? named' found'
      obtain ⟨_, _, found''⟩ := h.find?_of_lookup named listed
      cases found.symm.trans found''

end HeaderIndex

/-! ### The questions -/

namespace Lookup

/-- Two lookups that read the same texts in the same places. -/
structure Alike (lookup lookup' : Lookup) : Prop where
  graph : lookup.graph.Alike lookup.lexicon lookup'.lexicon lookup'.graph
  headers : ∃ entries, lookup.headers.BuiltFrom entries lookup.lexicon ∧
    lookup'.headers.BuiltFrom entries lookup'.lexicon
  tolerance_eq : lookup.tolerance = lookup'.tolerance

/-- The lookups refuse alike, or neither has an answer, or what they answer says the same and
is worded in the same way. -/
inductive Agree (lookup lookup' : Lookup) :
    Except Fault (Option Correction) → Except Fault (Option Correction) → Prop
  | unknownScope (scope : Id) :
      Agree lookup lookup' (.error (.unknownScope scope)) (.error (.unknownScope scope))
  | notScopedEnumeration (scope : Id) :
      Agree lookup lookup' (.error (.notScopedEnumeration scope))
        (.error (.notScopedEnumeration scope))
  | nothing : Agree lookup lookup' (.ok none) (.ok none)
  | suggestion {a b : Correction} {advice : Diagnostic.Advice} :
      a.Alike lookup.lexicon lookup'.lexicon b →
      a.advice lookup.graph lookup.lexicon = .ok advice →
      b.advice lookup'.graph lookup'.lexicon = .ok advice →
      Agree lookup lookup' (.ok (some a)) (.ok (some b))

/-- Where a first question leaves off for lack of an answer, a second one may go on. -/
theorem Agree.orElse {lookup lookup' : Lookup}
    {first first' second second' : Except Fault (Option Correction)}
    (h : Agree lookup lookup' first first') (h' : Agree lookup lookup' second second') :
    Agree lookup lookup'
      (do match ← first with
        | some correction => return some correction
        | none => second)
      (do match ← first' with
        | some correction => return some correction
        | none => second') := by
  cases h with
  | unknownScope scope => exact .unknownScope scope
  | notScopedEnumeration scope => exact .notScopedEnumeration scope
  | nothing => exact h'
  | suggestion same worded worded' => exact .suggestion same worded worded'

section Alike
variable {lookup lookup' : Lookup} (h : lookup.Alike lookup')
include h

/-- Answers that say the same are worded in the same way. -/
theorem Alike.agree {answer answer' : Option Correction}
    (same : Option.Rel (Correction.Alike lookup.lexicon lookup'.lexicon) answer answer') :
    Agree lookup lookup' (.ok answer) (.ok answer') := by
  cases same with
  | none => exact .nothing
  | some same =>
    obtain ⟨advice, worded, worded'⟩ := same.exists_advice h.graph
    exact .suggestion same worded worded'

variable {name name' : Unresolved}
  (named : lookup.lexicon.SameText lookup'.lexicon name.symbol name'.symbol)
  (span_eq : name.span = name'.span)
include named span_eq

theorem Alike.nearest {candidates candidates' : List Candidate}
    (alike : Candidate.ListsAlike lookup.lexicon lookup'.lexicon candidates candidates') :
    Agree lookup lookup' (lookup.nearest name candidates) (lookup'.nearest name' candidates') := by
  obtain ⟨text, spelled, spelled'⟩ := named
  have contests : (lookup.contest name text).Alike (lookup'.contest name' text) := by
    constructor
    · exact ⟨text, spelled, spelled'⟩
    · rfl
    · exact congrArg Tolerance.metric h.tolerance_eq
    · exact congrArg (fun rules : Tolerance => Acceptance.within (rules.threshold text.length))
        h.tolerance_eq
  obtain ⟨answer, answer', won, won', same⟩ := contests.winner alike name.span
  rw [nearest_eq_winner spelled, nearest_eq_winner spelled', ← span_eq, won, won']
  exact h.agree same

theorem Alike.missingHeader :
    Agree lookup lookup' (lookup.missingHeader name) (lookup'.missingHeader name') := by
  obtain ⟨entries, built, built'⟩ := h.headers
  have found := HeaderIndex.find?_alike built.lists built'.lists named
  have ⟨text, spelled, spelled'⟩ := named
  rw [missingHeader_eq spelled, missingHeader_eq spelled', ← span_eq]
  refine h.agree ?_
  generalize lookup.headers.find? name.symbol = header,
    lookup'.headers.find? name'.symbol = header' at found ⊢
  cases found with
  | none => exact .none
  | some same => exact .some ⟨named, .header same, rfl, rfl⟩

/-- A question about a scope that has to be owned. -/
theorem Alike.inScope (scope : Id) {candidates candidates' : List Candidate}
    (alike : Candidate.ListsAlike lookup.lexicon lookup'.lexicon candidates candidates') :
    Agree lookup lookup'
      (do let _ ← lookup.requireScope scope; lookup.nearest name candidates)
      (do let _ ← lookup'.requireScope scope; lookup'.nearest name' candidates') := by
  rw [requireScope, requireScope, ← h.graph.kind_eq]
  cases lookup.graph.kind scope with
  | none => exact .unknownScope scope
  | some kind => exact h.nearest named span_eq alike

theorem Alike.enumerator (enumeration : Id) :
    Agree lookup lookup' (lookup.enumerator name enumeration)
      (lookup'.enumerator name' enumeration) := by
  rw [Lookup.enumerator, Lookup.enumerator, requireScopedEnumeration, requireScopedEnumeration,
    requireScope, requireScope, ← h.graph.kind_eq]
  cases lookup.graph.kind enumeration with
  | none => exact .unknownScope enumeration
  | some kind =>
    show Agree _ _
      (Except.bind (if kind = .scopedEnumeration then .ok () else
        .error (.notScopedEnumeration enumeration)) _)
      (Except.bind (if kind = .scopedEnumeration then .ok () else
        .error (.notScopedEnumeration enumeration)) _)
    split
    · exact h.nearest named span_eq (Candidate.enumerators_alike h.graph enumeration)
    · exact .notScopedEnumeration enumeration

end Alike

/-! ### The studio, numbered differently -/

theorem of_name {tree : Tree} {holds : Symbol → Prop}
    (all : ∀ record ∈ tree.records, ∀ symbol ∈ record.name, holds symbol) {scope : Id}
    {symbol : Symbol} (named : tree.graph.name scope = some symbol) : holds symbol := by
  obtain ⟨record, held, named⟩ := Option.bind_eq_some_iff.mp named
  exact all record (Array.mem_of_getElem? held) symbol named

/-- The texts of `colors`, and two others that were there first. -/
def lateColors : Lexicon :=
  ((((Lexicon.empty.push "r" (fresh_of_not_mem (by decide +kernel)) (by decide +kernel)).push
    "s" (fresh_of_not_mem (by decide +kernel)) (by decide +kernel)).push
    "colr" (fresh_of_not_mem (by decide +kernel)) (by decide +kernel)).push
    "color" (fresh_of_not_mem (by decide +kernel)) (by decide +kernel)).push
    "colors" (fresh_of_not_mem (by decide +kernel)) (by decide +kernel)

/-- `color` comes second in its shard now. -/
def renumber (symbol : Symbol) : Symbol :=
  if symbol = ⟨805306368⟩ then ⟨805306369⟩ else symbol

def lateStudio : Lookup := ⟨studio.graph.rename renumber, lateColors, .empty, {}⟩

def lateColr : Unresolved := ⟨⟨536870913⟩, .dummy⟩

theorem sameText_renumber : ∀ record ∈ studio.records,
    (∀ symbol ∈ record.name, colors.SameText lateColors symbol (renumber symbol)) ∧
      ∀ symbol ∈ record.members, colors.SameText lateColors symbol (renumber symbol) := by
  decide +kernel

theorem alike_lateStudio : studioLookup.Alike lateStudio where
  graph := Graph.alike_rename (fun _ _ => of_name fun record on => (sameText_renumber record on).1)
    fun _ _ => of_mem_members fun record on => (sameText_renumber record on).2
  headers := ⟨[], ⟨colors, colors, rfl, .refl _⟩, lateColors, lateColors, rfl, .refl _⟩
  tolerance_eq := rfl

/-- **Answers depend on texts only.** Two lookups that read the same texts in the same places,
with the same entries for headers and the same tolerance, agree on every question about a name of
the same text at the same place: they refuse it alike, or neither has an answer, or their answers
have the same text, origin, place and distance, and are worded the same. -/
theorem answers_depend_on_texts_only {lookup lookup' : Lookup} (h : lookup.Alike lookup')
    {name name' : Unresolved}
    (named : lookup.lexicon.SameText lookup'.lexicon name.symbol name'.symbol)
    (span_eq : name.span = name'.span) (question : Question) :
    Agree lookup lookup' (lookup.ask name question) (lookup'.ask name' question) := by
  have enclosing scope := h.inScope named span_eq scope (Candidate.enclosing_alike h.graph scope)
  have elsewhere scope := h.inScope named span_eq scope (Candidate.elsewhere_alike h.graph scope)
  have headers := h.missingHeader named span_eq
  cases question with
  | enclosing scope => exact enclosing scope
  | elsewhere scope => exact elsewhere scope
  | missingHeader => exact headers
  | member scope => exact h.inScope named span_eq scope (Candidate.members_alike h.graph scope)
  | enumerator enumeration => exact h.enumerator named span_eq enumeration
  | unresolved scope => exact (enclosing scope).orElse ((elsewhere scope).orElse headers)

theorem color_suggested_under_both_symbols :
    studioLookup.Alike lateStudio ∧ colors.SameText lateColors colr.symbol lateColr.symbol ∧
      colr.span = lateColr.span ∧
      ∃ a b advice, studioLookup.ask colr (.elsewhere Tree.root) = .ok (some a) ∧
        lateStudio.ask lateColr (.elsewhere Tree.root) = .ok (some b) ∧ a.symbol ≠ b.symbol ∧
        a.advice studioLookup.graph colors = .ok advice ∧
        b.advice lateStudio.graph lateColors = .ok advice := by
  have named : colors.SameText lateColors colr.symbol lateColr.symbol := by decide +kernel
  obtain ⟨a, asked, color⟩ := elsewhere_studio
  have agreed :=
    answers_depend_on_texts_only alike_lateStudio named rfl (.elsewhere Tree.root)
  rw [ask, asked] at agreed
  generalize lateStudio.ask lateColr (.elsewhere Tree.root) = answer' at agreed ⊢
  cases agreed with
  | @suggestion _ b advice same worded worded' =>
    refine ⟨alike_lateStudio, named, rfl, a, b, advice, asked, rfl, ?_, worded, worded'⟩
    intro one
    have other : studioLookup.lexicon.SameText lateStudio.lexicon a.symbol a.symbol :=
      one ▸ same.symbol
    rw [color] at other
    exact absurd other (by decide +kernel)

end Lookup

end NearMiss
