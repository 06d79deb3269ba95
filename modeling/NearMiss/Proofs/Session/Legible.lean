import NearMiss.Proofs.Lexicon.History
import NearMiss.Proofs.Lookup.Alike
import NearMiss.Proofs.Lookup.Offered
import NearMiss.Proofs.Session.Steps

/-! Sessions whose names can all be read.

A symbol is looked up without asking whether the lexicon gave it out, so a session
is safe only if it never holds one that is unknown. Its names come from events of
its tree and from entries of its headers, and steps intern those texts before they
store them (`legible_of_reached`). An answer names what the session holds, and what
was known stays known, so earlier answers can be read too (`legible_of_given`).
What is left to fail for is a scope that is not there (`exists_breach_iff`). -/
namespace NearMiss

open Scope (Graph Id Tree)

/-! ### Reading what is known -/

theorem HeaderIndex.legible_of_builtFrom {index : HeaderIndex} {entries : List (String × String)}
    {lexicon : Lexicon} (built : index.BuiltFrom entries lexicon) : index.Legible lexicon := by
  intro symbol header found
  obtain ⟨name, text, named, spelled, _⟩ := built.lists.given symbol header found
  exact ⟨⟨name, named⟩, text, spelled⟩

section Wording
variable {here there : Lexicon} (kept : here.Extends there)
include kept

theorem Lexicon.Knows.sameText {symbol : Symbol} (known : here.Knows symbol) :
    here.SameText there symbol symbol := by
  obtain ⟨text, spelled⟩ := known
  exact ⟨text, spelled, kept spelled⟩

theorem Correction.Legible.mono {correction : Correction} (h : correction.Legible here) :
    correction.Legible there where
  symbol := h.symbol.mono kept
  header := fun header named => (h.header header named).mono kept

theorem Correction.Legible.alike {correction : Correction} (h : correction.Legible here) :
    correction.Alike here there correction where
  symbol := h.symbol.sameText kept
  origin := by
    cases origin : correction.origin with
    | enclosing => exact .enclosing
    | elsewhere home => exact .elsewhere home
    | enumerator enumeration => exact .enumerator enumeration
    | member scope => exact .member scope
    | header header => exact .header ((h.header header origin).sameText kept)
  span_eq := rfl
  distance_eq := rfl

/-- What can be read now is worded now as it will be, if its home keeps its names. -/
theorem Correction.Legible.exists_advice {correction : Correction} (h : correction.Legible here)
    {graph graph' : Graph} (names : graph.Legible here)
    (same : ∀ home, correction.origin = .elsewhere home →
      graph'.nameChain home = graph.nameChain home) :
    ∃ advice, correction.advice graph here = .ok advice ∧
      correction.advice graph' there = .ok advice := by
  refine (h.alike kept).exists_advice_of_paths fun home origin => ?_
  have paired :
      List.Forall₂ (here.SameText there) (graph.nameChain home) (graph.nameChain home) := by
    refine List.forall₂_same.mpr fun symbol on => ?_
    rw [Graph.nameChain, List.mem_reverse, List.mem_filterMap] at on
    obtain ⟨scope, _, named⟩ := on
    exact (names.name scope symbol named).sameText kept
  obtain ⟨segments, read, read'⟩ := Lexicon.exists_texts paired
  rw [← same home origin] at read'
  exact ⟨_, Graph.path_eq read, Graph.path_eq read'⟩

end Wording

namespace Session

/-! ### Every session from the start -/

section Reached
variable {session : Session} (reached : ({} : Session).Follows session)
include reached

theorem graph_of_reached : session.graph = session.tree.graph := by
  rw [graph, reached.listing_eq]
  rfl

variable (small : session.tree.size ≤ Id.count)
include small

theorem legible_of_reached : session.lookup.Legible where
  graph := by
    obtain ⟨edits, grown, known⟩ := reached.tree
    show session.graph.Legible session.lexicon
    rw [graph_of_reached reached]
    -- The tree is what its edits made it, so a name in it came with one of them.
    rw [← grown] at small ⊢
    have told := Tree.told_grow edits small
    have nameless := Tree.Made.name_root ⟨edits, rfl⟩ small
    constructor
    · intro scope symbol named
      obtain ⟨event, on, used⟩ := told.exists_event_of_name nameless named
      exact known event on symbol used
    · intro scope symbol declared
      obtain ⟨event, on, used⟩ := told.exists_event_of_member declared
      exact known event on symbol used
  headers := by
    rcases reached.headers with initial | ⟨entries, built⟩
    · intro symbol header found
      rw [show session.lookup.headers = HeaderIndex.empty from initial] at found
      simp [HeaderIndex.find?, HeaderIndex.empty] at found
    · exact HeaderIndex.legible_of_builtFrom built

end Reached

/-- The answer to some question that was asked in the course of some steps. -/
def Given (steps : List Step) (answer : Option Correction) : Prop :=
  ∃ earlier later, steps = earlier ++ later ∧
    ∃ name question, (after earlier).lookup.ask name question = .ok answer

theorem eq_ok_of_map_eq_ok {result : Except Fault (Option Correction)} {answer : Option Correction}
    (replied : result.map Reply.answer = .ok (.answer answer)) : result = .ok answer := by
  cases result with
  | ok given =>
    cases replied
    rfl
  | error fault => cases replied

theorem eq_error_of_map_eq_error {result : Except Fault (Option Correction)} {fault : Fault}
    (failed : result.map Reply.answer = .error fault) : result = .error fault := by
  cases result with
  | ok given => cases failed
  | error other =>
    cases failed
    rfl

/-- What a step answers is an answer of the session that it leaves. -/
theorem exists_ask_of_step {session : Session} {step : Step} {answer : Option Correction}
    (replied : (session.step step).1 = .ok (.answer answer)) :
    ∃ name question, (session.step step).2.lookup.ask name question = .ok answer := by
  have stepped := stepped_step session step
  generalize session.step step = result at stepped replied ⊢
  cases stepped with
  | @asked text span question symbol lexicon _ _ =>
    exact ⟨⟨symbol, span⟩, question, eq_ok_of_map_eq_ok replied⟩
  | overflowed _ => cases replied
  | interned _ => cases replied
  | opened _ _ _ => cases replied
  | notOpened _ _ => cases replied
  | declared _ _ _ _ => cases replied
  | notDeclared _ _ _ => cases replied
  | loaded _ _ => cases replied
  | tuned _ => cases replied

theorem given_of_reply {steps : List Step} {answer : Option Correction}
    (replied : .ok (.answer answer) ∈ replies steps) : Given steps answer := by
  induction steps using List.reverseRecOn with
  | nil => cases replied
  | append_singleton steps step ih =>
    have last : replies (steps ++ [step]) = replies steps ++ [((after steps).step step).1] := by
      rw [replies, run_append]
      rfl
    rw [last, List.mem_append, List.mem_singleton] at replied
    rcases replied with old | new
    · obtain ⟨earlier, later, rfl, asked⟩ := ih old
      exact ⟨earlier, later ++ [step], List.append_assoc _ _ _, asked⟩
    · refine ⟨steps ++ [step], [], (List.append_nil _).symm, ?_⟩
      rw [after_append]
      exact exists_ask_of_step new.symm

theorem size_after_le_append (steps later : List Step) :
    (after steps).tree.size ≤ (after (steps ++ later)).tree.size := by
  obtain ⟨edits, grown, _⟩ := (follows_after_append steps later).tree
  rw [← grown]
  exact Tree.size_le_grow _ _

/-- Answers stay legible. -/
theorem legible_of_given {steps : List Step} (small : (after steps).tree.size ≤ Id.count)
    {correction : Correction} (given : Given steps (some correction)) :
    correction.Legible (after steps).lexicon := by
  obtain ⟨earlier, later, rfl, name, question, asked⟩ := given
  have legible := legible_of_reached (follows_after earlier)
    ((size_after_le_append earlier later).trans small)
  exact ((Lookup.offers_of_ask legible asked).legible legible).mono
    (follows_after_append earlier later).lexicon

/-! ### What goes wrong, and when -/

/-- A promise of the caller is broken; a refusal is not that, nor is a full shard. -/
def Breach : Fault → Prop
  | .foreignParent _ | .foreignScope _ | .danglingSymbol _ => True
  | .unknownScope _ | .notScopedEnumeration _ | .shardFull _ _ => False

/-- The step would open a scope or declare a name in a scope that the tree does not own. A name
alone is declared as a list of one (`Tree.declareAll_singleton`). -/
inductive Foreign (tree : Tree) : Step → Prop
  | openScope {parent : Id} (kind : Scope.Kind) (name : Option String) :
      tree.size ≤ parent.index → Foreign tree (.openScope parent kind name)
  | declareAll {scope : Id} {names : List String} : names ≠ [] → tree.size ≤ scope.index →
      Foreign tree (.declareAll scope names)

/-- A step that fails leaves the tree as it is. -/
theorem tree_eq_of_error {session : Session} {step : Step} {fault : Fault}
    (failed : (session.step step).1 = .error fault) :
    (session.step step).2.tree = session.tree := by
  have stepped := stepped_step session step
  generalize session.step step = result at stepped failed ⊢
  cases stepped with
  | opened _ _ _ => cases failed
  | declared _ _ _ _ => cases failed
  | overflowed _ => rfl
  | interned _ => rfl
  | notOpened _ _ => rfl
  | notDeclared _ _ _ => rfl
  | loaded _ _ => rfl
  | tuned _ => rfl
  | asked _ _ => rfl

section Reached
variable {session : Session} (reached : ({} : Session).Follows session)
  (small : session.tree.size ≤ Id.count)
include reached small

/-- A question about a known name is refused at worst. -/
theorem not_breach_of_ask {name : Unresolved} (known : session.lexicon.Knows name.symbol)
    {question : Question} {fault : Fault}
    (failed : session.lookup.ask name question = .error fault) : ¬Breach fault := by
  have completes := Lookup.completes_ask (legible_of_reached reached small) known question
  rw [failed] at completes
  cases completes with
  | unknownScope _ => exact id
  | notScopedEnumeration _ _ => exact id

/-- Unless a shard is full, a step breaks a promise exactly if it is about a scope that is not
there. -/
theorem exists_breach_iff {step : Step}
    (room : ∀ shard count, (session.step step).1 ≠ .error (.shardFull shard count)) :
    (∃ fault, (session.step step).1 = .error fault ∧ Breach fault) ↔ Foreign session.tree step := by
  have stepped := stepped_step session step
  generalize session.step step = result at stepped room ⊢
  cases stepped with
  | overflowed _ => exact absurd rfl (room _ _)
  | interned _ => exact ⟨by simp, by rintro ⟨⟩⟩
  | loaded _ _ => exact ⟨by simp, by rintro ⟨⟩⟩
  | tuned _ => exact ⟨by simp, by rintro ⟨⟩⟩
  | notOpened _ foreign => exact ⟨fun _ => .openScope _ _ foreign, fun _ => ⟨_, rfl, trivial⟩⟩
  | notDeclared _ any foreign =>
    exact ⟨fun _ => .declareAll any foreign, fun _ => ⟨_, rfl, trivial⟩⟩
  | opened _ _ grown =>
    refine ⟨by simp, fun foreign => ?_⟩
    cases foreign with
    | openScope _ _ foreign => exact absurd (Tree.parent_owned grown) (Nat.not_lt.mpr foreign)
  | declared _ _ length grown =>
    refine ⟨by simp, fun foreign => ?_⟩
    cases foreign with
    | declareAll any foreign =>
      rcases (Tree.exists_declareAll_iff _ _).mp ⟨_, grown⟩ with rfl | owned
      · exact absurd (List.eq_nil_of_length_eq_zero length.symm) any
      · exact absurd owned (Nat.not_lt.mpr foreign)
  | @asked text span question symbol lexicon kept spelled =>
    refine ⟨fun broken => ?_, by rintro ⟨⟩⟩
    obtain ⟨fault, failed, breach⟩ := broken
    have reached' := reached.trans (follows_of_extends kept)
    exact absurd breach
      (not_breach_of_ask reached' small ⟨text, spelled⟩ (eq_error_of_map_eq_error failed))

end Reached

/-! ### A session with two namespaces -/

/-- A text that its shard does not hold takes the next slot. -/
theorem intern_of_not_mem {lexicon : Lexicon} {text : String}
    (absent : text ∉ (lexicon.shard (Symbol.shardOf text)).texts)
    (room : (lexicon.shard (Symbol.shardOf text)).texts.size < Symbol.slotCount) {symbol : Symbol}
    (next : .pack (Symbol.shardOf text) (lexicon.shard (Symbol.shardOf text)).texts.size = symbol) :
    lexicon.intern text = .ok symbol (lexicon.push text (Lookup.fresh_of_not_mem absent) room) := by
  rw [Lexicon.intern_of_room (Lookup.fresh_of_not_mem absent) room, next]

open Lookup (colors studio studioLookup colr)

theorem internAll_colors : Interning.internAll ["colr", "color", "colors"] .empty =
    .ok [⟨536870912⟩, ⟨805306368⟩, ⟨1⟩] colors := by
  refine Interning.internAll_cons
    (intern_of_not_mem (by decide +kernel) (by decide +kernel) (by decide +kernel)) ?_
  refine Interning.internAll_cons
    (intern_of_not_mem (by decide +kernel) (by decide +kernel) (by decide +kernel)) ?_
  exact Interning.internAll_cons
    (intern_of_not_mem (by decide +kernel) (by decide +kernel) (by decide +kernel)) rfl

/-- The studio, scope by scope, after the name that is going to be asked about. -/
def studioSteps : List Step :=
  [.intern ["colr", "color", "colors"],
    .openScope Tree.root .namespaceBody (some "color"),
    .openScope ⟨1⟩ .namespaceBody (some "colors"),
    .declareAll ⟨2⟩ ["color"]]

theorem run_cons (session : Session) (step : Step) (rest : List Step) :
    (session.run (step :: rest)).2 = ((session.step step).2.run rest).2 := rfl

section Known
variable {session : Session} {parent : Id} {kind : Scope.Kind} {tree : Tree}

/-- A scope whose name is known. -/
theorem step_openScope_of_known {opened : Id} {name : String} {symbol : Symbol}
    (known : session.lexicon.text? symbol = some name)
    (grown : session.tree.openScope parent kind (some symbol) = .ok (opened, tree)) :
    session.step (.openScope parent kind (some name)) =
      (.ok (.opened opened), { session with tree }) := by
  have found := Lexicon.intern_of_find? (Lexicon.find?_eq_some_iff.mpr known)
  have named : (some name).mapM Interning.intern session.lexicon =
      .ok (some symbol) session.lexicon := by
    rw [Interning.internOption_some]
    exact bind_eq_ok_iff.mpr ⟨symbol, _, found, rfl⟩
  exact step_openScope_of_ok (interning_of_ok named) grown

theorem step_declareAll_of_known {scope : Id} {names : List String} {symbols : List Symbol}
    (known : symbols.map session.lexicon.text? = names.map some)
    (grown : session.tree.declareAll scope symbols = .ok tree) :
    session.step (.declareAll scope names) = (.ok .done, { session with tree }) :=
  step_declareAll_of_ok (interning_of_ok (Interning.internAll_of_texts known)) grown

end Known

theorem after_studioSteps : after studioSteps = { lexicon := colors, tree := studio } := by
  have first : ({} : Session).step (.intern ["colr", "color", "colors"]) =
      (.ok (.symbols [⟨536870912⟩, ⟨805306368⟩, ⟨1⟩]), { lexicon := colors }) :=
    step_intern_of_ok (interning_of_ok internAll_colors)
  rw [after, studioSteps, run_cons, first]
  rw [run_cons, @step_openScope_of_known _ _ _ _ ⟨1⟩ _ ⟨805306368⟩ (by decide +kernel) rfl]
  rw [run_cons, @step_openScope_of_known _ _ _ _ ⟨2⟩ _ ⟨1⟩ (by decide +kernel) rfl]
  rw [run_cons, @step_declareAll_of_known _ _ _ _ [⟨805306368⟩] (by decide +kernel) rfl]
  rfl

/-- The name from the inner namespace is the answer to a question from outside. -/
theorem ask_studioSteps : ∃ correction,
    (after studioSteps).lookup.ask colr (.elsewhere Tree.root) = .ok (some correction) := by
  obtain ⟨correction, asked, _⟩ := Lookup.elsewhere_studio
  rw [after_studioSteps]
  exact ⟨correction, asked⟩

/-- **Every name in a session can be read, and no lookup fails for want of one.** The lexicon
knows the names of scopes, the names declared in them, those in the index of headers, and those in
every answer that was given up to now. So each question about a known name comes to an end, and
each answer can be put into words and attached to a diagnostic. Unless a shard is full, a step fails
otherwise than by refusal exactly if it would open a scope in, or declare a name in, a scope that
the tree does not own; it leaves the tree as it is. -/
theorem every_name_can_be_read (steps : List Step) (small : (after steps).tree.size ≤ Id.count) :
    (after steps).lookup.Legible ∧
    (∀ name, (after steps).lexicon.Knows name.symbol → ∀ question,
      (after steps).lookup.Completes name ((after steps).lookup.ask name question)) ∧
    (∀ answer, .ok (.answer answer) ∈ replies steps → Given steps answer) ∧
    (∀ correction, Given steps (some correction) →
      correction.Legible (after steps).lexicon ∧
        ∃ advice, (after steps).advice correction = .ok advice) ∧
    (∀ answer, Given steps answer → ∀ diagnostic : Diagnostic, ∃ attached,
      diagnostic.attach answer (after steps).graph (after steps).lexicon = .ok attached) ∧
    (∀ step, (∀ shard count, ((after steps).step step).1 ≠ .error (.shardFull shard count)) →
      ((∃ fault, ((after steps).step step).1 = .error fault ∧ Breach fault) ↔
        Foreign (after steps).tree step)) ∧
    ∀ step fault, ((after steps).step step).1 = .error fault →
      ((after steps).step step).2.tree = (after steps).tree := by
  have reached := follows_after steps
  have legible := legible_of_reached reached small
  have worded : ∀ correction, Given steps (some correction) →
      ∃ advice, (after steps).advice correction = .ok advice := by
    intro correction given
    obtain ⟨advice, said, _⟩ :=
      (legible_of_given small given).exists_advice (.refl _) legible.graph fun _ _ => rfl
    exact ⟨advice, said⟩
  refine ⟨legible, fun _ known question => Lookup.completes_ask legible known question,
    fun _ replied => given_of_reply replied, fun correction given =>
      ⟨legible_of_given small given, worded correction given⟩, ?_,
    fun _ room => exists_breach_iff reached small room, fun _ _ failed => tree_eq_of_error failed⟩
  intro answer given diagnostic
  cases answer with
  | none => exact ⟨diagnostic, rfl⟩
  | some correction =>
    obtain ⟨advice, said⟩ := worded correction given
    refine ⟨diagnostic.advise advice, ?_⟩
    rw [Diagnostic.attach, show correction.advice _ _ = .ok advice from said]
    rfl

theorem studio_session_can_be_read :
    (after studioSteps).tree.size ≤ Id.count ∧
      (∃ correction advice, Given studioSteps (some correction) ∧
        (after studioSteps).advice correction = .ok advice) ∧
      (∀ shard count, ((after studioSteps).step (.openScope ⟨9⟩ .block none)).1 ≠
        .error (.shardFull shard count)) ∧
      ∃ fault, ((after studioSteps).step (.openScope ⟨9⟩ .block none)).1 = .error fault ∧
        Breach fault := by
  have small : (after studioSteps).tree.size ≤ Id.count := small_after (by decide)
  obtain ⟨correction, asked⟩ := ask_studioSteps
  have given : Given studioSteps (some correction) :=
    ⟨studioSteps, [], rfl, colr, .elsewhere Tree.root, asked⟩
  have foreign : (after studioSteps).tree.size ≤ (⟨9⟩ : Id).index := by
    rw [after_studioSteps]
    decide
  have unnamed : interning ((none : Option String).mapM Interning.intern) (after studioSteps) =
      .ok none (after studioSteps) := rfl
  have refused :=
    step_openScope_of_error unnamed (Tree.openScope_of_foreign foreign .block none)
  have room : ∀ shard count, ((after studioSteps).step (.openScope ⟨9⟩ .block none)).1 ≠
      .error (.shardFull shard count) := by
    intro shard count full
    rw [refused] at full
    cases full
  obtain ⟨_, _, _, worded, _, breaches, _⟩ := every_name_can_be_read studioSteps small
  obtain ⟨_, advice, said⟩ := worded correction given
  exact ⟨small, ⟨correction, advice, given, said⟩, room,
    (breaches _ room).mpr (.openScope _ _ foreign)⟩

end Session

end NearMiss
