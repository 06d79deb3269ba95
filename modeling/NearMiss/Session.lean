import NearMiss.Correction.Wording
import NearMiss.HeaderIndex.Standard
import NearMiss.Lookup
import NearMiss.Scope.Listing
import NearMiss.Scope.Tree

/-! A run of the analysis: one lexicon, a growing tree of scopes, an index of
headers and a tolerance, with questions asked in between.

A step that fails leaves the session as the failure found it: names that were
interned on the way stay, and the tree does not change. Questions are answered
from the session's tree, or from a listing put in its place. -/
namespace NearMiss

structure Session where
  lexicon : Lexicon := .empty
  tree : Scope.Tree := .empty
  headers : HeaderIndex := .empty
  tolerance : Tolerance := {}
  /-- Scopes to answer from in place of the tree. -/
  listing : Option Scope.Listing := none

namespace Session

/-- The scopes that questions are answered from. -/
def graph (session : Session) : Scope.Graph :=
  session.listing.elim session.tree.graph (·.graph)

def lookup (session : Session) : Lookup where
  graph := session.graph
  lexicon := session.lexicon
  headers := session.headers
  tolerance := session.tolerance

/-- What a correction says, in the present state of the session. -/
def advice (session : Session) (correction : Correction) : Except Fault Diagnostic.Advice :=
  correction.advice session.graph session.lexicon

/-- A part of a session's work, which may fail and keeps its effects when it does. -/
abbrev Work := EStateM Fault Session

/-- Work that concerns the lexicon only. -/
def interning {α : Type} (work : Interning α) : Work α := fun session =>
  match work session.lexicon with
  | .ok value lexicon => .ok value { session with lexicon }
  | .error fault lexicon => .error fault { session with lexicon }

def intern (text : String) : Work Symbol := interning (Interning.intern text)

/-- Opens a scope; its name is interned whether or not the parent is owned. -/
def openScope (parent : Scope.Id) (kind : Scope.Kind) (name : Option String) : Work Scope.Id := do
  let name ← interning (name.mapM Interning.intern)
  let session ← get
  let (opened, tree) ← session.tree.openScope parent kind name
  set { session with tree }
  return opened

/-- Declares names, all of which are interned before the first is declared. -/
def declareAll (scope : Scope.Id) (names : List String) : Work Unit := do
  let names ← interning (Interning.internAll names)
  let session ← get
  let tree ← session.tree.declareAll scope names
  set { session with tree }

/-- Replaces the headers. -/
def loadHeaders (index : Interning HeaderIndex) : Work Unit := do
  let headers ← interning index
  modify fun session => { session with headers }

def setTolerance (tolerance : Tolerance) : Work Unit :=
  modify fun session => { session with tolerance }

/-- Answers from a listing from now on. -/
def useListing (entries : List (Scope.Entry String)) : Work Unit := do
  let listing ← interning (Scope.Listing.ofTexts entries)
  modify fun session => { session with listing := some listing }

/-- Asks about a name, which is interned first. -/
def ask (text : String) (span : Span) (question : Question) : Work (Option Correction) := do
  let symbol ← intern text
  let session ← get
  session.lookup.ask ⟨symbol, span⟩ question

/-! ### Sessions as lists of steps -/

inductive Step where
  | intern (texts : List String)
  | openScope (parent : Scope.Id) (kind : Scope.Kind) (name : Option String)
  | declareAll (scope : Scope.Id) (names : List String)
  /-- Loads the given headers, or the standard ones. -/
  | loadHeaders (entries : Option (List (String × String)))
  | setTolerance (tolerance : Tolerance)
  | ask (text : String) (span : Span) (question : Question)
deriving DecidableEq

/-- What a step reports. -/
inductive Reply where
  | symbols (symbols : List Symbol)
  | opened (scope : Scope.Id)
  | done
  | answer (answer : Option Correction)
deriving DecidableEq

def perform : Step → Work Reply
  | .intern texts => return .symbols (← interning (Interning.internAll texts))
  | .openScope parent kind name => return .opened (← openScope parent kind name)
  | .declareAll scope names => do declareAll scope names; return .done
  | .loadHeaders none => do loadHeaders HeaderIndex.standard; return .done
  | .loadHeaders (some entries) => do loadHeaders (HeaderIndex.ofEntries entries); return .done
  | .setTolerance tolerance => do setTolerance tolerance; return .done
  | .ask text span question => return .answer (← ask text span question)

/-- The session after one step, with or without success. -/
def step (session : Session) (step : Step) : Except Fault Reply × Session :=
  outcome (perform step session)

/-- The session after some steps, with what each reported. -/
def run (session : Session) : List Step → List (Except Fault Reply) × Session
  | [] => ([], session)
  | step :: rest =>
    let (reply, next) := session.step step
    let (replies, last) := next.run rest
    (reply :: replies, last)

theorem run_append (session : Session) (first second : List Step) :
    session.run (first ++ second) =
      ((session.run first).1 ++ ((session.run first).2.run second).1,
        ((session.run first).2.run second).2) := by
  induction first generalizing session with
  | nil => rfl
  | cons step rest ih => simp [run, ih]

end Session

end NearMiss
