import NearMiss.Candidate.Elsewhere
import NearMiss.Contest
import NearMiss.HeaderIndex
import NearMiss.Tolerance

/-! Asking what an unresolved name was meant to be.

Every question is answered in one way: its candidates compete, under the
tolerance that the name's length allows or, for headers, for an exact match.
`unresolved` asks three questions in turn, and the first answer stands. -/
namespace NearMiss

/-- What is asked of a name. -/
inductive Question where
  /-- Which visible name is near, seen from a scope? -/
  | enclosing (scope : Scope.Id)
  /-- Which name in a namespace that the scope does not see into is near? -/
  | elsewhere (scope : Scope.Id)
  /-- Which header declares exactly this name? -/
  | missingHeader
  /-- Which direct member of the scope is near? -/
  | member (scope : Scope.Id)
  /-- Which enumerator of the scoped enumeration is near? -/
  | enumerator (enumeration : Scope.Id)
  /-- What is there to say of an unqualified name that did not resolve in the scope? -/
  | unresolved (scope : Scope.Id)
deriving DecidableEq

/-- All that a lookup reads. -/
structure Lookup where
  graph : Scope.Graph
  lexicon : Lexicon
  headers : HeaderIndex
  tolerance : Tolerance

namespace Lookup

def requireScope (lookup : Lookup) (scope : Scope.Id) : Except Fault Scope.Kind :=
  match lookup.graph.kind scope with
  | some kind => .ok kind
  | none => .error (.unknownScope scope)

def requireScopedEnumeration (lookup : Lookup) (scope : Scope.Id) : Except Fault Unit := do
  let kind ← lookup.requireScope scope
  if kind = .scopedEnumeration then return () else throw (.notScopedEnumeration scope)

/-- The best of the candidates that are near enough. -/
def nearest (lookup : Lookup) (name : Unresolved) (candidates : List Candidate) :
    Except Fault (Option Correction) := do
  let text ← lookup.lexicon.text name.symbol
  let edits := lookup.tolerance.threshold text.length
  let contest ← Contest.start lookup.lexicon lookup.tolerance.metric name.symbol (.within edits)
  contest.winner candidates name.span

def enclosing (lookup : Lookup) (name : Unresolved) (scope : Scope.Id) :
    Except Fault (Option Correction) := do
  let _ ← lookup.requireScope scope
  lookup.nearest name (Candidate.enclosing lookup.graph scope)

def elsewhere (lookup : Lookup) (name : Unresolved) (scope : Scope.Id) :
    Except Fault (Option Correction) := do
  let _ ← lookup.requireScope scope
  lookup.nearest name (Candidate.elsewhere lookup.graph scope)

def missingHeader (lookup : Lookup) (name : Unresolved) : Except Fault (Option Correction) := do
  let contest ← Contest.start lookup.lexicon lookup.tolerance.metric name.symbol .exact
  contest.winner (lookup.headers.candidates name.symbol) name.span

def member (lookup : Lookup) (name : Unresolved) (scope : Scope.Id) :
    Except Fault (Option Correction) := do
  let _ ← lookup.requireScope scope
  lookup.nearest name (Candidate.members lookup.graph scope)

def enumerator (lookup : Lookup) (name : Unresolved) (enumeration : Scope.Id) :
    Except Fault (Option Correction) := do
  lookup.requireScopedEnumeration enumeration
  lookup.nearest name (Candidate.enumerators lookup.graph enumeration)

/-- Visible names first, then names elsewhere, then headers. -/
def unresolved (lookup : Lookup) (name : Unresolved) (scope : Scope.Id) :
    Except Fault (Option Correction) := do
  match ← lookup.enclosing name scope with
  | some correction => return some correction
  | none =>
    match ← lookup.elsewhere name scope with
    | some correction => return some correction
    | none => lookup.missingHeader name

def ask (lookup : Lookup) (name : Unresolved) : Question → Except Fault (Option Correction)
  | .enclosing scope => lookup.enclosing name scope
  | .elsewhere scope => lookup.elsewhere name scope
  | .missingHeader => lookup.missingHeader name
  | .member scope => lookup.member name scope
  | .enumerator enumeration => lookup.enumerator name enumeration
  | .unresolved scope => lookup.unresolved name scope

end Lookup

end NearMiss
