import NearMiss.Diagnostic
import NearMiss.Lexicon

/-! What a correction says.

A name found elsewhere is spelled with its path, the named scopes around it; a
missing header is named, and every other name is offered as it is. The graph
serves for paths only. -/
namespace NearMiss

namespace Scope.Graph

/-- The names of a scope and of what encloses it, outermost first. Anonymous scopes
leave no trace. -/
def nameChain (graph : Graph) (scope : Id) : List Symbol :=
  ((graph.chain scope).filterMap graph.name).reverse

/-- The global namespace has the empty path. -/
def path (graph : Graph) (lexicon : Lexicon) (scope : Id) : Except Fault String := do
  let segments ← (graph.nameChain scope).mapM lexicon.text
  return "::".intercalate segments

end Scope.Graph

namespace Correction

def advice (correction : Correction) (graph : Scope.Graph) (lexicon : Lexicon) :
    Except Fault Diagnostic.Advice := do
  let name ← lexicon.text correction.symbol
  match correction.origin with
  | .enclosing | .enumerator _ | .member _ =>
    return .didYouMean correction.span name
  | .elsewhere home =>
    let path ← graph.path lexicon home
    return .didYouMean correction.span s!"{path}::{name}"
  | .header header =>
    return .includeHeader name (← lexicon.text header)

end Correction

namespace Diagnostic

/-- Adds what a correction says; an answer without one adds nothing. -/
def attach (diagnostic : Diagnostic) (answer : Option Correction) (graph : Scope.Graph)
    (lexicon : Lexicon) : Except Fault Diagnostic :=
  match answer with
  | none => return diagnostic
  | some correction => return diagnostic.advise (← correction.advice graph lexicon)

/-- Ways to go on with a diagnostic. -/
inductive Change where
  | message (message : String)
  | label (span : Span) (message : String)
  | advice (advice : Advice)
  /-- An answer, worded in the scopes and the lexicon at hand. -/
  | attach (answer : Option Correction) (graph : Scope.Graph) (lexicon : Lexicon)

def change (diagnostic : Diagnostic) : Change → Except Fault Diagnostic
  | .message message => return diagnostic.withMessage message
  | .label span message => return diagnostic.withLabel span message
  | .advice advice => return diagnostic.advise advice
  | .attach answer graph lexicon => diagnostic.attach answer graph lexicon

/-- A diagnostic from its opening and the changes made to it. -/
def compose (opening : Opening) (changes : List Change) : Except Fault Diagnostic :=
  changes.foldlM change (ofOpening opening)

end Diagnostic

end NearMiss
