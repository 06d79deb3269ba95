import NearMiss.Candidate.Basic

/-! A name that did not resolve, and the answer to it: the one name that was
most likely meant, if any.

A correction holds symbols and no text; what it says is worked out only when a
diagnostic is shown. The range a name was written at is never looked into: it is
handed back, unread, on the correction that answers the name. -/
namespace NearMiss

/-- A range of byte offsets, the end excluded. The two ends need not be ordered. -/
structure Span where
  start : UInt32
  stop : UInt32
deriving DecidableEq

namespace Span

/-- The range of a name that no source text spells. -/
def dummy : Span := ⟨0, 0⟩

def describe (range : Span) : String := s!"{range.start}..{range.stop}"

end Span

/-- A name that resolved to nothing, with the range it was written at. -/
structure Unresolved where
  symbol : Symbol
  span : Span
deriving DecidableEq

structure Correction where
  /-- The name, unqualified. -/
  symbol : Symbol
  origin : Origin
  /-- Where the unresolved name was written. -/
  span : Span
  /-- Edits away from the unresolved name; a missing header is none away. -/
  distance : Nat
deriving DecidableEq

namespace Correction

/-- The header to include, where that is what is missing. -/
def header? (correction : Correction) : Option Symbol :=
  match correction.origin with
  | .header header => some header
  | _ => none

end Correction

end NearMiss
