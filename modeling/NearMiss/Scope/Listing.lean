import NearMiss.Lexicon

/-! Scopes as somebody else lists them.

A listing answers with exactly what each entry says and checks nothing: members
may repeat, and entries may point at scopes that have none. A scope without an
entry has no kind, nothing around it and nothing in it. -/
namespace NearMiss.Scope

/-- What is listed of a scope, with names spelled by `α`. -/
structure Entry (α : Type) where
  id : Id
  kind : Option Kind
  parent : Option Id
  name : Option α
  members : List α
  childNamespaces : List Id

structure Listing where
  entries : Std.HashMap Id (Entry Symbol)

namespace Entry

/-- The entry with its texts interned: the scope's name, then its members. -/
def intern (entry : Entry String) : Interning (Entry Symbol) := do
  let name ← entry.name.mapM Interning.intern
  let members ← Interning.internAll entry.members
  return { entry with name, members }

end Entry

namespace Listing

/-- A listing of some entries; of several for one scope the last one counts. -/
def ofEntries (entries : List (Entry Symbol)) : Listing :=
  ⟨entries.foldl (fun known entry => known.insert entry.id entry) ∅⟩

/-- A listing whose texts are interned in the order they are listed. -/
def ofTexts (entries : List (Entry String)) : Interning Listing :=
  return ofEntries (← entries.mapM Entry.intern)

def graph (listing : Listing) : Graph where
  kind scope := (listing.entries[scope]?).bind (·.kind)
  parent scope := (listing.entries[scope]?).bind (·.parent)
  name scope := (listing.entries[scope]?).bind (·.name)
  members scope := (listing.entries[scope]?).elim [] (·.members)
  childNamespaces scope := (listing.entries[scope]?).elim [] (·.childNamespaces)

end Listing

end NearMiss.Scope
