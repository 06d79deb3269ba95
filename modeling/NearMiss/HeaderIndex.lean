import NearMiss.Candidate.Basic
import NearMiss.Lexicon

/-! Which header declares a name.

An index answers for exact names only: it is there for a name that is spelled
correctly and merely not included. The first entry for a name counts. -/
namespace NearMiss

structure HeaderIndex where
  entries : Std.HashMap Symbol Symbol

namespace HeaderIndex

def empty : HeaderIndex := ⟨∅⟩

/-- The header that declares exactly this name. -/
def find? (index : HeaderIndex) (name : Symbol) : Option Symbol := index.entries[name]?

def size (index : HeaderIndex) : Nat := index.entries.size

def isEmpty (index : HeaderIndex) : Bool := index.entries.isEmpty

/-- Adds an entry unless its name has one. The header's text is interned only if it is added. -/
def add (index : HeaderIndex) (name header : String) : Interning HeaderIndex := do
  let name ← Interning.intern name
  if index.entries.contains name then return index
  else
    let header ← Interning.intern header
    return ⟨index.entries.insert name header⟩

def ofEntries (entries : List (String × String)) : Interning HeaderIndex :=
  entries.foldlM (fun index (name, header) => index.add name header) empty

/-- A name's entry, as the only candidate for it. -/
def candidates (index : HeaderIndex) (name : Symbol) : List Candidate :=
  ((index.find? name).map fun header => ⟨name, .header header, 0⟩).toList

end HeaderIndex

end NearMiss
