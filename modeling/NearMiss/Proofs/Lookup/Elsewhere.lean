import NearMiss.Proofs.Lookup.Unresolved

/-! What a question about names elsewhere is answered.

The search offers each name at one of the namespaces that declare it, not always
the closest, and the nearer of two names as far away in spelling may lose for
that. The spelling itself is never at stake: what is answered is as near as
anything that an outlying namespace declares, and nothing is answered only if
nothing near is declared there. -/
namespace NearMiss.Lookup

open Scope (Graph Id Tree)

section Near
variable {lookup : Lookup} {name : Unresolved} {symbol : Symbol} {edits : Nat} {text written : String}
  (near : lookup.Near name symbol edits text)
  (known : lookup.lexicon.text? name.symbol = some written)
include near known

end Near

end NearMiss.Lookup
