import NearMiss.Scope.Basic

/-! What can go wrong.

The first two are refusals: a lookup was asked about a scope it cannot work
with. The others are broken promises of the caller, save `shardFull`, which is
the lexicon running out of handles. A name with nothing similar in sight is not
a fault. -/
namespace NearMiss

inductive Fault where
  | unknownScope (scope : Scope.Id)
  | notScopedEnumeration (scope : Scope.Id)
  /-- A scope was to be opened in a scope the tree does not own. -/
  | foreignParent (parent : Scope.Id)
  /-- A name was to be declared in a scope the tree does not own. -/
  | foreignScope (scope : Scope.Id)
  /-- The text of a symbol was asked of a lexicon that never gave it out. -/
  | danglingSymbol (symbol : Symbol)
  | shardFull (shard count : Nat)
deriving DecidableEq

namespace Fault

def message : Fault → String
  | unknownScope scope => s!"scope {scope.raw} does not belong to the scope graph"
  | notScopedEnumeration scope => s!"scope {scope.raw} is not a scoped enumeration"
  | foreignParent parent => s!"parent scope {parent.raw} does not belong to this tree"
  | foreignScope _ => "index out of bounds"
  | danglingSymbol _ => "index out of bounds"
  | shardFull shard count =>
    s!"interner shard {shard} exceeded capacity: {count} strings, max is {Symbol.slotCount - 1}"

end Fault

/-! ### Computations that keep a state

`EStateM Fault σ` changes a state as it goes and may fail; what it changed before it
failed stays changed. -/

/-- A result that needs no state leaves it as it is. -/
instance {σ : Type} : MonadLift (Except Fault) (EStateM Fault σ) where
  monadLift
    | .ok value => fun state => .ok value state
    | .error fault => fun state => .error fault state

/-- What a computation came to, beside the state it left. -/
def outcome {σ α : Type} : EStateM.Result Fault σ α → Except Fault α × σ
  | .ok value state => (.ok value, state)
  | .error fault state => (.error fault, state)

theorem get_apply {σ : Type} (state : σ) : (get : EStateM Fault σ σ) state = .ok state state := rfl

theorem liftM_ok {σ α : Type} (value : α) (state : σ) :
    (liftM (Except.ok value : Except Fault α) : EStateM Fault σ α) state = .ok value state := rfl

theorem liftM_error {σ α : Type} (fault : Fault) (state : σ) :
    (liftM (Except.error fault : Except Fault α) : EStateM Fault σ α) state =
      .error fault state := rfl

/-- What succeeds in two parts succeeds in the first, and then in the second. -/
theorem bind_eq_ok_iff {σ α β : Type} {work : EStateM Fault σ α} {next : α → EStateM Fault σ β}
    {state last : σ} {result : β} :
    (work >>= next) state = .ok result last ↔
      ∃ value middle, work state = .ok value middle ∧ next value middle = .ok result last := by
  show EStateM.bind work next state = .ok result last ↔ _
  unfold EStateM.bind
  cases work state with
  | ok value middle => simp [and_assoc]
  | error fault middle => simp

/-- What fails in two parts fails in the first, or in the second after the first succeeded. -/
theorem bind_eq_error_iff {σ α β : Type} {work : EStateM Fault σ α} {next : α → EStateM Fault σ β}
    {state last : σ} {fault : Fault} :
    (work >>= next) state = .error fault last ↔
      work state = .error fault last ∨
        ∃ value middle, work state = .ok value middle ∧ next value middle = .error fault last := by
  show EStateM.bind work next state = .error fault last ↔ _
  unfold EStateM.bind
  cases work state with
  | ok value middle => simp [and_assoc]
  | error other middle => simp

/-- A result of two parts, without a state. -/
theorem except_bind_eq_ok_iff {α β : Type} {first : Except Fault α} {next : α → Except Fault β}
    {result : β} :
    (first >>= next) = .ok result ↔ ∃ value, first = .ok value ∧ next value = .ok result := by
  show Except.bind first next = .ok result ↔ _
  cases first with
  | ok value => simp [Except.bind]
  | error fault => simp [Except.bind]

end NearMiss
