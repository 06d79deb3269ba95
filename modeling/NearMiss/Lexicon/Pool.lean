import NearMiss.Lexicon

/-! Lexicons behind numbered handles.

A handle is given out for each new lexicon, and another for each time one is
shared; what is interned through a handle is seen through every handle of the
same lexicon. -/
namespace NearMiss

structure Pool where
  lexicons : Array Lexicon
  /-- The lexicon behind each handle. -/
  handles : Array Nat

namespace Pool

/-- One empty lexicon, behind handle 0. -/
def start : Pool := ⟨#[.empty], #[0]⟩

/-- A new lexicon, with its handle. -/
def add (pool : Pool) : Nat × Pool :=
  (pool.handles.size,
    ⟨pool.lexicons.push .empty, pool.handles.push pool.lexicons.size⟩)

/-- One more handle for the lexicon behind a handle. -/
def share (pool : Pool) (handle : Nat) : Option (Nat × Pool) :=
  (pool.handles[handle]?).map fun place =>
    (pool.handles.size, { pool with handles := pool.handles.push place })

def lexicon? (pool : Pool) (handle : Nat) : Option Lexicon :=
  (pool.handles[handle]?).bind fun place => pool.lexicons[place]?

/-- Interns through a handle. -/
def interning {α : Type} (pool : Pool) (handle : Nat) (work : Interning α) :
    Option (Except Fault α × Pool) := do
  let place ← pool.handles[handle]?
  let lexicon ← pool.lexicons[place]?
  let (result, lexicon) := outcome (work lexicon)
  return (result, { pool with lexicons := pool.lexicons.setIfInBounds place lexicon })

end Pool

end NearMiss
