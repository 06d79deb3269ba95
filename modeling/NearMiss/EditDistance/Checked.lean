import NearMiss.EditDistance.Metric

/-! A comparison that checks each of its steps.

The band falls back on a default where an access misses its buffer, cuts
differences off at zero and counts as far as it likes. A machine does none of
this. Here the same comparison is made of steps that a machine can take: an
access has to meet its buffer, a difference must not be negative, a sum has to
fit into a word, and a row must have something to compute. The first step that
fails ends the comparison with a `Trap`. -/
namespace NearMiss

/-- Why a step fails. -/
inductive Trap where
  /-- An access outside of a buffer or of a text. -/
  | outside
  /-- A difference below zero. -/
  | negative
  /-- A sum that does not fit into a word. -/
  | overflow
  /-- A row that ends before it begins. -/
  | emptyWindow
deriving DecidableEq

/-! ### Steps -/

namespace Checked

/-- The numbers below this one fit into a word. -/
def wordBound : Nat := 18446744073709551616

def add (a b : Nat) : Except Trap Nat :=
  if a + b < wordBound then .ok (a + b) else .error .overflow

def sub (a b : Nat) : Except Trap Nat :=
  if b ≤ a then .ok (a - b) else .error .negative

def read {α : Type} (cells : Array α) (place : Nat) : Except Trap α :=
  if inside : place < cells.size then .ok cells[place] else .error .outside

def write {α : Type} (cells : Array α) (place : Nat) (value : α) : Except Trap (Array α) :=
  if inside : place < cells.size then .ok (cells.set place value) else .error .outside

/-- How many cells there are from the first to the last of a row. -/
def width (first last : Nat) : Except Trap Nat :=
  if first ≤ last then .ok (last + 1 - first) else .error .emptyWindow

theorem ok_bind {α β : Type} (value : α) (next : α → Except Trap β) :
    (Except.ok value >>= next) = next value := rfl

theorem add_eq {a b : Nat} (fits : a + b < wordBound) : add a b = .ok (a + b) := if_pos fits

theorem sub_eq {a b : Nat} (below : b ≤ a) : sub a b = .ok (a - b) := if_pos below

theorem width_eq {first last : Nat} (h : first ≤ last) :
    width first last = .ok (last + 1 - first) := if_pos h

theorem read_eq {α : Type} {cells : Array α} {place : Nat} {value : α}
    (here : cells[place]? = some value) : read cells place = .ok value := by
  obtain ⟨inside, rfl⟩ := Array.getElem?_eq_some_iff.mp here
  exact dif_pos inside

theorem read_eq_getD {α : Type} {cells : Array α} {place : Nat} (inside : place < cells.size)
    (default : α) : read cells place = .ok (cells.getD place default) :=
  read_eq (by simp [inside])

theorem write_eq {α : Type} {cells : Array α} {place : Nat} (inside : place < cells.size)
    (value : α) : write cells place value = .ok (cells.setIfInBounds place value) := by
  rw [write, dif_pos inside, Array.setIfInBounds, dif_pos inside]

end Checked

/-! ### The comparison

Each definition takes the steps of the one it is named after. -/

namespace Band

open Checked (add sub read write)

variable (band : Band)

/-- A character is looked at only after what was asked before it has turned out true. -/
def checkedExchanged (i j : Nat) : Except Trap Bool := do
  if band.swaps && 1 < i && 1 < j then
    let last ← read band.source (← sub i 1)
    let aim ← read band.goal (← sub j 2)
    if last = aim then
      let last ← read band.source (← sub i 2)
      let aim ← read band.goal (← sub j 1)
      return last == aim
    else return false
  else return false

def checkedCell (far : Nat) (before last current : Array Nat) (i j : Nat) : Except Trap Nat := do
  let kept := (← read band.source (← sub i 1)) == (← read band.goal (← sub j 1))
  let deletion ← add (← read last j) 1
  let insertion ← add (← read current (← sub j 1)) 1
  let replacement ← add (← read last (← sub j 1)) (if kept then 0 else 1)
  let straight := min (min deletion insertion) replacement
  if ← band.checkedExchanged i j then
    let exchange ← add (← read before (← sub j 2)) 1
    return min (min straight exchange) far
  else return min straight far

/-- The least value so far is compared with what has been written. -/
def checkedFill (far : Nat) (before last : Array Nat) (i : Nat) (current : Array Nat) :
    Nat → Except Trap (Array Nat × Nat)
  | 0 => do
    let edge ← sub (band.lo i) 1
    let current ← write current edge (if band.lo i = 1 then min i far else far)
    return (current, ← read current edge)
  | filled + 1 => do
    let part ← checkedFill far before last i current filled
    let column := band.lo i + filled
    let current ← write part.1 column (← band.checkedCell far before last part.1 i column)
    return (current, min part.2 (← read current column))

def checkedFence (far last : Nat) (current : Array Nat) : Except Trap (Array Nat) := do
  if last < band.goal.size then write current (← add last 1) far else return current

def checkedAdvance (far i : Nat) (rows : Rows) : Except Trap (Option Rows) := do
  let last := min (← add i band.cap) band.goal.size
  let width ← Checked.width (band.lo i) last
  let filled ← band.checkedFill far rows.before rows.last i rows.spare width
  let current ← band.checkedFence far last filled.1
  return if filled.2 ≤ band.cap then some ⟨rows.last, current, rows.before⟩ else none

def checkedRows (far : Nat) (start : Rows) : Nat → Except Trap (Option Rows)
  | 0 => return some start
  | i + 1 => do
    match ← checkedRows far start i with
    | none => return none
    | some rows => band.checkedAdvance far (i + 1) rows

def checkedAnswer : Except Trap (Option Nat) := do
  let far ← add band.cap 1
  let columns ← add band.goal.size 1
  let blank := Array.replicate columns far
  let start : Rows := ⟨blank, (Array.range columns).map (min · far), blank⟩
  match ← band.checkedRows far start band.source.size with
  | none => return none
  | some rows =>
    let distance ← read rows.last band.goal.size
    return if distance ≤ band.cap then some distance else none

end Band

/-- The distance of two character sequences, if it is at most `cap`, in checked steps. -/
def Metric.checkedBounded (metric : Metric) (cap : Nat) (source goal : Array Char) :
    Except Trap (Option Nat) :=
  let longer := max source.size goal.size
  if cap < longer - min source.size goal.size then return none
  else if source.isEmpty || goal.isEmpty then return some longer
  else (metric.band cap source goal).checkedAnswer

end NearMiss
