/-! Edit distance within a band around the diagonal.

Row `i` of the distance matrix belongs to the first `i` characters of one text,
column `j` to the first `j` of the other. A cell that lies more than `cap` away
from the diagonal holds more than `cap`, so a comparison that only asks about
distances up to `cap` computes the window `lo i … hi i` of each row and writes
`far`, one more than the cap, for whatever it does not know to be smaller.
Three buffers serve all rows: a cell looks at its own row, the row above it and,
for a swap of two neighbouring characters, the row above that. `rows` is the
state after each row, `none` once a whole row has passed the cap, and `answer`
reads the last cell.

A comparison expects two nonempty texts, a cap no larger than the longer of
them, and lengths that differ by at most the cap; `size_rows` is the invariant
of the buffers under which every access below stays inside them. -/
namespace NearMiss

structure Band where
  /-- Whether exchanging two neighbouring characters is one edit. -/
  swaps : Bool
  source : Array Char
  goal : Array Char
  cap : Nat

namespace Band

/-- The rows a comparison keeps: the last two, and a buffer to write the next one into. -/
structure Rows where
  before : Array Nat
  last : Array Nat
  spare : Array Nat

variable (band : Band)

/-- Stands for every value above the cap. -/
def far : Nat := band.cap + 1

/-- The first column of row `i` that is computed. -/
def lo (i : Nat) : Nat := max (i - band.cap) 1

/-- The last column of row `i` that is computed. -/
def hi (i : Nat) : Nat := min (i + band.cap) band.goal.size

/-- Whether the last two characters of row `i` are those of column `j`, exchanged. -/
def exchanged (i j : Nat) : Bool :=
  band.swaps && 1 < i && 1 < j &&
    band.source[i - 1]? == band.goal[j - 2]? && band.source[i - 2]? == band.goal[j - 1]?

/-- Keeping a character costs nothing, replacing it one edit. -/
def replacement (i j : Nat) : Nat := if band.source[i - 1]? = band.goal[j - 1]? then 0 else 1

/-- The cheapest way into a cell: a deletion, an insertion, a replacement or an exchange. -/
def cell (before last current : Array Nat) (i j : Nat) : Nat :=
  let straight := min (min (last.getD j band.far + 1) (current.getD (j - 1) band.far + 1))
    (last.getD (j - 1) band.far + band.replacement i j)
  min (if band.exchanged i j then min straight (before.getD (j - 2) band.far + 1) else straight)
    band.far

/-- The value left of the window: the edge of the matrix where the window touches it. -/
def margin (i : Nat) : Nat := if band.lo i = 1 then min i band.far else band.far

/-- Row `i` after the first cells of its window, with the least value written so far. -/
def fill (before last : Array Nat) (i : Nat) (current : Array Nat) : Nat → Array Nat × Nat
  | 0 => (current.setIfInBounds (band.lo i - 1) (band.margin i), band.margin i)
  | filled + 1 =>
    let (current, least) := fill before last i current filled
    let value := band.cell before last current i (band.lo i + filled)
    (current.setIfInBounds (band.lo i + filled) value, min least value)

/-- How many cells the window of row `i` has. -/
def width (i : Nat) : Nat := band.hi i + 1 - band.lo i

/-- Closes a window that ends short of the last column, for the wider window of the next row. -/
def fence (i : Nat) (current : Array Nat) : Array Nat :=
  if band.hi i < band.goal.size then current.setIfInBounds (band.hi i + 1) band.far else current

/-- The buffers after row `i`. No later row falls below the least value of this one,
so a row beyond the cap ends the comparison. -/
def advance (i : Nat) (rows : Rows) : Option Rows :=
  let (current, least) := band.fill rows.before rows.last i rows.spare (band.width i)
  if least ≤ band.cap then some ⟨rows.last, band.fence i current, rows.before⟩ else none

/-- Row zero: a column costs as many insertions as it has characters. -/
def start : Rows :=
  let blank := Array.replicate (band.goal.size + 1) band.far
  ⟨blank, (Array.range (band.goal.size + 1)).map (min · band.far), blank⟩

/-- The buffers after the first rows. -/
def rows : Nat → Option Rows
  | 0 => some band.start
  | i + 1 => (rows i).bind (band.advance (i + 1))

/-- The distance, if it is at most the cap. -/
def answer : Option Nat :=
  (band.rows band.source.size).bind fun rows =>
    let distance := rows.last.getD band.goal.size band.far
    if distance ≤ band.cap then some distance else none

/-! ### The buffers keep their size -/

@[simp] theorem size_fill (before last : Array Nat) (i : Nat) (current : Array Nat) (filled : Nat) :
    (band.fill before last i current filled).1.size = current.size := by
  induction filled with
  | zero => simp [fill]
  | succ filled ih => simp [fill, ih]

@[simp] theorem size_fence (i : Nat) (current : Array Nat) :
    (band.fence i current).size = current.size := by
  unfold fence
  split <;> simp

/-- All three buffers have one cell for each column. -/
structure Rows.Sized (rows : Rows) (columns : Nat) : Prop where
  before : rows.before.size = columns
  last : rows.last.size = columns
  spare : rows.spare.size = columns

theorem sized_start : band.start.Sized (band.goal.size + 1) := by
  constructor <;> simp [start]

theorem sized_advance {i columns : Nat} {rows rows' : Rows} (h : rows.Sized columns)
    (step : band.advance i rows = some rows') : rows'.Sized columns := by
  unfold advance at step
  dsimp only at step
  split at step
  · cases step
    exact ⟨h.last, by simpa using h.spare, h.before⟩
  · cases step

theorem size_rows {i : Nat} {rows : Rows} (h : band.rows i = some rows) :
    rows.Sized (band.goal.size + 1) := by
  induction i generalizing rows with
  | zero =>
    cases h
    exact band.sized_start
  | succ i ih =>
    obtain ⟨earlier, reached, step⟩ := Option.bind_eq_some_iff.mp h
    exact band.sized_advance (ih reached) step

end Band

end NearMiss
