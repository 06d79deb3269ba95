import NearMiss.Correction

/-! Diagnostics for names that did not resolve.

A diagnostic has a code, a message, labels on the source and advice. Advice is
kept in the order of its priorities, a lower number first, and in the order it
was given where priorities are equal. A new piece finds its place by halving the
list (`boundary`), which relies on the order that it keeps up. -/
namespace NearMiss

namespace Diagnostic

/-- What the name was looked up as. -/
inductive Code where
  | unknownIdentifier
  | unknownMember
  | unknownEnumerator
deriving DecidableEq

def Code.text : Code → String
  | unknownIdentifier => "E2003"
  | unknownMember => "E2004"
  | unknownEnumerator => "E2005"

/-- How sure a piece of advice is. -/
inductive Confidence where
  /-- A correction by spelling: nothing checked that it makes sense where it stands. -/
  | maybeIncorrect
  | unspecified
deriving DecidableEq

/-- Advice that does not say how sure it is. -/
instance : Inhabited Confidence := ⟨.unspecified⟩

/-- Text to put in the place of a range; an empty range inserts. -/
structure Edit where
  span : Span
  text : String
deriving DecidableEq

structure Label where
  span : Span
  message : String
deriving DecidableEq

structure Advice where
  message : String
  /-- What to change; advice may be in words only. -/
  edits : List Edit
  confidence : Confidence
  /-- The lower, the more relevant. -/
  priority : UInt8
deriving DecidableEq

namespace Advice

/-- Advice to make one edit. -/
def edit (message : String) (span : Span) (text : String) (confidence : Confidence)
    (priority : UInt8) : Advice :=
  { message, edits := [⟨span, text⟩], confidence, priority }

/-- Advice in words only. -/
def remark (message : String) (priority : UInt8) : Advice :=
  { message, edits := [], confidence := .unspecified, priority }

def guess (message : String) (span : Span) (text : String) : Advice :=
  edit message span text .maybeIncorrect 0

def didYouMean (span : Span) (replacement : String) : Advice :=
  guess s!"did you mean `{replacement}`?" span replacement

/-- Where the directive belongs is not known here, so this advice has no edit. -/
def includeHeader (name header : String) : Advice :=
  remark s!"`{name}` is defined in header `{header}`; did you forget to `#include {header}`?" 0

def isRemark (advice : Advice) : Bool := advice.edits.isEmpty

end Advice

end Diagnostic

structure Diagnostic where
  code : Diagnostic.Code
  message : String
  labels : List Diagnostic.Label
  advice : List Diagnostic.Advice
deriving DecidableEq

namespace Diagnostic

/-- A diagnostic that says nothing yet. -/
def bare (code : Code) : Diagnostic := ⟨code, "", [], []⟩

def withMessage (diagnostic : Diagnostic) (message : String) : Diagnostic :=
  { diagnostic with message }

def withLabel (diagnostic : Diagnostic) (span : Span) (message : String) : Diagnostic :=
  { diagnostic with labels := diagnostic.labels ++ [⟨span, message⟩] }

/-- Where a list stops passing a test, found by halving the range `first … last` that the place
lies in. The answer is of use only for a list that passes up to some place and fails from there. -/
def boundary (test : Advice → Bool) (listed : List Advice) (first last : Nat) : Nat :=
  if first < last then
    let middle := first + (last - first) / 2
    if listed[middle]?.any test then boundary test listed (middle + 1) last
    else boundary test listed first middle
  else first
termination_by last - first

/-- A list of advice with one more piece, behind everything that is at least as relevant. -/
def insertAdvice (advice : Advice) (listed : List Advice) : List Advice :=
  let place := boundary (·.priority ≤ advice.priority) listed 0 listed.length
  listed.take place ++ advice :: listed.drop place

def advise (diagnostic : Diagnostic) (advice : Advice) : Diagnostic :=
  { diagnostic with advice := insertAdvice advice diagnostic.advice }

def describe (diagnostic : Diagnostic) : String :=
  s!"error[{diagnostic.code.text}]: {diagnostic.message}"

/-- Ways to begin a diagnostic. -/
inductive Opening where
  | bare (code : Code)
  | unknownIdentifier (span : Span) (name : String)
  /-- A name that a qualifier looked for in `scope`; the global namespace has no name. -/
  | unknownMember (span : Span) (scope name : String)
  | unknownEnumerator (span : Span) (enumeration name : String)
deriving DecidableEq

def ofOpening : Opening → Diagnostic
  | .bare code => bare code
  | .unknownIdentifier span name =>
    (bare .unknownIdentifier).withMessage s!"use of undeclared identifier `{name}`"
      |>.withLabel span "not found in this scope"
  | .unknownMember span scope name =>
    let scope := if scope.isEmpty then "::" else scope
    (bare .unknownMember).withMessage s!"no member named `{name}` in `{scope}`"
      |>.withLabel span s!"not found in `{scope}`"
  | .unknownEnumerator span enumeration name =>
    (bare .unknownEnumerator).withMessage s!"no enumerator named `{name}` in `{enumeration}`"
      |>.withLabel span s!"not an enumerator of `{enumeration}`"

/-! ### Advice stays in order -/

/-- No piece of advice stands before a more relevant one. -/
def InOrder (listed : List Advice) : Prop := listed.Pairwise (·.priority ≤ ·.priority)

/-- The search finds the place, if the list has one. -/
theorem boundary_append {test : Advice → Bool} {front back : List Advice}
    (ahead : ∀ advice ∈ front, test advice = true)
    (behind : ∀ advice ∈ back, test advice = false) {first last : Nat}
    (after : first ≤ front.length) (before : front.length ≤ last) :
    boundary test (front ++ back) first last = front.length := by
  induction range : last - first using Nat.strongRecOn generalizing first last with
  | ind range ih =>
    rw [boundary]
    split
    · dsimp only
      have halved : first + (last - first) / 2 < last := by omega
      have further : first ≤ first + (last - first) / 2 := Nat.le_add_right _ _
      generalize first + (last - first) / 2 = middle at halved further
      by_cases inFront : middle < front.length
      · have holds : (front ++ back)[middle]?.any test = true := by
          rw [List.getElem?_append_left inFront, List.getElem?_eq_getElem inFront, Option.any_some]
          exact ahead _ (List.getElem_mem inFront)
        rw [if_pos holds]
        exact ih (last - (middle + 1)) (by omega) inFront before rfl
      · have fails : (front ++ back)[middle]?.any test = false := by
          rw [List.getElem?_append_right (Nat.le_of_not_lt inFront)]
          cases here : back[middle - front.length]? with
          | none => rfl
          | some advice => exact behind advice (List.mem_of_getElem? here)
        rw [if_neg (by simp [fails])]
        exact ih (middle - first) (by omega) after (Nat.le_of_not_lt inFront) rfl
    · omega

section InOrder
variable {advice : Advice} {listed : List Advice} (h : InOrder listed)
include h

/-- Behind the first less relevant piece all are less relevant. -/
theorem lt_of_mem_dropWhile {other : Advice}
    (on : other ∈ listed.dropWhile (·.priority ≤ advice.priority)) :
    advice.priority < other.priority := by
  induction listed with
  | nil => cases on
  | cons first rest ih =>
    obtain ⟨least, ordered⟩ := List.pairwise_cons.mp h
    rw [List.dropWhile_cons] at on
    split at on
    · exact ih ordered on
    · next behind =>
      have nearer : advice.priority < first.priority :=
        UInt8.not_le.mp (by simpa using behind)
      rcases List.mem_cons.mp on with rfl | later
      · exact nearer
      · exact UInt8.lt_of_lt_of_le nearer (least other later)

/-- In a list in order, advice is inserted between what is at least as relevant and the rest. -/
theorem insertAdvice_eq : insertAdvice advice listed =
    listed.takeWhile (·.priority ≤ advice.priority) ++
      advice :: listed.dropWhile (·.priority ≤ advice.priority) := by
  have ahead : ∀ other ∈ listed.takeWhile (·.priority ≤ advice.priority),
      decide (other.priority ≤ advice.priority) = true := List.all_eq_true.mp List.all_takeWhile
  have behind : ∀ other ∈ listed.dropWhile (·.priority ≤ advice.priority),
      decide (other.priority ≤ advice.priority) = false := fun _ on =>
    decide_eq_false (UInt8.not_le.mpr (lt_of_mem_dropWhile h on))
  have parts : listed.takeWhile (·.priority ≤ advice.priority) ++
      listed.dropWhile (·.priority ≤ advice.priority) = listed := List.takeWhile_append_dropWhile
  generalize listed.takeWhile (·.priority ≤ advice.priority) = front at *
  generalize listed.dropWhile (·.priority ≤ advice.priority) = back at *
  have place : boundary (·.priority ≤ advice.priority) listed 0 listed.length = front.length := by
    rw [← parts]
    exact boundary_append ahead behind (Nat.zero_le _) (by simp)
  rw [insertAdvice, place, ← parts, List.take_left, List.drop_left]

theorem insertAdvice_perm : (insertAdvice advice listed).Perm (advice :: listed) := by
  rw [insertAdvice_eq h]
  refine List.perm_middle.trans ?_
  rw [List.takeWhile_append_dropWhile]

theorem inOrder_insertAdvice : InOrder (insertAdvice advice listed) := by
  rw [insertAdvice_eq h, InOrder, List.pairwise_append, List.pairwise_cons]
  have relevant : ∀ other ∈ listed.takeWhile (·.priority ≤ advice.priority),
      other.priority ≤ advice.priority := fun other on =>
    of_decide_eq_true (List.all_eq_true.mp List.all_takeWhile other on)
  have later : ∀ other ∈ listed.dropWhile (·.priority ≤ advice.priority),
      advice.priority ≤ other.priority := fun _ on => UInt8.le_of_lt (lt_of_mem_dropWhile h on)
  refine ⟨h.sublist (List.takeWhile_sublist _), ⟨later, h.sublist (List.dropWhile_sublist _)⟩, ?_⟩
  intro nearer on other on'
  rcases List.mem_cons.mp on' with rfl | on'
  · exact relevant nearer on
  · exact UInt8.le_trans (relevant nearer on) (later other on')

/-- Among advice of one priority the new piece is the last. -/
theorem filter_insertAdvice (priority : UInt8) :
    (insertAdvice advice listed).filter (·.priority = priority) =
      (listed ++ [advice]).filter (·.priority = priority) := by
  rw [insertAdvice_eq h, List.filter_append, List.filter_append]
  by_cases same : advice.priority = priority
  · have none : (listed.dropWhile (·.priority ≤ advice.priority)).filter
        (·.priority = priority) = [] := by
      refine List.filter_eq_nil_iff.mpr fun other on => ?_
      have later := lt_of_mem_dropWhile h on
      simpa [← same] using (UInt8.ne_of_lt later).symm
    have parts : listed.filter (·.priority = priority) =
        (listed.takeWhile (·.priority ≤ advice.priority)).filter (·.priority = priority) ++
          (listed.dropWhile (·.priority ≤ advice.priority)).filter (·.priority = priority) := by
      rw [← List.filter_append, List.takeWhile_append_dropWhile]
    rw [parts, none, List.append_nil, List.filter_cons_of_pos (by simpa using same), none,
      List.filter_cons_of_pos (by simpa using same), List.filter_nil]
  · rw [List.filter_cons_of_neg (by simpa using same), ← List.filter_append,
      List.takeWhile_append_dropWhile, List.filter_cons_of_neg (by simpa using same),
      List.filter_nil, List.append_nil]

end InOrder

end Diagnostic

end NearMiss
