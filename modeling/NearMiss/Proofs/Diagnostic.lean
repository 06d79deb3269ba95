import Mathlib.Data.List.Basic
import NearMiss.Correction.Wording
import NearMiss.Proofs.Lookup.Visible

/-! What a diagnostic holds after any changes.

A change either cannot be worded, and then the whole diagnostic fails, or adds
the advice that `Change.added` tells (`change_cases`). Each insertion searches a
list that earlier insertions left in order, which is what makes the search right.
So the advice of a diagnostic is what was added, sorted by priority, and advice
of one priority stands as it was added. -/
namespace NearMiss.Diagnostic

/-- The advice that a change adds; an answer is worded first, and no answer adds nothing. -/
def Change.added : Change → Except Fault (List Advice)
  | .message _ => return []
  | .label _ _ => return []
  | .advice piece => return [piece]
  | .attach none _ _ => return []
  | .attach (some correction) graph lexicon => return [← correction.advice graph lexicon]

/-- The label that a change adds. -/
def Change.label? : Change → Option Label
  | .label span text => some ⟨span, text⟩
  | _ => none

/-- The message that a change sets. -/
def Change.message? : Change → Option String
  | .message text => some text
  | _ => none

/-- What stands in a diagnostic in the end that changes made of it, with the advice they added. -/
structure Collects (first : Diagnostic) (changes : List Change) (added : List Advice)
    (last : Diagnostic) : Prop where
  code_eq : last.code = first.code
  message_eq : last.message = (changes.filterMap Change.message?).getLastD first.message
  labels_eq : last.labels = first.labels ++ changes.filterMap Change.label?
  perm : last.advice.Perm (first.advice ++ added)
  inOrder : InOrder last.advice
  /-- Advice of one priority stands in the order it was added in. -/
  stable : ∀ priority, last.advice.filter (·.priority = priority) =
    (first.advice ++ added).filter (·.priority = priority)

theorem Collects.refl {diagnostic : Diagnostic} (h : InOrder diagnostic.advice) :
    Collects diagnostic [] [] diagnostic where
  code_eq := rfl
  message_eq := rfl
  labels_eq := (List.append_nil _).symm
  perm := by rw [List.append_nil]
  inOrder := h
  stable _ := by rw [List.append_nil]

theorem Collects.trans {first middle last : Diagnostic} {changes further : List Change}
    {added more : List Advice} (h : Collects first changes added middle)
    (h' : Collects middle further more last) :
    Collects first (changes ++ further) (added ++ more) last where
  code_eq := h'.code_eq.trans h.code_eq
  message_eq := by
    rw [h'.message_eq, h.message_eq, List.filterMap_append, List.getLastD_eq_getLast?,
      List.getLastD_eq_getLast?, List.getLastD_eq_getLast?, List.getLast?_append, Option.getD_or]
  labels_eq := by
    rw [h'.labels_eq, h.labels_eq, List.filterMap_append, List.append_assoc]
  perm := by
    rw [← List.append_assoc]
    exact h'.perm.trans (h.perm.append_right more)
  inOrder := h'.inOrder
  stable priority := by
    rw [h'.stable, List.filter_append, h.stable, ← List.filter_append, List.append_assoc]

/-! ### One change -/

theorem collects_advise {diagnostic : Diagnostic} (h : InOrder diagnostic.advice) (advice : Advice)
    {change : Change} (silent : change.label? = none) (mute : change.message? = none) :
    Collects diagnostic [change] [advice] (diagnostic.advise advice) where
  code_eq := rfl
  message_eq := by
    rw [List.filterMap_cons_none mute]
    rfl
  labels_eq := by
    rw [List.filterMap_cons_none silent, List.filterMap_nil, List.append_nil]
    rfl
  perm := (insertAdvice_perm h).trans (List.perm_append_singleton _ _).symm
  inOrder := inOrder_insertAdvice h
  stable := filter_insertAdvice h

/-- All that a change can do. -/
theorem change_cases (diagnostic : Diagnostic) (change : Change) :
    (∃ fault, change.added = .error fault ∧ diagnostic.change change = .error fault) ∨
      ∃ added next, change.added = .ok added ∧ diagnostic.change change = .ok next ∧
        (InOrder diagnostic.advice → Collects diagnostic [change] added next) := by
  cases change with
  | message message =>
    refine .inr ⟨[], diagnostic.withMessage message, rfl, rfl, fun h => ?_⟩
    exact { Collects.refl h with message_eq := rfl }
  | label span message =>
    refine .inr ⟨[], diagnostic.withLabel span message, rfl, rfl, fun h => ?_⟩
    exact { Collects.refl h with labels_eq := rfl }
  | advice advice =>
    exact .inr ⟨[advice], diagnostic.advise advice, rfl, rfl,
      fun h => collects_advise h advice rfl rfl⟩
  | attach answer graph lexicon =>
    cases answer with
    | none => exact .inr ⟨[], diagnostic, rfl, rfl, fun h =>
      { Collects.refl h with message_eq := rfl, labels_eq := (List.append_nil _).symm }⟩
    | some correction =>
      rw [Change.added, Diagnostic.change, attach]
      cases worded : correction.advice graph lexicon with
      | error fault => exact .inl ⟨fault, rfl, rfl⟩
      | ok advice =>
        exact .inr ⟨[advice], diagnostic.advise advice, rfl, rfl,
          fun h => collects_advise h advice rfl rfl⟩

/-! ### Any changes -/

/-- All that changes can do. Each finds the advice in the order that those before it left. -/
theorem foldlM_change_cases (first : Diagnostic) (changes : List Change) :
    (∃ fault, changes.mapM Change.added = .error fault ∧
        changes.foldlM change first = .error fault) ∨
      ∃ added last, changes.mapM Change.added = .ok added ∧
        changes.foldlM change first = .ok last ∧
        (InOrder first.advice → Collects first changes added.flatten last) := by
  induction changes generalizing first with
  | nil => exact .inr ⟨[], first, rfl, rfl, Collects.refl⟩
  | cons change rest ih =>
    rw [List.mapM_cons, List.foldlM_cons]
    rcases change_cases first change with ⟨fault, unworded, failed⟩ | ⟨added, next, worded, done, h⟩
    · rw [unworded, failed]
      exact .inl ⟨fault, rfl, rfl⟩
    · rw [worded, done]
      rcases ih next with ⟨fault, unworded, failed⟩ | ⟨more, last, worded, ended, h'⟩
      · exact .inl ⟨fault, by rw [unworded]; rfl, failed⟩
      · refine .inr ⟨added :: more, last, by rw [worded]; rfl, ended, fun ordered => ?_⟩
        have begun := h ordered
        exact begun.trans (h' begun.inOrder)

theorem advice_ofOpening (opening : Opening) : (ofOpening opening).advice = [] := by
  cases opening <;> rfl

/-- **Advice is sorted as it is added.** A diagnostic fails exactly where some answer cannot be
worded. Otherwise it holds all advice that was added and nothing else, by priority, and of one
priority in the order it was added; the labels it began with and then those that were added; the
message that was set last; and the code it began with. -/
theorem compose_sorts (opening : Opening) (changes : List Change) :
    (∀ fault, changes.mapM Change.added = .error fault → compose opening changes = .error fault) ∧
    ∀ added, changes.mapM Change.added = .ok added →
      ∃ diagnostic, compose opening changes = .ok diagnostic ∧
        diagnostic.advice.Perm added.flatten ∧
        InOrder diagnostic.advice ∧
        (∀ priority, diagnostic.advice.filter (·.priority = priority) =
          added.flatten.filter (·.priority = priority)) ∧
        diagnostic.labels = (ofOpening opening).labels ++ changes.filterMap Change.label? ∧
        diagnostic.message =
          (changes.filterMap Change.message?).getLastD (ofOpening opening).message ∧
        diagnostic.code = (ofOpening opening).code := by
  have began := advice_ofOpening opening
  rcases foldlM_change_cases (ofOpening opening) changes with
    ⟨fault, unworded, failed⟩ | ⟨added, last, worded, done, h⟩
  · rw [unworded]
    refine ⟨fun other same => ?_, fun _ other => (by cases other)⟩
    cases same
    exact failed
  · rw [worded]
    refine ⟨fun _ other => (by cases other), fun other same => ?_⟩
    cases same
    have collected := h (by rw [began]; exact List.Pairwise.nil)
    have perm := collected.perm
    have stable := collected.stable
    rw [began, List.nil_append] at perm stable
    exact ⟨last, done, perm, collected.inOrder, stable, collected.labels_eq, collected.message_eq,
      collected.code_eq⟩

/-- Advice that comes with the least relevant piece first, a worded answer and an empty one among
it. -/
def lateFirst : List Change :=
  [.advice (.remark "late" 2), .attach (some ⟨⟨805306368⟩, .enclosing, .dummy, 1⟩)
    Lookup.palette.graph Lookup.colors, .message "no such colour", .advice (.remark "middle" 1),
    .attach none Lookup.palette.graph Lookup.colors, .advice (.remark "also first" 0)]

theorem lateFirst_sorted :
    lateFirst.mapM Change.added = .ok [[.remark "late" 2], [.didYouMean .dummy "color"], [],
      [.remark "middle" 1], [], [.remark "also first" 0]] ∧
    ∃ diagnostic, compose (.unknownIdentifier .dummy "colr") lateFirst = .ok diagnostic ∧
      InOrder diagnostic.advice ∧
      diagnostic.advice.filter (·.priority = 0) =
        [.didYouMean .dummy "color", .remark "also first" 0] ∧
      diagnostic.message = "no such colour" ∧
      diagnostic.labels = [⟨.dummy, "not found in this scope"⟩] := by
  have named : Lookup.colors.text ⟨805306368⟩ = .ok "color" :=
    Lexicon.text_eq_ok_iff.mpr (by decide +kernel)
  have worded : lateFirst.mapM Change.added = .ok [[.remark "late" 2],
      [.didYouMean .dummy "color"], [], [.remark "middle" 1], [], [.remark "also first" 0]] := by
    simp only [lateFirst, List.mapM_cons, List.mapM_nil, Change.added, Correction.advice, named]
    rfl
  obtain ⟨diagnostic, done, _, ordered, stable, labels, message, _⟩ :=
    (compose_sorts (.unknownIdentifier .dummy "colr") lateFirst).2 _ worded
  exact ⟨worded, diagnostic, done, ordered, (stable 0).trans (by decide), message, labels⟩

end NearMiss.Diagnostic
