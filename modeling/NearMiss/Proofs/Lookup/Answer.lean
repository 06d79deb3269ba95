import NearMiss.Proofs.EditDistance.Script
import NearMiss.Proofs.Lookup.Offered
import NearMiss.Proofs.Tolerance

/-! What every answer looks like.

An answer is one of two kinds: another name that is near, found in a scope, or
the written name itself with its header (`near_or_header_of_ask`). They cannot be
taken for each other. Another name has another text, because symbols and texts
determine each other, and only equal texts are no edits apart. -/
namespace NearMiss.Lookup

variable {lookup : Lookup} {name : Unresolved}

/-- An answer comes from a contest of near names that some scope declares, or from the headers. -/
theorem nearest_or_missingHeader_of_ask {question : Question} {correction : Correction}
    (asked : lookup.ask name question = .ok (some correction)) :
    (∃ candidates, (∀ candidate ∈ candidates, candidate.Attested lookup.graph) ∧
        lookup.nearest name candidates = .ok (some correction)) ∨
      lookup.missingHeader name = .ok (some correction) := by
  cases question with
  | missingHeader => exact .inr asked
  | enclosing scope =>
    obtain ⟨_, _, nearest⟩ := except_bind_eq_ok_iff.mp asked
    exact .inl ⟨_, fun _ on => Candidate.attested_of_mem_enclosing on, nearest⟩
  | elsewhere scope =>
    obtain ⟨_, _, nearest⟩ := except_bind_eq_ok_iff.mp asked
    exact .inl ⟨_, fun _ on => Candidate.attested_of_mem_elsewhere on, nearest⟩
  | member scope =>
    obtain ⟨_, _, nearest⟩ := except_bind_eq_ok_iff.mp asked
    exact .inl ⟨_, fun _ on => Candidate.attested_of_mem_firstOfEach .member on, nearest⟩
  | enumerator enumeration =>
    obtain ⟨_, _, nearest⟩ := except_bind_eq_ok_iff.mp asked
    exact .inl ⟨_, fun _ on => Candidate.attested_of_mem_firstOfEach .enumerator on, nearest⟩
  | unresolved scope =>
    obtain ⟨first, around, asked⟩ := except_bind_eq_ok_iff.mp asked
    cases first with
    | some found =>
      cases asked
      obtain ⟨_, _, nearest⟩ := except_bind_eq_ok_iff.mp around
      exact .inl ⟨_, fun _ on => Candidate.attested_of_mem_enclosing on, nearest⟩
    | none =>
      obtain ⟨second, apart, asked⟩ := except_bind_eq_ok_iff.mp asked
      cases second with
      | some found =>
        cases asked
        obtain ⟨_, _, nearest⟩ := except_bind_eq_ok_iff.mp apart
        exact .inl ⟨_, fun _ on => Candidate.attested_of_mem_elsewhere on, nearest⟩
      | none => exact .inr asked

/-- Who wins a contest of near names is near. -/
theorem pool_of_nearest {candidates : List Candidate} {correction : Correction}
    (asked : lookup.nearest name candidates = .ok (some correction)) :
    ∃ winner, lookup.Pool name (· ∈ candidates) winner ∧
      correction = winner.correction name.span := by
  obtain ⟨written, known⟩ := knows_of_nearest asked
  rw [nearest_eq known (spelled_of_nearest asked), Except.ok.injEq, Option.map_eq_some_iff] at asked
  obtain ⟨winner, best, made⟩ := asked
  exact ⟨winner, (mem_entrants_iff known).mp (Entrant.mem_of_best best), made.symm⟩

/-- A header is offered for the written name itself. -/
theorem eq_of_missingHeader {correction : Correction}
    (asked : lookup.missingHeader name = .ok (some correction)) :
    ∃ header, correction = ⟨name.symbol, .header header, name.span, 0⟩ := by
  have question : lookup.ask name .missingHeader = .ok (some correction) := asked
  obtain ⟨written, known⟩ := knows_of_ask question
  rw [missingHeader_eq known, Except.ok.injEq, Option.map_eq_some_iff] at asked
  obtain ⟨header, _, made⟩ := asked
  exact ⟨header, made.symm⟩

/-- The two kinds of answers. -/
theorem near_or_header_of_ask {question : Question} {correction : Correction}
    (asked : lookup.ask name question = .ok (some correction)) :
    (correction.span = name.span ∧ (∀ header, correction.origin ≠ .header header) ∧
        ∃ text, lookup.Near name correction.symbol correction.distance text) ∨
      ∃ header, correction = ⟨name.symbol, .header header, name.span, 0⟩ := by
  rcases nearest_or_missingHeader_of_ask asked with ⟨candidates, attested, nearest⟩ | entered
  · obtain ⟨winner, ⟨on, near⟩, rfl⟩ := pool_of_nearest nearest
    refine .inl ⟨rfl, fun header origin => ?_, winner.text, near⟩
    obtain ⟨scope, _, tells⟩ := attested _ on
    rw [show winner.candidate.origin = .header header from origin] at tells
    cases tells
  · exact .inr (eq_of_missingHeader entered)

/-- A near name is spelled otherwise, so it is at least one edit away. -/
theorem Near.distance_pos {symbol : Symbol} {edits : Nat} {text written : String}
    (near : lookup.Near name symbol edits text)
    (known : lookup.lexicon.text? name.symbol = some written) : text ≠ written ∧ 0 < edits := by
  have apart : text ≠ written := by
    rintro rfl
    exact near.other (Lexicon.text?_injective near.spelled known)
  refine ⟨apart, Nat.pos_of_ne_zero ?_⟩
  rintro rfl
  obtain ⟨written', known', measured, _⟩ := near.close
  cases known.symm.trans known'
  exact apart (Metric.eq_of_lastCell_eq_zero _ measured).symm

/-- There is an answer for `colr` in the enumeration, where `color` is visible. -/
theorem exists_ask_palette : ∃ correction,
    paletteLookup.ask colr (.enclosing ⟨1⟩) = .ok (some correction) ∧
      correction.origin = .enclosing := by
  have owned : (⟨1⟩ : Scope.Id).index < palette.size := by decide
  obtain ⟨answer, asked, settled⟩ := enclosing_settles inTree_palette text?_colr owned
  cases settled with
  | nobody empty => exact absurd color_near_colr (empty _)
  | best here _ => exact ⟨_, asked, here.1.origin_eq⟩

/-- **Every answer is well formed.** It stands where the name was written. Whether it names a
header, is no edits away, is the written symbol or has the written text are one and the same thing.
Any other answer is as many edits away as the two texts are, at least one, and at most one for each
`charsPerEdit` characters of the written text, rounded up, and at most `maxEdits`. So for an empty
text, or with no edits allowed, there is no such answer. -/
theorem answer_well_formed {lookup : Lookup} {name : Unresolved} {question : Question}
    {correction : Correction} (asked : lookup.ask name question = .ok (some correction)) :
    ∃ written text, lookup.lexicon.text? name.symbol = some written ∧
      lookup.lexicon.text? correction.symbol = some text ∧
      correction.span = name.span ∧
      ((∃ header, correction.origin = .header header) ↔ correction.distance = 0) ∧
      (correction.distance = 0 ↔ correction.symbol = name.symbol) ∧
      (correction.symbol = name.symbol ↔ text = written) ∧
      ((∀ header, correction.origin ≠ .header header) →
        1 ≤ correction.distance ∧
        correction.distance ≤ min (written.length ⌈/⌉ max lookup.tolerance.charsPerEdit 1)
          lookup.tolerance.maxEdits ∧
        correction.distance = lookup.tolerance.metric.distance written text) ∧
      (written = "" ∨ lookup.tolerance.maxEdits = 0 →
        ∃ header, correction.origin = .header header) := by
  obtain ⟨written, known⟩ := knows_of_ask asked
  rcases near_or_header_of_ask asked with ⟨span, origin, text, near⟩ | ⟨header, rfl⟩
  · obtain ⟨apart, positive⟩ := near.distance_pos known
    obtain ⟨written', known', measured, close⟩ := near.close
    cases known.symm.trans known'
    have noHeader : ¬∃ header, correction.origin = .header header := not_exists.mpr origin
    have far : correction.distance ≠ 0 := Nat.ne_of_gt positive
    refine ⟨written, text, known, near.spelled, span, iff_of_false noHeader far,
      iff_of_false far near.other, iff_of_false near.other apart, fun _ => ⟨positive, ?_, ?_⟩,
      fun strict => ?_⟩
    · rw [← Tolerance.threshold_eq]
      exact close
    · rw [Metric.distance_eq, measured]
    · have forbidden : lookup.tolerance.threshold written.length = 0 := by
        rcases strict with rfl | strict
        · exact Tolerance.threshold_zero _
        · exact Nat.le_zero.mp (strict ▸ lookup.tolerance.threshold_le _)
      omega
  · exact ⟨written, written, known, known, rfl, iff_of_true ⟨header, rfl⟩ rfl, iff_of_true rfl rfl,
      iff_of_true rfl rfl, fun other => absurd rfl (other header), fun _ => ⟨header, rfl⟩⟩

theorem color_answer_well_formed : ∃ correction,
    paletteLookup.ask colr (.enclosing ⟨1⟩) = .ok (some correction) ∧
      correction.span = .dummy ∧ (∀ header, correction.origin ≠ .header header) ∧
      correction.symbol ≠ colr.symbol ∧ 1 ≤ correction.distance ∧ correction.distance ≤ 2 := by
  obtain ⟨correction, asked, origin⟩ := exists_ask_palette
  have noHeader : ∀ header, correction.origin ≠ .header header := by
    intro header other
    cases origin.symm.trans other
  obtain ⟨written, _, known, _, span, header, same, _, bounds, _⟩ := answer_well_formed asked
  cases text?_colr.symm.trans known
  obtain ⟨least, most, _⟩ := bounds noHeader
  have far : correction.distance ≠ 0 := Nat.ne_of_gt least
  exact ⟨correction, asked, span, noHeader, mt same.mpr far, least,
    most.trans (by decide +kernel)⟩

end NearMiss.Lookup
