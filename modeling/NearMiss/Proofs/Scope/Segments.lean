import Mathlib.Data.String.Basic

/-! Paths come apart where they were joined.

A text is cut at every `::` from the left. Segments without colons that are
joined by `::` are what cutting gives back (`splitOn_intercalate_colons`): up to
the end of a segment there is nothing to cut at, and behind it there is. -/
namespace NearMiss.Scope
open String (ofList utf8Len)

section Cursor
variable {text : String} {before found rest : List Char} {char : Char}

/-- What is seen at a place inside a text. -/
theorem get_and_next (h : text = ofList (before ++ char :: rest)) :
    String.Pos.Raw.get text ⟨utf8Len before⟩ = char ∧
      String.Pos.Raw.next text ⟨utf8Len before⟩ = ⟨utf8Len (before ++ [char])⟩ ∧
      ¬String.Pos.Raw.atEnd text ⟨utf8Len before⟩ = true := by
  subst h
  refine ⟨String.get_of_valid before (char :: rest), ?_, ?_⟩
  · rw [String.next_of_valid]
    simp
  · rw [String.atEnd_of_valid]
    exact List.cons_ne_nil char rest

/-- A character that is no colon belongs to the piece at hand. -/
theorem splitOnAux_of_ne (other : char ≠ ':')
    (h : text = ofList (before ++ found ++ char :: rest)) (done : List String) :
    text.splitOnAux "::" ⟨utf8Len before⟩ ⟨utf8Len (before ++ found)⟩ 0 done =
      text.splitOnAux "::" ⟨utf8Len before⟩ ⟨utf8Len (before ++ (found ++ [char]))⟩ 0 done := by
  obtain ⟨here, next, inside⟩ := get_and_next h
  have colon : String.Pos.Raw.get "::" 0 = ':' := by decide
  have back : (⟨utf8Len (before ++ found)⟩ : String.Pos.Raw).unoffsetBy 0 =
    ⟨utf8Len (before ++ found)⟩ := rfl
  rw [String.splitOnAux, if_neg inside, here, colon, if_neg (by simpa using other), back, next,
    List.append_assoc]

/-- Two colons end the piece, and a new one begins behind them. -/
theorem splitOnAux_of_colons (h : text = ofList (before ++ found ++ ':' :: ':' :: rest))
    (done : List String) :
    text.splitOnAux "::" ⟨utf8Len before⟩ ⟨utf8Len (before ++ found)⟩ 0 done =
      text.splitOnAux "::" ⟨utf8Len (before ++ found ++ [':', ':'])⟩
        ⟨utf8Len (before ++ found ++ [':', ':'])⟩ 0 (ofList found :: done) := by
  have h' : text = ofList (before ++ found ++ [':'] ++ ':' :: rest) := by
    rw [h, List.append_assoc (before ++ found), List.singleton_append]
  obtain ⟨first, next, inside⟩ := get_and_next h
  obtain ⟨second, next', inside'⟩ := get_and_next h'
  have colon : String.Pos.Raw.get "::" 0 = ':' := by decide
  have step : String.Pos.Raw.next "::" 0 = ⟨1⟩ := by decide
  have more : ¬String.Pos.Raw.atEnd "::" ⟨1⟩ = true := by decide
  have colon' : String.Pos.Raw.get "::" ⟨1⟩ = ':' := by decide
  have step' : String.Pos.Raw.next "::" ⟨1⟩ = ⟨2⟩ := by decide
  have whole : String.Pos.Raw.atEnd "::" ⟨2⟩ = true := by decide
  have piece := String.extract_of_valid before found (':' :: ':' :: rest)
  have back : (⟨utf8Len (before ++ found ++ [':'] ++ [':'])⟩ : String.Pos.Raw).unoffsetBy ⟨2⟩ =
      ⟨utf8Len before + utf8Len found⟩ := by
    have width : ':'.utf8Size = 1 := rfl
    apply String.Pos.Raw.ext
    simp only [String.Pos.Raw.unoffsetBy, String.utf8Len_append, String.utf8Len_cons,
      String.utf8Len_nil, width]
    omega
  rw [String.splitOnAux, if_neg inside, first, colon, if_pos (beq_self_eq_true _), next, step]
  dsimp only
  rw [if_neg more, String.splitOnAux, if_neg inside', second, colon',
    if_pos (beq_self_eq_true _), next', step']
  dsimp only
  rw [if_pos whole, back, h, piece, List.append_assoc (before ++ found)]
  rfl

theorem splitOnAux_of_end (h : text = ofList (before ++ found)) (done : List String) :
    text.splitOnAux "::" ⟨utf8Len before⟩ ⟨utf8Len (before ++ found)⟩ 0 done =
      (ofList found :: done).reverse := by
  have ended := (String.atEnd_of_valid (before ++ found) []).mpr rfl
  have piece := String.extract_of_valid before found []
  rw [List.append_nil, ← h] at ended piece
  rw [String.splitOnAux, if_pos ended, String.utf8Len_append, piece]

theorem splitOnAux_of_plain {piece : List Char} (plain : ':' ∉ piece)
    (h : text = ofList (before ++ found ++ (piece ++ rest))) (done : List String) :
    text.splitOnAux "::" ⟨utf8Len before⟩ ⟨utf8Len (before ++ found)⟩ 0 done =
      text.splitOnAux "::" ⟨utf8Len before⟩ ⟨utf8Len (before ++ (found ++ piece))⟩ 0 done := by
  induction piece generalizing found with
  | nil => rw [List.append_nil]
  | cons char piece ih =>
    have other : char ≠ ':' := fun same => plain (same ▸ List.mem_cons_self)
    rw [splitOnAux_of_ne other h, ih fun on => plain (List.mem_cons_of_mem _ on)]
    · simp
    · simp [h]

/-- Pieces without colons come apart where two colons joined them. -/
theorem splitOnAux_intercalate {first : List Char} {others : List (List Char)}
    (plain : ∀ piece ∈ first :: others, ':' ∉ piece)
    (h : text = ofList (before ++ [':', ':'].intercalate (first :: others))) (done : List String) :
    text.splitOnAux "::" ⟨utf8Len before⟩ ⟨utf8Len before⟩ 0 done =
      done.reverse ++ (first :: others).map ofList := by
  induction others generalizing before first done with
  | nil =>
    have whole : text = ofList (before ++ [] ++ (first ++ [])) := by
      rw [h]
      simp
    have start := splitOnAux_of_plain (plain first List.mem_cons_self) whole done
    rw [List.append_nil, List.nil_append] at start
    rw [start, splitOnAux_of_end, List.reverse_cons]
    · rfl
    · rw [whole]
      simp
  | cons second others ih =>
    rw [List.intercalate_cons_cons] at h
    have here : text = ofList (before ++ [] ++
        (first ++ ':' :: ':' :: [':', ':'].intercalate (second :: others))) := by
      rw [h]
      simp
    have start := splitOnAux_of_plain (plain first List.mem_cons_self) here done
    rw [List.append_nil, List.nil_append] at start
    rw [List.append_nil, ← List.append_assoc] at here
    have behind : text = ofList (before ++ first ++ [':', ':'] ++
        [':', ':'].intercalate (second :: others)) := by
      rw [here]
      simp
    rw [start, splitOnAux_of_colons here, ih (fun piece on => plain piece (.tail _ on)) behind]
    simp

end Cursor

/-- Texts without colons come apart where two colons joined them. -/
theorem splitOn_intercalate_colons {pieces : List String} (any : pieces ≠ [])
    (plain : ∀ piece ∈ pieces, ':' ∉ piece.toList) :
    ("::".intercalate pieces).splitOn "::" = pieces := by
  obtain ⟨first, others, rfl⟩ := List.exists_cons_of_ne_nil any
  have joined : "::".intercalate (first :: others) =
      ofList ([] ++ [':', ':'].intercalate (first.toList :: others.map String.toList)) := by
    apply String.toList_inj.mp
    rw [String.toList_intercalate]
    exact String.toList_ofList.symm
  have apart : ∀ piece ∈ first.toList :: others.map String.toList, ':' ∉ piece := by
    intro piece on
    rw [← List.map_cons] at on
    obtain ⟨text, listed, rfl⟩ := List.mem_map.mp on
    exact plain text listed
  have split := splitOnAux_intercalate apart joined []
  rw [← List.map_cons, List.map_map] at split
  have same : ofList ∘ String.toList = id := funext fun _ => String.ofList_toList
  rw [same, List.map_id, List.reverse_nil, List.nil_append] at split
  exact split

end NearMiss.Scope
