import NearMiss.HeaderIndex

/-! What an index of headers lists.

An index holds symbols; what it lists are texts. `Lists` reads it through a
lexicon: a name has an entry exactly if one was given for it, and it is the first
of them. Adding an entry keeps that (`Lists.add`), and so does whatever is
interned later (`Lists.mono`). -/
namespace NearMiss.HeaderIndex

/-- The entries of an index are the first ones given for each name. -/
structure Lists (index : HeaderIndex) (entries : List (String × String)) (lexicon : Lexicon) :
    Prop where
  /-- Whatever is in the index was given. -/
  given : ∀ symbol header, index.find? symbol = some header →
    ∃ name text, lexicon.text? symbol = some name ∧ lexicon.text? header = some text ∧
      entries.lookup name = some text
  /-- Whatever was given is in the index. -/
  found : ∀ name text, entries.lookup name = some text →
    ∃ symbol header, lexicon.text? symbol = some name ∧ lexicon.text? header = some text ∧
      index.find? symbol = some header

/-- An index that was made of these entries with the lexicon, or with it at an earlier time. -/
def BuiltFrom (index : HeaderIndex) (entries : List (String × String)) (lexicon : Lexicon) : Prop :=
  ∃ before after, ofEntries entries before = .ok index after ∧ after.Extends lexicon

variable {index : HeaderIndex} {entries : List (String × String)} {lexicon : Lexicon}

theorem Lists.mono {later : Lexicon} (h : index.Lists entries lexicon)
    (kept : lexicon.Extends later) : index.Lists entries later where
  given := by
    intro symbol header here
    obtain ⟨name, text, named, spelled, listed⟩ := h.given symbol header here
    exact ⟨name, text, kept named, kept spelled, listed⟩
  found := by
    intro name text listed
    obtain ⟨symbol, header, named, spelled, here⟩ := h.found name text listed
    exact ⟨symbol, header, kept named, kept spelled, here⟩

theorem lists_empty (lexicon : Lexicon) : empty.Lists [] lexicon where
  given := by simp [find?, empty]
  found := by simp

section Named
variable (h : index.Lists entries lexicon) {symbol : Symbol} {name : String}
  (named : lexicon.text? symbol = some name)
include h named

/-- A header that is found is the one that was given first. -/
theorem Lists.lookup_of_find? {header : Symbol} (here : index.find? symbol = some header) :
    ∃ text, lexicon.text? header = some text ∧ entries.lookup name = some text := by
  obtain ⟨known, text, named', spelled, first⟩ := h.given symbol header here
  cases named.symm.trans named'
  exact ⟨text, spelled, first⟩

/-- The header that was given first is found. -/
theorem Lists.find?_of_lookup {text : String} (first : entries.lookup name = some text) :
    ∃ header, lexicon.text? header = some text ∧ index.find? symbol = some header := by
  obtain ⟨symbol', header, named', spelled, here⟩ := h.found name text first
  rw [Lexicon.text?_injective named named']
  exact ⟨header, spelled, here⟩

/-- A name has no entry in the index exactly if none was given for it. -/
theorem Lists.find?_eq_none_iff : index.find? symbol = none ↔ entries.lookup name = none := by
  constructor
  · intro absent
    cases first : entries.lookup name with
    | none => rfl
    | some text =>
      obtain ⟨_, _, here⟩ := h.find?_of_lookup named first
      cases absent.symm.trans here
  · intro unlisted
    cases here : index.find? symbol with
    | none => rfl
    | some header =>
      obtain ⟨_, _, first⟩ := h.lookup_of_find? named here
      cases unlisted.symm.trans first

end Named

/-- A name that has an entry keeps it; another one gets the entry that is added. -/
theorem add_cases {index' : HeaderIndex} {lexicon' : Lexicon} {name header : String}
    (h : index.add name header lexicon = .ok index' lexicon') :
    ∃ symbol middle, lexicon.intern name = .ok symbol middle ∧
      ((∃ old, index.find? symbol = some old ∧ index' = index ∧ lexicon' = middle) ∨
        index.find? symbol = none ∧ ∃ new, middle.intern header = .ok new lexicon' ∧
          ∀ other, index'.find? other = if symbol = other then some new else index.find? other) := by
  rw [add] at h
  obtain ⟨symbol, middle, interned, rest⟩ := bind_eq_ok_iff.mp h
  refine ⟨symbol, middle, interned, ?_⟩
  cases here : index.find? symbol with
  | some old =>
    have known : index.entries.contains symbol = true := by
      rw [Std.HashMap.contains_eq_isSome_getElem?]
      exact Option.isSome_of_eq_some here
    rw [if_pos known] at rest
    cases rest
    exact .inl ⟨old, rfl, rfl, rfl⟩
  | none =>
    have unknown : ¬index.entries.contains symbol = true := by
      rw [Std.HashMap.contains_eq_isSome_getElem?]
      exact Option.not_isSome_iff_eq_none.mpr here
    rw [if_neg unknown] at rest
    obtain ⟨new, last, interned', made⟩ := bind_eq_ok_iff.mp rest
    cases made
    refine .inr ⟨rfl, new, interned', fun other => ?_⟩
    simp [find?, Std.HashMap.getElem?_insert]

theorem lookup_concat (name header wanted : String) :
    (entries ++ [(name, header)]).lookup wanted =
      (entries.lookup wanted).or (if wanted = name then some header else none) := by
  rw [List.lookup_append, List.lookup_cons, List.lookup_nil]
  by_cases same : wanted = name
  · rw [if_pos same, beq_iff_eq.mpr same]
  · rw [if_neg same, beq_eq_false_iff_ne.mpr same]

/-- Another entry for a name counts for nothing. -/
theorem Lists.again (h : index.Lists entries lexicon) {name first : String}
    (listed : entries.lookup name = some first) (header : String) :
    index.Lists (entries ++ [(name, header)]) lexicon := by
  have lookup_eq (wanted : String) :
      (entries ++ [(name, header)]).lookup wanted = entries.lookup wanted := by
    rw [lookup_concat]
    split
    · next same => rw [same, listed, Option.some_or]
    · rw [Option.or_none]
  exact ⟨by simpa only [lookup_eq] using h.given, by simpa only [lookup_eq] using h.found⟩

/-- The first entry for a name is the one that counts. -/
theorem Lists.insert (h : index.Lists entries lexicon) {name header : String} {symbol new : Symbol}
    (named : lexicon.text? symbol = some name) (spelled : lexicon.text? new = some header)
    (absent : index.find? symbol = none) {index' : HeaderIndex}
    (find?_eq : ∀ other, index'.find? other = if symbol = other then some new else index.find? other) :
    index'.Lists (entries ++ [(name, header)]) lexicon := by
  have unlisted : entries.lookup name = none := (h.find?_eq_none_iff named).mp absent
  have lookup_eq (wanted : String) : (entries ++ [(name, header)]).lookup wanted =
      if wanted = name then some header else entries.lookup wanted := by
    rw [lookup_concat]
    split
    · next same => rw [same, unlisted, Option.none_or]
    · rw [Option.or_none]
  constructor
  · intro other head here
    rw [find?_eq] at here
    by_cases same : symbol = other
    · rw [if_pos same] at here
      cases here
      exact ⟨name, header, same ▸ named, spelled, by rw [lookup_eq, if_pos rfl]⟩
    · rw [if_neg same] at here
      obtain ⟨wanted, text, named', spelled', first⟩ := h.given other head here
      have apart : wanted ≠ name := fun equal =>
        same (Lexicon.text?_injective named (equal ▸ named'))
      exact ⟨wanted, text, named', spelled', by rw [lookup_eq, if_neg apart, first]⟩
  · intro wanted text first
    rw [lookup_eq] at first
    by_cases same : wanted = name
    · rw [if_pos same] at first
      cases first
      exact ⟨symbol, new, same ▸ named, spelled, by rw [find?_eq, if_pos rfl]⟩
    · rw [if_neg same] at first
      obtain ⟨other, head, named', spelled', here⟩ := h.found wanted text first
      have apart : symbol ≠ other := fun equal =>
        same (Option.some.inj (named'.symm.trans (equal ▸ named)))
      exact ⟨other, head, named', spelled', by rw [find?_eq, if_neg apart, here]⟩

/-- Adding an entry lists it, unless its name was listed before. -/
theorem Lists.add (h : index.Lists entries lexicon) {index' : HeaderIndex} {lexicon' : Lexicon}
    {name header : String} (added : index.add name header lexicon = .ok index' lexicon') :
    index'.Lists (entries ++ [(name, header)]) lexicon' ∧ lexicon.Extends lexicon' := by
  obtain ⟨symbol, middle, interned, outcome⟩ := add_cases added
  have kept := Lexicon.extends_of_intern interned
  have named := Lexicon.text?_of_intern interned
  rcases outcome with ⟨old, here, rfl, rfl⟩ | ⟨absent, new, interned', find?_eq⟩
  · have later := h.mono kept
    obtain ⟨_, _, first⟩ := later.lookup_of_find? named here
    exact ⟨later.again first header, kept⟩
  · have kept' := Lexicon.extends_of_intern interned'
    have spelled := Lexicon.text?_of_intern interned'
    have later := h.mono (kept.trans kept')
    exact ⟨later.insert (kept' named) spelled absent find?_eq, kept.trans kept'⟩

/-- Adding entries one after another lists them all. -/
theorem Lists.addAll (h : index.Lists entries lexicon) {more : List (String × String)}
    {index' : HeaderIndex} {lexicon' : Lexicon}
    (added : (more.foldlM (fun index (name, header) => index.add name header) index :
      Interning HeaderIndex) lexicon = .ok index' lexicon') :
    index'.Lists (entries ++ more) lexicon' ∧ lexicon.Extends lexicon' := by
  induction more generalizing index entries lexicon with
  | nil =>
    cases added
    rw [List.append_nil]
    exact ⟨h, .refl _⟩
  | cons entry rest ih =>
    rw [List.foldlM_cons] at added
    obtain ⟨index₁, lexicon₁, first, later⟩ := bind_eq_ok_iff.mp added
    obtain ⟨listed, kept⟩ := h.add first
    obtain ⟨listed', kept'⟩ := ih listed later
    rw [List.append_assoc] at listed'
    exact ⟨listed', kept.trans kept'⟩

theorem BuiltFrom.mono {later : Lexicon} (h : index.BuiltFrom entries lexicon)
    (kept : lexicon.Extends later) : index.BuiltFrom entries later := by
  obtain ⟨before, after, built, known⟩ := h
  exact ⟨before, after, built, known.trans kept⟩

theorem BuiltFrom.lists (h : index.BuiltFrom entries lexicon) : index.Lists entries lexicon := by
  obtain ⟨before, after, built, kept⟩ := h
  exact ((lists_empty before).addAll built).1.mono kept

end NearMiss.HeaderIndex
