import Mathlib.Data.Finset.Image
import NearMiss.Proofs.HeaderIndex
import NearMiss.Proofs.Lexicon.Room
import NearMiss.Proofs.Lookup.Unresolved

/-! What a list of headers interns, and whether it can.

An index needs the names of its entries and, for each name, the header of its
first entry (`needed`). Making the index interns just these (`Learned`), whether
they were known before, stand for a name and a header, or are given many times;
and it fails only if some shard has no room for them (`fits_addAll`). -/
namespace NearMiss.HeaderIndex

open Interning (Fits fits_pure fits_intern)

/-- The names, and the header that comes first for each of them. -/
def needed (entries : List (String × String)) : Finset String :=
  (entries.map Prod.fst ++ entries.filterMap fun entry => entries.lookup entry.1).toFinset

/-- The lexicon knows what it knew before and what the entries need, and nothing else. -/
def Learned (before : Lexicon) (entries : List (String × String)) (lexicon : Lexicon) : Prop :=
  ∀ text, (lexicon.find? text).isSome ↔ (before.find? text).isSome ∨ text ∈ needed entries

variable {entries : List (String × String)} {name header text : String}

/-! ### What is needed -/

theorem mem_of_lookup (h : entries.lookup name = some text) : (name, text) ∈ entries := by
  obtain ⟨earlier, later, rfl, _⟩ := List.lookup_eq_some_iff.mp h
  exact List.mem_append_right _ List.mem_cons_self

theorem exists_lookup_iff :
    (∃ text, entries.lookup name = some text) ↔ name ∈ entries.map Prod.fst := by
  rw [← Option.isSome_iff_exists, List.lookup_isSome_iff, List.mem_map]
  simp only [beq_iff_eq, @eq_comm _ name]

theorem mem_needed_iff : text ∈ needed entries ↔
    text ∈ entries.map Prod.fst ∨ ∃ name, entries.lookup name = some text := by
  rw [needed, List.mem_toFinset, List.mem_append, List.mem_filterMap]
  constructor
  · rintro (named | ⟨entry, _, first⟩)
    · exact .inl named
    · exact .inr ⟨entry.1, first⟩
  · rintro (named | ⟨name, first⟩)
    · exact .inl named
    · exact .inr ⟨(name, text), mem_of_lookup first, first⟩

theorem exists_lookup_concat_iff :
    (∃ wanted, (entries ++ [(name, header)]).lookup wanted = some text) ↔
      (∃ wanted, entries.lookup wanted = some text) ∨
        entries.lookup name = none ∧ text = header := by
  constructor
  · intro ⟨wanted, first⟩
    rw [lookup_concat, Option.or_eq_some_iff] at first
    rcases first with old | ⟨absent, new⟩
    · exact .inl ⟨wanted, old⟩
    · split at new
      · next same =>
        cases new
        exact .inr ⟨same ▸ absent, rfl⟩
      · cases new
  · rintro (⟨wanted, old⟩ | ⟨absent, rfl⟩)
    · exact ⟨wanted, by rw [lookup_concat, old, Option.some_or]⟩
    · exact ⟨name, by rw [lookup_concat, absent, if_pos rfl, Option.none_or]⟩

/-- One entry more needs its name, and its header if the name is new. -/
theorem mem_needed_concat_iff : text ∈ needed (entries ++ [(name, header)]) ↔
    text ∈ needed entries ∨ text = name ∨ entries.lookup name = none ∧ text = header := by
  rw [mem_needed_iff, mem_needed_iff, exists_lookup_concat_iff, List.map_append, List.mem_append,
    List.map_singleton, List.mem_singleton]
  exact or_or_or_comm

/-! ### What is interned -/

section Add
variable {index index' : HeaderIndex} {lexicon lexicon' : Lexicon}
  (h : index.Lists entries lexicon)
include h

theorem Lists.learned_add {before : Lexicon} (learned : Learned before entries lexicon)
    (added : index.add name header lexicon = .ok index' lexicon') :
    Learned before (entries ++ [(name, header)]) lexicon' := by
  intro text
  obtain ⟨symbol, middle, interned, outcome⟩ := add_cases added
  have named := Lexicon.text?_of_intern interned
  have later := h.mono (Lexicon.extends_of_intern interned)
  have known := Lexicon.isSome_find?_of_intern interned text
  rw [learned text] at known
  rw [mem_needed_concat_iff]
  rcases outcome with ⟨old, here, _, rfl⟩ | ⟨absent, new, interned', _⟩
  · have listed : ¬entries.lookup name = none := by
      rw [← later.find?_eq_none_iff named, here]
      exact Option.some_ne_none old
    rw [known, or_assoc]
    simp only [listed, false_and, or_false]
  · have unlisted := (later.find?_eq_none_iff named).mp absent
    rw [Lexicon.isSome_find?_of_intern interned' text, known, or_assoc, or_assoc]
    simp only [unlisted, true_and]

/-- Adding an entry interns nothing that is not needed, and fails only for want of room. -/
theorem Lists.fits_add {texts : Finset String} (on : name ∈ texts)
    (also : entries.lookup name = none → header ∈ texts) :
    Fits lexicon texts (index.add name header lexicon) := by
  refine (fits_intern on).bind fun symbol middle interned => ?_
  have named := Lexicon.text?_of_intern interned
  have later := h.mono (Lexicon.extends_of_intern interned)
  split
  · exact fits_pure index
  · next unknown =>
    have absent : index.find? symbol = none := by
      rw [Std.HashMap.contains_eq_isSome_getElem?] at unknown
      exact Option.not_isSome_iff_eq_none.mp unknown
    refine (fits_intern (also ((later.find?_eq_none_iff named).mp absent))).bind ?_
    exact fun _ _ _ => fits_pure _

theorem Lists.learned_addAll {before : Lexicon} (learned : Learned before entries lexicon)
    {more : List (String × String)}
    (added : (more.foldlM (fun index (name, header) => index.add name header) index :
      Interning HeaderIndex) lexicon = .ok index' lexicon') :
    Learned before (entries ++ more) lexicon' := by
  induction more generalizing index entries lexicon with
  | nil =>
    cases added
    rwa [List.append_nil]
  | cons entry rest ih =>
    rw [List.foldlM_cons] at added
    obtain ⟨index₁, lexicon₁, first, later⟩ := bind_eq_ok_iff.mp added
    have learned' := ih (h.add first).1 (h.learned_add learned first) later
    rwa [List.append_assoc] at learned'

theorem Lists.fits_addAll {texts : Finset String} {more : List (String × String)}
    (enough : needed (entries ++ more) ⊆ texts) :
    Fits lexicon texts ((more.foldlM (fun index (name, header) => index.add name header) index :
      Interning HeaderIndex) lexicon) := by
  induction more generalizing index entries lexicon with
  | nil => exact fits_pure index
  | cons entry rest ih =>
    obtain ⟨name, header⟩ := entry
    rw [List.foldlM_cons]
    refine (h.fits_add ?_ ?_).bind fun index₁ lexicon₁ first => ih (h.add first).1 ?_
    · exact enough (mem_needed_iff.mpr (.inl (by simp)))
    · intro unlisted
      exact enough (mem_needed_iff.mpr (.inr ⟨name, by simp [List.lookup_append, unlisted]⟩))
    · rwa [List.append_assoc]

end Add

/-! ### The index of a list -/

section OfEntries
variable {before after : Lexicon} {index : HeaderIndex}

theorem learned_ofEntries (made : ofEntries entries before = .ok index after) :
    Learned before entries after := by
  have nothing : Learned before [] before := fun text => by simp [needed]
  exact (lists_empty before).learned_addAll nothing made

/-- An index is made exactly if every shard has room for what is needed. -/
theorem exists_ofEntries_iff : (∃ index after, ofEntries entries before = .ok index after) ↔
    ∀ k, before.demand (needed entries) k ≤ Symbol.slotCount := by
  have fits : Fits before (needed entries) (ofEntries entries before) :=
    (lists_empty before).fits_addAll (Finset.Subset.refl _)
  cases made : ofEntries entries before with
  | ok index after =>
    rw [made] at fits
    have known : ∀ text ∈ needed entries, (after.find? text).isSome := fun text on =>
      (learned_ofEntries made text).mpr (.inr on)
    refine iff_of_true ⟨index, after, rfl⟩ fun k => ?_
    rw [← fits k]
    exact Lexicon.demand_le_of_known known k
  | error fault after =>
    rw [made] at fits
    obtain ⟨k, full⟩ := fits
    exact iff_of_false (by simp) fun room => absurd (room k) (Nat.not_le.mpr full)

theorem mem_keys_iff {symbol : Symbol} :
    symbol ∈ index.entries.keys ↔ ∃ header, index.find? symbol = some header := by
  rw [Std.HashMap.mem_keys, Std.HashMap.mem_iff_isSome_getElem?, Option.isSome_iff_exists]
  rfl

/-- An index has as many entries as names were given. -/
theorem Lists.size_eq {lexicon : Lexicon} (h : index.Lists entries lexicon) :
    index.size = (entries.map Prod.fst).toFinset.card := by
  have texts : index.entries.keys.toFinset.image lexicon.text? =
      (entries.map Prod.fst).toFinset.image some := by
    ext spelling
    simp only [Finset.mem_image, List.mem_toFinset, mem_keys_iff, ← exists_lookup_iff]
    constructor
    · rintro ⟨symbol, ⟨header, here⟩, rfl⟩
      obtain ⟨name, text, named, _, first⟩ := h.given symbol header here
      exact ⟨name, ⟨text, first⟩, named.symm⟩
    · rintro ⟨name, ⟨text, first⟩, rfl⟩
      obtain ⟨symbol, header, named, _, here⟩ := h.found name text first
      exact ⟨symbol, ⟨header, here⟩, named⟩
  have apart : Set.InjOn lexicon.text? (index.entries.keys.toFinset : Set Symbol) := by
    intro a on b _ same
    obtain ⟨header, here⟩ := mem_keys_iff.mp (List.mem_toFinset.mp on)
    obtain ⟨name, _, named, _⟩ := h.given a header here
    exact Lexicon.text?_injective named (same ▸ named)
  rw [← Finset.card_image_of_injective _ (Option.some_injective _), ← texts,
    Finset.card_image_of_injOn apart, List.toFinset_card_of_nodup Std.HashMap.nodup_keys,
    Std.HashMap.length_keys]
  rfl

end OfEntries

/-! ### What is told of a name -/

section Later
variable {index : HeaderIndex} {later : Lexicon} (h : index.Lists entries later)
include h

theorem Lists.find?_eq_some_iff {symbol found : Symbol} : index.find? symbol = some found ↔
    ∃ name text, later.text? symbol = some name ∧ entries.lookup name = some text ∧
      later.text? found = some text := by
  constructor
  · intro here
    obtain ⟨name, text, named, spelled, first⟩ := h.given symbol found here
    exact ⟨name, text, named, first, spelled⟩
  · intro ⟨name, text, named, first, spelled⟩
    obtain ⟨found', spelled', here⟩ := h.find?_of_lookup named first
    rw [Lexicon.text?_injective spelled spelled']
    exact here

/-- The header given first for the written name is told. -/
theorem Lists.missingHeader_of_lookup {graph : Scope.Graph} {tolerance : Tolerance}
    {name : Unresolved} {written text : String} (known : later.text? name.symbol = some written)
    (first : entries.lookup written = some text) :
    ∃ header, later.text? header = some text ∧
      Lookup.missingHeader ⟨graph, later, index, tolerance⟩ name =
        .ok (some ⟨name.symbol, .header header, name.span, 0⟩) := by
  obtain ⟨header, spelled, here⟩ := h.find?_of_lookup known first
  refine ⟨header, spelled, ?_⟩
  rw [@Lookup.missingHeader_eq ⟨graph, later, index, tolerance⟩ name written known, here]
  rfl

theorem Lists.missingHeader_of_none {graph : Scope.Graph} {tolerance : Tolerance}
    {name : Unresolved} {written : String} (known : later.text? name.symbol = some written)
    (unlisted : entries.lookup written = none) :
    Lookup.missingHeader ⟨graph, later, index, tolerance⟩ name = .ok none := by
  have absent := (h.find?_eq_none_iff known).mpr unlisted
  rw [@Lookup.missingHeader_eq ⟨graph, later, index, tolerance⟩ name written known, absent]
  rfl

end Later

/-- **An index keeps the first header of each name and interns what it needs.** It is made exactly
if every shard has room for the names and their first headers. Then the lexicon knows what it knew
before, the names and their first headers, and nothing else; the index has as many entries as names
were given; and whatever is interned later, a symbol has an entry exactly if it stands for a name
that was given, namely the header that was given first. Asked for the header of a written name, a
lookup under any tolerance tells this one, no edits away, or that there is none. -/
theorem ofEntries_keeps_first_headers (entries : List (String × String)) (before : Lexicon) :
    ((∃ index after, ofEntries entries before = .ok index after) ↔
      ∀ k, before.demand (needed entries) k ≤ Symbol.slotCount) ∧
    ∀ index after, ofEntries entries before = .ok index after →
      (∀ text, (after.find? text).isSome ↔ (before.find? text).isSome ∨
        text ∈ entries.map Prod.fst ∨ ∃ name, entries.lookup name = some text) ∧
      index.size = (entries.map Prod.fst).toFinset.card ∧
      ∀ later, after.Extends later →
        (∀ symbol found, index.find? symbol = some found ↔
          ∃ name text, later.text? symbol = some name ∧ entries.lookup name = some text ∧
            later.text? found = some text) ∧
        ∀ (graph : Scope.Graph) (tolerance : Tolerance) (name : Unresolved) (written : String),
          later.text? name.symbol = some written →
            (∀ text, entries.lookup written = some text →
              ∃ header, later.text? header = some text ∧
                Lookup.missingHeader ⟨graph, later, index, tolerance⟩ name =
                  .ok (some ⟨name.symbol, .header header, name.span, 0⟩)) ∧
            (entries.lookup written = none →
              Lookup.missingHeader ⟨graph, later, index, tolerance⟩ name = .ok none) := by
  refine ⟨exists_ofEntries_iff, fun index after made => ?_⟩
  have listed : index.Lists entries after := BuiltFrom.lists ⟨before, after, made, .refl after⟩
  refine ⟨fun text => ?_, listed.size_eq, fun later kept => ?_⟩
  · rw [learned_ofEntries made text, mem_needed_iff]
  · have listed' := listed.mono kept
    exact ⟨fun _ _ => listed'.find?_eq_some_iff, fun _ _ _ _ known =>
      ⟨fun _ => listed'.missingHeader_of_lookup known, listed'.missingHeader_of_none known⟩⟩

/-- `color` is given two headers, and is the header of `colr`. -/
def swatches : List (String × String) :=
  [("color", "<color>"), ("colr", "color"), ("color", "<paint>"), ("", "<none>")]

theorem paint_never_interned :
    (∀ k, Lookup.colors.demand (needed swatches) k ≤ Symbol.slotCount) ∧
      ∃ index after, ofEntries swatches Lookup.colors = .ok index after ∧ index.size = 3 ∧
        after.find? "<paint>" = none ∧ after.Extends after ∧
        after.text? Lookup.colr.symbol = some "colr" ∧ swatches.lookup "colr" = some "color" ∧
        ∃ header, after.text? header = some "color" ∧
          Lookup.missingHeader ⟨Lookup.palette.graph, after, index, {}⟩ Lookup.colr =
            .ok (some ⟨Lookup.colr.symbol, .header header, .dummy, 0⟩) := by
  have room : ∀ k, Lookup.colors.demand (needed swatches) k ≤ Symbol.slotCount := by
    have small : ∀ k, (Lookup.colors.shard k).texts.size + (needed swatches).card ≤
        Symbol.slotCount := by decide +kernel
    exact fun k => (Lexicon.demand_le_add _ _ k).trans (small k)
  obtain ⟨possible, facts⟩ := ofEntries_keeps_first_headers swatches Lookup.colors
  obtain ⟨index, after, made⟩ := possible.mpr room
  obtain ⟨known, size_eq, told⟩ := facts index after made
  have paint : after.find? "<paint>" = none := by
    have unknown : Lookup.colors.find? "<paint>" = none :=
      Option.map_eq_none_iff.mpr (Lookup.fresh_of_not_mem (by decide +kernel))
    have unneeded : "<paint>" ∉ needed swatches := by decide +kernel
    refine Option.not_isSome_iff_eq_none.mp fun learned => ?_
    rcases (known "<paint>").mp learned with old | needs
    · exact Option.not_isSome_iff_eq_none.mpr unknown old
    · exact unneeded (mem_needed_iff.mpr needs)
  have kept := (learns_ofEntries swatches).ok made
  have named := kept Lookup.text?_colr
  obtain ⟨first, _⟩ := (told after (.refl after)).2 Lookup.palette.graph {} Lookup.colr "colr" named
  exact ⟨room, index, after, made, size_eq, paint, .refl after, named, rfl, first "color" rfl⟩

end NearMiss.HeaderIndex
