import Mathlib.Data.Finset.Card
import NearMiss.Proofs.Lexicon.History
import NearMiss.Proofs.Lexicon.Learning

/-! Whether a lexicon has room for some texts.

The demand on a shard is what it holds together with those of the texts that are
new to it. Interning one of the texts does not change the demand, it only turns
part of it into slots (`fits_intern`). So whatever interns no other texts either
succeeds and leaves the demand as it was, or some shard was asked for more than
it can hold (`Fits`). -/
namespace NearMiss

namespace Lexicon

/-- The slots of a shard that are taken, or will be once these texts are interned. -/
def demand (lexicon : Lexicon) (texts : Finset String) (k : Fin Symbol.shardCount) : Nat :=
  (lexicon.shard k).texts.size +
    (texts.filter fun text => Symbol.shardOf text = k ∧ lexicon.find? text = none).card

/-- No more is demanded than the shard holds and there are texts. -/
theorem demand_le_add (lexicon : Lexicon) (texts : Finset String) (k : Fin Symbol.shardCount) :
    lexicon.demand texts k ≤ (lexicon.shard k).texts.size + texts.card :=
  Nat.add_le_add_left (Finset.card_filter_le _ _) _

variable {lexicon : Lexicon} {texts : Finset String} {text : String}

section Push
variable (fresh : (lexicon.shard (Symbol.shardOf text)).slots[text]? = none)
  (room : (lexicon.shard (Symbol.shardOf text)).texts.size < Symbol.slotCount)

theorem isSome_find?_push {other : String} :
    ((lexicon.push text fresh room).find? other).isSome ↔
      (lexicon.find? other).isSome ∨ other = text := by
  simp [Option.isSome_iff_exists, find?_eq_some_iff, text?_push_iff, exists_or]

/-- A new text takes a slot and is no longer to be interned. -/
theorem demand_push (on : text ∈ texts) (k : Fin Symbol.shardCount) :
    (lexicon.push text fresh room).demand texts k = lexicon.demand texts k := by
  have unknown : lexicon.find? text = none := Option.map_eq_none_iff.mpr fresh
  have fewer : (texts.filter fun other => Symbol.shardOf other = k ∧
        (lexicon.push text fresh room).find? other = none) =
      (texts.filter fun other => Symbol.shardOf other = k ∧ lexicon.find? other = none).erase
        text := by
    ext other
    simp only [Finset.mem_filter, Finset.mem_erase, ← Option.not_isSome_iff_eq_none,
      isSome_find?_push, not_or]
    constructor
    · rintro ⟨on, home, unknown, apart⟩
      exact ⟨apart, on, home, unknown⟩
    · rintro ⟨apart, on, home, unknown⟩
      exact ⟨on, home, unknown, apart⟩
  rw [demand, demand, fewer]
  by_cases home : k = Symbol.shardOf text
  · subst home
    have among : text ∈ texts.filter fun other =>
        Symbol.shardOf other = Symbol.shardOf text ∧ lexicon.find? other = none :=
      Finset.mem_filter.mpr ⟨on, rfl, unknown⟩
    rw [shard_push_self, Shard.texts_push, Array.size_push, ← Finset.card_erase_add_one among]
    omega
  · rw [shard_push_of_ne fresh room home, Finset.erase_eq_of_notMem]
    intro among
    exact home (Finset.mem_filter.mp among).2.1.symm

end Push

/-- A text is known after another was interned if it was known before or is that other one. -/
theorem isSome_find?_of_intern {lexicon' : Lexicon} {symbol : Symbol}
    (h : lexicon.intern text = .ok symbol lexicon') (other : String) :
    (lexicon'.find? other).isSome ↔ (lexicon.find? other).isSome ∨ other = text := by
  rcases intern_cases lexicon text with
    ⟨symbol', found, made⟩ | ⟨fresh, room, made⟩ | ⟨_, _, made⟩
  · cases h.symm.trans made
    constructor
    · exact .inl
    · rintro (known | rfl)
      · exact known
      · exact Option.isSome_of_eq_some found
  · cases h.symm.trans made
    exact isSome_find?_push fresh room
  · cases h.symm.trans made

/-- Texts that are all known demand nothing more. -/
theorem demand_le_of_known (known : ∀ text ∈ texts, (lexicon.find? text).isSome)
    (k : Fin Symbol.shardCount) : lexicon.demand texts k ≤ Symbol.slotCount := by
  have none : (texts.filter fun text => Symbol.shardOf text = k ∧ lexicon.find? text = none) = ∅ :=
    Finset.filter_eq_empty_iff.mpr fun text on new =>
      Option.not_isSome_iff_eq_none.mpr new.2 (known text on)
  rw [demand, none, Finset.card_empty]
  exact (lexicon.shard k).size_le

end Lexicon

namespace Interning
open Lexicon

/-- A computation that began with this lexicon succeeded and left the demand as it was, or some
shard had no room for what was demanded. -/
def Fits {α : Type} (lexicon : Lexicon) (texts : Finset String) :
    EStateM.Result Fault Lexicon α → Prop
  | .ok _ last => ∀ k, last.demand texts k = lexicon.demand texts k
  | .error _ _ => ∃ k, Symbol.slotCount < lexicon.demand texts k

variable {α β : Type} {lexicon : Lexicon} {texts : Finset String}

theorem fits_pure (value : α) : Fits lexicon texts ((pure value : Interning α) lexicon) :=
  fun _ => rfl

theorem Fits.bind {work : Interning α} {next : α → Interning β}
    (first : Fits lexicon texts (work lexicon))
    (second : ∀ value middle, work lexicon = .ok value middle →
      Fits middle texts (next value middle)) :
    Fits lexicon texts ((work >>= next) lexicon) := by
  cases begun : work lexicon with
  | ok value middle =>
    have same : (work >>= next) lexicon = next value middle := by
      show EStateM.bind work next lexicon = _
      rw [EStateM.bind, begun]
    have rest := second value middle begun
    rw [begun] at first
    rw [same]
    cases ended : next value middle with
    | ok result last =>
      rw [ended] at rest
      exact fun k => (rest k).trans (first k)
    | error fault last =>
      rw [ended] at rest
      obtain ⟨k, full⟩ := rest
      exact ⟨k, first k ▸ full⟩
  | error fault last =>
    have same : (work >>= next) lexicon = .error fault last := by
      show EStateM.bind work next lexicon = _
      rw [EStateM.bind, begun]
    rw [begun] at first
    rw [same]
    exact first

theorem fits_intern {text : String} (on : text ∈ texts) :
    Fits lexicon texts (intern text lexicon) := by
  rcases intern_cases lexicon text with
    ⟨symbol, _, made⟩ | ⟨fresh, room, made⟩ | ⟨unknown, full, made⟩
  · rw [intern, made]
    exact fun _ => rfl
  · rw [intern, made]
    exact demand_push fresh room on
  · rw [intern, made]
    have among : 0 < (texts.filter fun other =>
        Symbol.shardOf other = Symbol.shardOf text ∧ lexicon.find? other = none).card :=
      Finset.card_pos.mpr ⟨text, Finset.mem_filter.mpr ⟨on, rfl, unknown⟩⟩
    refine ⟨Symbol.shardOf text, ?_⟩
    rw [demand]
    omega

end Interning

end NearMiss
