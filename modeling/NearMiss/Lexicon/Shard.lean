import NearMiss.Symbol
import Std.Data.HashMap

/-! One shard of a lexicon.

A shard numbers the texts given to it, in the order they first came, and finds a
text's number again without a search. `agree` keeps the two directions inverse
to each other, so a shard never holds a text twice. -/
namespace NearMiss

structure Shard where
  texts : Array String
  slots : Std.HashMap String Nat
  agree : ∀ (text : String) (slot : Nat), slots[text]? = some slot ↔ texts[slot]? = some text
  size_le : texts.size ≤ Symbol.slotCount

namespace Shard

def empty : Shard where
  texts := #[]
  slots := ∅
  agree := by simp
  size_le := by decide

/-- The shard with one more text, which takes the next number. -/
def push (shard : Shard) (text : String) (fresh : shard.slots[text]? = none)
    (room : shard.texts.size < Symbol.slotCount) : Shard where
  texts := shard.texts.push text
  slots := shard.slots.insert text shard.texts.size
  agree := by
    intro other slot
    have absent : shard.texts[slot]? ≠ some text := fun h => by
      simp [(shard.agree text slot).mpr h] at fresh
    have old := shard.agree other slot
    rw [Std.HashMap.getElem?_insert, Array.getElem?_push]
    by_cases same : text = other
    · subst same
      by_cases last : slot = shard.texts.size
      · simp [last]
      · simp [last, absent, Ne.symm last]
    · by_cases last : slot = shard.texts.size
      · have none : shard.texts[slot]? = none := by simp [last]
        simp [same, last] at old none ⊢
        exact old
      · simp [same, last, old]
  size_le := by
    rw [Array.size_push]
    exact room

@[simp] theorem texts_push (shard : Shard) (text : String) (fresh : shard.slots[text]? = none)
    (room : shard.texts.size < Symbol.slotCount) :
    (shard.push text fresh room).texts = shard.texts.push text := rfl

theorem lt_size_of_some {shard : Shard} {text : String} {slot : Nat}
    (h : shard.texts[slot]? = some text) : slot < shard.texts.size :=
  (Array.getElem?_eq_some_iff.mp h).1

theorem lt_slotCount_of_some {shard : Shard} {text : String} {slot : Nat}
    (h : shard.texts[slot]? = some text) : slot < Symbol.slotCount :=
  Nat.lt_of_lt_of_le (lt_size_of_some h) shard.size_le

end Shard

end NearMiss
