/-! Handles to identifier text.

A symbol is one 32-bit word: the high four bits name a shard, the low
twenty-eight a slot inside it. `pack_shard_slot`, `shard_pack` and `slot_pack`
say that nothing is lost either way, so a symbol may be compared in place of
the text it stands for. Symbols carry no order: slots only tell when a text was
first seen. -/
namespace NearMiss

structure Symbol where
  raw : UInt32
deriving DecidableEq, Hashable

namespace Symbol

abbrev shardCount : Nat := 16

/-- Slots that one shard can hold. -/
def slotCount : Nat := 268435456

/-- The empty identifier, which every lexicon holds in shard 0, slot 0. -/
def empty : Symbol := ⟨0⟩

def shard (symbol : Symbol) : Fin shardCount :=
  ⟨symbol.raw.toNat / slotCount, by
    have := symbol.raw.toNat_lt
    simp only [slotCount, shardCount]
    omega⟩

def slot (symbol : Symbol) : Nat := symbol.raw.toNat % slotCount

/-- The symbol of a slot; only slots below `slotCount` have one of their own. -/
def pack (shard : Fin shardCount) (slot : Nat) : Symbol :=
  ⟨UInt32.ofNat (shard.val * slotCount + slot)⟩

/-- The shard of a text: its first eight bytes, read as a number to base 31. -/
def shardOf (text : String) : Fin shardCount :=
  let key := (text.toUTF8.data.toList.take 8).foldl (fun key byte => key * 31 + byte.toUInt32) 0
  ⟨key.toNat % shardCount, Nat.mod_lt _ (by decide)⟩

/-- A symbol's place in its lexicon, for debugging output. -/
def describe (symbol : Symbol) : String := s!"Name({symbol.shard.val}:{symbol.slot})"

/-! ### Packing loses nothing -/

theorem toNat_raw_pack (shard : Fin shardCount) {slot : Nat} (h : slot < slotCount) :
    (pack shard slot).raw.toNat = shard.val * slotCount + slot := by
  have hs : shard.val < 16 := shard.isLt
  simp only [slotCount] at h
  simp only [pack, slotCount, UInt32.toNat_ofNat']
  omega

@[simp] theorem shard_pack (shard : Fin shardCount) {slot : Nat} (h : slot < slotCount) :
    (pack shard slot).shard = shard := by
  apply Fin.ext
  simp only [Symbol.shard, toNat_raw_pack shard h]
  simp only [slotCount] at h ⊢
  omega

@[simp] theorem slot_pack (shard : Fin shardCount) {slot : Nat} (h : slot < slotCount) :
    (pack shard slot).slot = slot := by
  simp only [Symbol.slot, toNat_raw_pack shard h]
  simp only [slotCount] at h ⊢
  omega

@[simp] theorem pack_shard_slot (symbol : Symbol) : pack symbol.shard symbol.slot = symbol := by
  obtain ⟨raw⟩ := symbol
  have h : raw.toNat / slotCount * slotCount + raw.toNat % slotCount = raw.toNat :=
    Nat.div_add_mod' raw.toNat slotCount
  simp only [pack, Symbol.shard, Symbol.slot, h, UInt32.ofNat_toNat]

end Symbol

end NearMiss
