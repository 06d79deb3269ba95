import NearMiss.Fault
import NearMiss.Lexicon.Shard

/-! The texts of a session and the symbols that stand for them.

A lexicon gives each text one symbol, forever: `find?_eq_some_iff` says that
looking a text up and reading a symbol's text are inverse to each other, and
`extends_of_intern` that interning takes nothing back. The leading bytes of a
text choose its shard, and `home` keeps it there, so one shard answers for a
text. Interning is the only operation that changes a lexicon; `Interning` is a
computation that interns as it goes, and keeps what it interned even when it
fails. -/
namespace NearMiss

structure Lexicon where
  shards : Vector Shard Symbol.shardCount
  /-- How many texts the shards hold together. -/
  size : Nat
  /-- Every text is in the shard its bytes choose. -/
  home : ∀ (k : Fin Symbol.shardCount) (slot : Nat) (text : String),
    shards[k].texts[slot]? = some text → Symbol.shardOf text = k
  /-- The empty symbol stands for the empty text. -/
  holds_empty : shards[(0 : Fin Symbol.shardCount)].texts[0]? = some ""

namespace Lexicon

/-- The lexicon that knows only the empty text. -/
def empty : Lexicon where
  shards := (Vector.replicate Symbol.shardCount Shard.empty).set 0
    (Shard.empty.push "" (by simp [Shard.empty]) (by decide))
  size := 1
  home := by
    intro k slot text h
    by_cases first : k = 0
    · subst first
      have only : text = "" := by
        rcases slot with _ | slot
        · simpa [Shard.empty] using h.symm
        · simp [Shard.empty] at h
      subst only
      decide
    · have other : (0 : Nat) ≠ k.val := fun h => first (Fin.ext h.symm)
      simp [other, Shard.empty] at h
  holds_empty := by simp [Shard.empty]

/-- Whether only the empty text is known. -/
def isEmpty (lexicon : Lexicon) : Bool := lexicon.size ≤ 1

def shard (lexicon : Lexicon) (k : Fin Symbol.shardCount) : Shard := lexicon.shards[k]

/-- The symbol of a text that is already known. -/
def find? (lexicon : Lexicon) (text : String) : Option Symbol :=
  ((lexicon.shard (Symbol.shardOf text)).slots[text]?).map (Symbol.pack (Symbol.shardOf text))

/-- The text a symbol stands for, if the lexicon gave it out. -/
def text? (lexicon : Lexicon) (symbol : Symbol) : Option String :=
  (lexicon.shard symbol.shard).texts[symbol.slot]?

def text (lexicon : Lexicon) (symbol : Symbol) : Except Fault String :=
  match lexicon.text? symbol with
  | some text => .ok text
  | none => .error (.danglingSymbol symbol)

def describe (lexicon : Lexicon) : String :=
  "StringInterner \x7b len: " ++ toString lexicon.size ++ ", .. \x7d"

/-- The lexicon with one more text, in the next slot of its shard. -/
def push (lexicon : Lexicon) (text : String)
    (fresh : (lexicon.shard (Symbol.shardOf text)).slots[text]? = none)
    (room : (lexicon.shard (Symbol.shardOf text)).texts.size < Symbol.slotCount) : Lexicon where
  shards := lexicon.shards.set (Symbol.shardOf text)
    ((lexicon.shard (Symbol.shardOf text)).push text fresh room)
  size := lexicon.size + 1
  home := by
    intro k slot other h
    by_cases same : (Symbol.shardOf text).val = k.val
    · have : k = Symbol.shardOf text := Fin.ext same.symm
      subst this
      simp only [Fin.getElem_fin, Vector.getElem_set_self, Shard.texts_push,
        Array.getElem?_push] at h
      split at h
      · cases h
        rfl
      · exact lexicon.home _ _ _ h
    · simp only [Fin.getElem_fin, Vector.getElem_set_ne _ _ same] at h
      exact lexicon.home k slot other h
  holds_empty := by
    have held := lexicon.holds_empty
    by_cases same : (Symbol.shardOf text).val = 0
    · have first : Symbol.shardOf text = 0 := Fin.ext same
      have inside := Shard.lt_size_of_some held
      simp only [Fin.getElem_fin, Fin.val_zero] at inside held
      simp only [first, Lexicon.shard, Fin.getElem_fin, Fin.val_zero, Vector.getElem_set_self,
        Shard.texts_push, Array.getElem?_push]
      rw [if_neg (by omega)]
      exact held
    · simp only [Fin.getElem_fin, Fin.val_zero, Vector.getElem_set_ne _ _ same]
      exact held

/-- The symbol of a text, which joins the lexicon if it is new. -/
def intern (lexicon : Lexicon) (text : String) : EStateM.Result Fault Lexicon Symbol :=
  match fresh : (lexicon.shard (Symbol.shardOf text)).slots[text]? with
  | some slot => .ok (.pack (Symbol.shardOf text) slot) lexicon
  | none =>
    let next := (lexicon.shard (Symbol.shardOf text)).texts.size
    if room : next < Symbol.slotCount then
      .ok (.pack (Symbol.shardOf text) next) (lexicon.push text fresh room)
    else .error (.shardFull (Symbol.shardOf text).val next) lexicon

/-! ### Symbols and texts determine each other -/

theorem find?_eq_some_iff {lexicon : Lexicon} {text : String} {symbol : Symbol} :
    lexicon.find? text = some symbol ↔ lexicon.text? symbol = some text := by
  constructor
  · intro h
    obtain ⟨slot, found, rfl⟩ := Option.map_eq_some_iff.mp h
    have held := (Shard.agree _ text slot).mp found
    have room := Shard.lt_slotCount_of_some held
    simpa only [text?, Symbol.shard_pack _ room, Symbol.slot_pack _ room] using held
  · intro h
    have atHome : Symbol.shardOf text = symbol.shard := lexicon.home _ _ _ h
    have found := (Shard.agree _ text symbol.slot).mpr h
    simp only [find?, atHome, found, Option.map_some, Symbol.pack_shard_slot]

/-- Two symbols of one text are the same symbol. -/
theorem text?_injective {lexicon : Lexicon} {a b : Symbol} {text : String}
    (ha : lexicon.text? a = some text) (hb : lexicon.text? b = some text) : a = b :=
  Option.some.inj ((find?_eq_some_iff.mpr ha).symm.trans (find?_eq_some_iff.mpr hb))

@[simp] theorem text?_empty (lexicon : Lexicon) : lexicon.text? .empty = some "" :=
  lexicon.holds_empty

@[simp] theorem find?_empty (lexicon : Lexicon) : lexicon.find? "" = some .empty :=
  find?_eq_some_iff.mpr (text?_empty lexicon)

theorem text_eq_ok_iff {lexicon : Lexicon} {symbol : Symbol} {text : String} :
    lexicon.text symbol = .ok text ↔ lexicon.text? symbol = some text := by
  unfold Lexicon.text
  split <;> simp_all

/-! ### What interning does -/

section Push
variable {lexicon : Lexicon} {text : String}
  (fresh : (lexicon.shard (Symbol.shardOf text)).slots[text]? = none)
  (room : (lexicon.shard (Symbol.shardOf text)).texts.size < Symbol.slotCount)

theorem shard_push_self : (lexicon.push text fresh room).shard (Symbol.shardOf text) =
    (lexicon.shard (Symbol.shardOf text)).push text fresh room := by
  simp [shard, push]

theorem shard_push_of_ne {k : Fin Symbol.shardCount} (h : k ≠ Symbol.shardOf text) :
    (lexicon.push text fresh room).shard k = lexicon.shard k := by
  have : (Symbol.shardOf text).val ≠ k.val := fun same => h (Fin.ext same.symm)
  simp [shard, push, this]

theorem text?_push_of_some {known : String} {symbol : Symbol}
    (h : lexicon.text? symbol = some known) :
    (lexicon.push text fresh room).text? symbol = some known := by
  unfold text? at h ⊢
  by_cases same : symbol.shard = Symbol.shardOf text
  · rw [same] at h ⊢
    rw [shard_push_self, Shard.texts_push, Array.getElem?_push,
      if_neg (Nat.ne_of_lt (Shard.lt_size_of_some h))]
    exact h
  · rw [shard_push_of_ne fresh room same]
    exact h

theorem text?_push_self : (lexicon.push text fresh room).text?
    (.pack (Symbol.shardOf text) (lexicon.shard (Symbol.shardOf text)).texts.size) = some text := by
  rw [text?, Symbol.shard_pack _ room, Symbol.slot_pack _ room, shard_push_self]
  simp

end Push

theorem intern_of_find? {lexicon : Lexicon} {text : String} {symbol : Symbol}
    (h : lexicon.find? text = some symbol) : lexicon.intern text = .ok symbol lexicon := by
  obtain ⟨slot, found, rfl⟩ := Option.map_eq_some_iff.mp h
  unfold intern
  split
  · next held => rw [found] at held; cases held; rfl
  · next absent => rw [found] at absent; cases absent

/-- Whatever a symbol stands for in the earlier lexicon it stands for in the later one. -/
def Extends (earlier later : Lexicon) : Prop :=
  ∀ ⦃symbol : Symbol⦄ ⦃text : String⦄, earlier.text? symbol = some text →
    later.text? symbol = some text

theorem Extends.refl (lexicon : Lexicon) : lexicon.Extends lexicon := fun _ _ held => held

theorem Extends.trans {a b c : Lexicon} (hab : a.Extends b) (hbc : b.Extends c) : a.Extends c :=
  fun _ _ held => hbc (hab held)

/-- Interning takes nothing back. -/
theorem extends_of_intern {lexicon lexicon' : Lexicon} {text : String} {symbol : Symbol}
    (h : lexicon.intern text = .ok symbol lexicon') : lexicon.Extends lexicon' := by
  unfold intern at h
  split at h
  · cases h
    exact .refl lexicon
  · next fresh =>
    dsimp only at h
    split at h
    · next room =>
      cases h
      exact fun _ _ held => text?_push_of_some fresh room held
    · cases h

/-- The symbol interning gives is the text's symbol from then on. -/
theorem text?_of_intern {lexicon lexicon' : Lexicon} {text : String} {symbol : Symbol}
    (h : lexicon.intern text = .ok symbol lexicon') : lexicon'.text? symbol = some text := by
  unfold intern at h
  split at h
  · next slot held =>
    cases h
    exact find?_eq_some_iff.mp (Option.map_eq_some_iff.mpr ⟨slot, held, rfl⟩)
  · next fresh =>
    dsimp only at h
    split at h
    · next room =>
      cases h
      exact text?_push_self fresh room
    · cases h

/-- A text that finds no slot changes nothing. -/
theorem eq_of_intern_error {lexicon lexicon' : Lexicon} {text : String} {fault : Fault}
    (h : lexicon.intern text = .error fault lexicon') : lexicon' = lexicon := by
  unfold intern at h
  split at h
  · cases h
  · dsimp only at h
    split at h
    · cases h
    · cases h
      rfl

end Lexicon

/-- A computation that interns texts. What it interned stays, also if it fails later. -/
abbrev Interning := EStateM Fault Lexicon

namespace Interning

def intern (text : String) : Interning Symbol := fun lexicon => lexicon.intern text

def internAll (texts : List String) : Interning (List Symbol) := texts.mapM intern

end Interning

end NearMiss
