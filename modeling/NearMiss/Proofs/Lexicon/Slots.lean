import Mathlib.Algebra.BigOperators.Fin
import NearMiss.Proofs.Distinct
import NearMiss.Proofs.Lexicon.History

/-! How the slots of a lexicon are filled.

Each shard takes the different texts that belong to it in the order in which they
first came, as many as it has slots (`Dense`, `dense_after`). If no text was ever
turned away a symbol is the place of its text in that order, a word is a symbol
exactly if there is a text at its place, and the size is the number of different
texts: `slots_filled_in_order`. -/
namespace NearMiss.Lexicon

/-- The text that a call is to intern. -/
def Call.text? : Call → Option String
  | .intern text => some text
  | .find _ => none
  | .read _ => none

/-- The texts that were to be interned, in their order. The empty one is there from the start. -/
def asked (calls : List Call) : List String := "" :: calls.filterMap Call.text?

/-- The different texts that belong to a shard, in the order in which they first came. -/
def ofShard (texts : List String) (k : Fin Symbol.shardCount) : List String :=
  texts.eraseDups.filter (Symbol.shardOf · = k)

/-- No text was turned away. -/
def NeverFull (calls : List Call) : Prop :=
  ∀ text fault, (Call.intern text, .error fault) ∉ history calls

theorem asked_append (calls later : List Call) :
    asked (calls ++ later) = asked calls ++ later.filterMap Call.text? := by
  simp [asked]

theorem mem_filterMap_iff {calls : List Call} {text : String} :
    text ∈ calls.filterMap Call.text? ↔ .intern text ∈ calls := by
  have interns : ∀ call : Call, call.text? = some text ↔ call = .intern text := by
    intro call
    cases call <;> simp [Call.text?]
  simp [interns]

theorem mem_asked_iff {calls : List Call} {text : String} :
    text ∈ asked calls ↔ text = "" ∨ .intern text ∈ calls := by
  rw [asked, List.mem_cons, mem_filterMap_iff]

/-! ### The texts of one shard -/

section OfShard
variable {texts : List String} {text : String} {k : Fin Symbol.shardCount}

theorem mem_ofShard_iff : text ∈ ofShard texts k ↔ text ∈ texts ∧ Symbol.shardOf text = k := by
  simp [ofShard]

theorem ofShard_nodup (texts : List String) (k : Fin Symbol.shardCount) :
    (ofShard texts k).Nodup := (nodup_eraseDups texts).filter _

theorem ofShard_prefix_append (texts later : List String) (k : Fin Symbol.shardCount) :
    ofShard texts k <+: ofShard (texts ++ later) k := (eraseDups_prefix_append texts later).filter _

theorem ofShard_of_mem (known : text ∈ texts) (k : Fin Symbol.shardCount) :
    ofShard (texts ++ [text]) k = ofShard texts k := by
  rw [ofShard, eraseDups_concat, if_pos known, ofShard]

theorem ofShard_of_ne (texts : List String) (other : k ≠ Symbol.shardOf text) :
    ofShard (texts ++ [text]) k = ofShard texts k := by
  rw [ofShard, eraseDups_concat]
  split
  · rfl
  · rw [List.filter_append, List.filter_singleton, decide_eq_false other.symm]
    exact List.append_nil _

theorem ofShard_of_new (new : text ∉ texts) :
    ofShard (texts ++ [text]) (Symbol.shardOf text) =
      ofShard texts (Symbol.shardOf text) ++ [text] := by
  rw [ofShard, eraseDups_concat, if_neg new, List.filter_append, ofShard]
  simp

end OfShard

/-! ### What one call does to the slots -/

theorem exists_find?_iff {lexicon : Lexicon} {text : String} :
    (∃ symbol, lexicon.find? text = some symbol) ↔
      text ∈ (lexicon.shard (Symbol.shardOf text)).texts.toList := by
  simp only [find?, Option.map_eq_some_iff, Shard.agree, Array.mem_toList_iff,
    Array.mem_iff_getElem?]
  constructor
  · rintro ⟨_, slot, held, _⟩
    exact ⟨slot, held⟩
  · rintro ⟨slot, held⟩
    exact ⟨_, slot, held, rfl⟩

/-- The shards hold the first of the texts that belong to them. -/
structure Dense (texts : List String) (lexicon : Lexicon) : Prop where
  texts_eq : ∀ k, (lexicon.shard k).texts.toList = (ofShard texts k).take Symbol.slotCount
  size_eq : lexicon.size = ∑ k, (lexicon.shard k).texts.size

section Dense
variable {texts : List String} {lexicon : Lexicon} (h : Dense texts lexicon)
include h

/-- A shard with room for more holds all the texts that belong to it. -/
theorem Dense.texts_eq_of_room {k : Fin Symbol.shardCount}
    (room : (lexicon.shard k).texts.size < Symbol.slotCount) :
    (lexicon.shard k).texts.toList = ofShard texts k := by
  have long := congrArg List.length (h.texts_eq k)
  rw [Array.length_toList, List.length_take] at long
  rw [h.texts_eq, List.take_of_length_le (by omega)]

/-- A full shard holds all that will ever belong to it, if that is no more than it can hold. -/
theorem Dense.texts_eq_of_full {k : Fin Symbol.shardCount}
    (full : Symbol.slotCount ≤ (lexicon.shard k).texts.size) {later : List String}
    (bounded : (ofShard (texts ++ later) k).length ≤ Symbol.slotCount) :
    (lexicon.shard k).texts.toList = ofShard (texts ++ later) k := by
  obtain ⟨more, all⟩ := ofShard_prefix_append texts later k
  have long := congrArg List.length (h.texts_eq k)
  rw [Array.length_toList, List.length_take] at long
  rw [h.texts_eq, ← List.take_of_length_le bounded, ← all,
    List.take_append_of_le_length (by omega)]

theorem Dense.mem_of_find? {text : String} {symbol : Symbol}
    (found : lexicon.find? text = some symbol) : text ∈ texts := by
  have held := exists_find?_iff.mp ⟨symbol, found⟩
  rw [h.texts_eq] at held
  exact (mem_ofShard_iff.mp (List.mem_of_mem_take held)).1

/-- A new text that finds room takes the next slot. -/
theorem Dense.push {text : String}
    (fresh : (lexicon.shard (Symbol.shardOf text)).slots[text]? = none)
    (room : (lexicon.shard (Symbol.shardOf text)).texts.size < Symbol.slotCount) :
    Dense (texts ++ [text]) (lexicon.push text fresh room) := by
  have held := h.texts_eq_of_room room
  have new : text ∉ texts := by
    intro known
    obtain ⟨symbol, found⟩ := exists_find?_iff.mpr (held ▸ mem_ofShard_iff.mpr ⟨known, rfl⟩)
    cases (Option.map_eq_none_iff.mpr fresh).symm.trans found
  constructor
  case texts_eq =>
    intro k
    by_cases home : k = Symbol.shardOf text
    · subst home
      rw [shard_push_self, Shard.texts_push, Array.toList_push, held, ofShard_of_new new,
        List.take_of_length_le]
      rw [← held, List.length_append, Array.length_toList]
      exact room
    · rw [shard_push_of_ne fresh room home, h.texts_eq, ofShard_of_ne texts home]
  case size_eq =>
    have grown : ∀ k, ((lexicon.push text fresh room).shard k).texts.size =
        (lexicon.shard k).texts.size + if Symbol.shardOf text = k then 1 else 0 := by
      intro k
      by_cases home : k = Symbol.shardOf text
      · subst home
        rw [shard_push_self, Shard.texts_push, Array.size_push, if_pos rfl]
      · rw [shard_push_of_ne fresh room home, if_neg (Ne.symm home), Nat.add_zero]
    show lexicon.size + 1 = _
    simp only [grown, Finset.sum_add_distrib, ← h.size_eq, Finset.sum_ite_eq, Finset.mem_univ,
      if_true]

/-- A text that finds its shard full comes after those that fill it. -/
theorem Dense.refuse {text : String}
    (full : Symbol.slotCount ≤ (lexicon.shard (Symbol.shardOf text)).texts.size) :
    Dense (texts ++ [text]) lexicon := by
  refine ⟨fun k => ?_, h.size_eq⟩
  by_cases known : text ∈ texts
  · rw [h.texts_eq, ofShard_of_mem known]
  by_cases home : k = Symbol.shardOf text
  · subst home
    have long := congrArg List.length (h.texts_eq (Symbol.shardOf text))
    rw [Array.length_toList, List.length_take] at long
    rw [h.texts_eq, ofShard_of_new known, List.take_append_of_le_length (by omega)]
  · rw [h.texts_eq, ofShard_of_ne texts home]

theorem Dense.call (call : Call) : Dense (texts ++ call.text?.toList) (lexicon.call call).2 := by
  cases call with
  | intern text =>
    rcases intern_cases lexicon text with
      ⟨symbol, found, made⟩ | ⟨fresh, room, made⟩ | ⟨unknown, full, made⟩
    · rw [Lexicon.call, made]
      refine ⟨fun k => ?_, h.size_eq⟩
      rw [h.texts_eq]
      exact congrArg _ (ofShard_of_mem (h.mem_of_find? found) k).symm
    · rw [Lexicon.call, made]
      exact h.push fresh room
    · rw [Lexicon.call, made]
      exact h.refuse full
  | find text =>
    rw [Call.text?, Option.toList_none, List.append_nil]
    exact h
  | read symbol =>
    rw [Call.text?, Option.toList_none, List.append_nil]
    exact h

theorem Dense.run (calls : List Call) :
    Dense (texts ++ calls.filterMap Call.text?) (lexicon.run calls).2 := by
  induction calls generalizing texts lexicon with
  | nil =>
    rw [List.filterMap_nil, List.append_nil]
    exact h
  | cons call rest ih =>
    have interned : (call :: rest).filterMap Call.text? =
        call.text?.toList ++ rest.filterMap Call.text? := by
      cases call <;> rfl
    rw [interned, ← List.append_assoc]
    exact ih (h.call call)

end Dense

theorem dense_empty : Dense [""] .empty := by
  constructor
  case texts_eq => decide
  case size_eq => decide

/-- Whatever is asked, each shard holds the first of the texts that belong to it. -/
theorem dense_after (calls : List Call) : Dense (asked calls) (after calls) :=
  dense_empty.run calls

/-! ### Which words are symbols -/

theorem text_eq_error_iff {lexicon : Lexicon} {symbol : Symbol} :
    lexicon.text symbol = .error (.danglingSymbol symbol) ↔ lexicon.text? symbol = none := by
  unfold Lexicon.text
  split <;> simp_all

section Raw
variable {lexicon : Lexicon} {raw : UInt32} {k : Fin Symbol.shardCount}
  (high : k.val = raw.toNat / 2 ^ 28)
include high

theorem text?_raw : lexicon.text? ⟨raw⟩ = (lexicon.shard k).texts[raw.toNat % 2 ^ 28]? := by
  have here : (⟨raw⟩ : Symbol).shard = k := Fin.ext high.symm
  rw [text?, here]
  rfl

theorem exists_text_raw_iff : (∃ text, lexicon.text ⟨raw⟩ = .ok text) ↔
    raw.toNat % 2 ^ 28 < (lexicon.shard k).texts.size := by
  simp only [text_eq_ok_iff, text?_raw high]
  constructor
  · rintro ⟨text, held⟩
    exact (Array.getElem?_eq_some_iff.mp held).1
  · intro inside
    exact ⟨_, Array.getElem?_eq_getElem inside⟩

theorem dangling_raw_iff : lexicon.text ⟨raw⟩ = .error (.danglingSymbol ⟨raw⟩) ↔
    (lexicon.shard k).texts.size ≤ raw.toNat % 2 ^ 28 := by
  rw [text_eq_error_iff, text?_raw high]
  exact Array.getElem?_eq_none_iff

end Raw

/-! ### When no text is turned away -/

theorem mem_history_iff {calls : List Call} {call : Call} {reply : Except Fault Reply} :
    (call, reply) ∈ history calls ↔
      ∃ before later, calls = before ++ call :: later ∧ reply = ((after before).call call).1 := by
  suffices from_any : ∀ lexicon : Lexicon, (call, reply) ∈ (lexicon.run calls).1 ↔
      ∃ before later, calls = before ++ call :: later ∧
        reply = ((lexicon.run before).2.call call).1 from from_any .empty
  induction calls with
  | nil => simp [Lexicon.run]
  | cons first rest ih =>
    intro lexicon
    show _ ∈ (first, (lexicon.call first).1) :: ((lexicon.call first).2.run rest).1 ↔ _
    rw [List.mem_cons, ih]
    constructor
    · rintro (same | ⟨before, later, rfl, replied⟩)
      · cases same
        exact ⟨[], rest, rfl, rfl⟩
      · exact ⟨first :: before, later, rfl, replied⟩
    · rintro ⟨before, later, split, replied⟩
      cases before with
      | nil =>
        cases split
        exact .inl (congrArg _ replied)
      | cons _ before =>
        cases split
        exact .inr ⟨before, later, rfl, replied⟩

/-- What was asked for is known, if it was not turned away. -/
theorem exists_find?_of_asked {calls : List Call} (roomy : NeverFull calls) {text : String}
    (wanted : text ∈ asked calls) : ∃ symbol, (after calls).find? text = some symbol := by
  rcases mem_asked_iff.mp wanted with rfl | called
  · exact ⟨.empty, find?_empty _⟩
  · obtain ⟨before, later, rfl⟩ := List.append_of_mem called
    have event : (Call.intern text, ((after before).call (.intern text)).1) ∈
        history (before ++ .intern text :: later) := mem_history_iff.mpr ⟨before, later, rfl, rfl⟩
    cases reply : (after before).intern text with
    | ok symbol next =>
      rw [Lexicon.call, reply] at event
      exact ⟨symbol, find?_eq_some_iff.mpr (text?_after_iff.mpr (.inr event))⟩
    | error fault next =>
      rw [Lexicon.call, reply] at event
      exact absurd event (roomy text fault)

/-- Every text found room exactly if no shard was asked for more slots than it has. -/
theorem neverFull_iff {calls : List Call} :
    NeverFull calls ↔ ∀ k, (ofShard (asked calls) k).length ≤ Symbol.slotCount := by
  constructor
  · intro roomy k
    have held : ofShard (asked calls) k ⊆ ((after calls).shard k).texts.toList := by
      intro text on
      obtain ⟨wanted, rfl⟩ := mem_ofShard_iff.mp on
      exact exists_find?_iff.mp (exists_find?_of_asked roomy wanted)
    calc (ofShard (asked calls) k).length
        ≤ ((after calls).shard k).texts.toList.length :=
          ((ofShard_nodup _ _).subperm held).length_le
      _ ≤ Symbol.slotCount := ((after calls).shard k).size_le
  · intro bounded text fault event
    obtain ⟨before, later, rfl, failed⟩ := mem_history_iff.mp event
    rcases call_intern_cases (after before) text with
      ⟨_, _, made⟩ | ⟨_, _, _, _, made, _⟩ | ⟨unknown, full, _⟩
    · rw [made] at failed
      cases failed
    · rw [made] at failed
      cases failed
    · have wanted : text ∈ asked (before ++ .intern text :: later) :=
        mem_asked_iff.mpr (.inr (by simp))
      rw [asked_append] at bounded wanted
      -- the shard holds as many texts as ever belong to it, so this one is among them
      have every := (dense_after before).texts_eq_of_full full (bounded _)
      obtain ⟨symbol, found⟩ := exists_find?_iff.mpr (every ▸ mem_ofShard_iff.mpr ⟨wanted, rfl⟩)
      cases unknown.symm.trans found

theorem run_filter (lexicon : Lexicon) (calls : List Call) :
    (lexicon.run (calls.filter (·.text?.isSome))).2 = (lexicon.run calls).2 := by
  induction calls generalizing lexicon with
  | nil => rfl
  | cons call rest ih =>
    cases call with
    | intern text => exact ih _
    | find text => exact ih lexicon
    | read symbol => exact ih lexicon

/-- A list is as long as its parts, if each element belongs to one of them. -/
theorem sum_length_filter {α ι : Type} [Fintype ι] [DecidableEq ι] (part : α → ι)
    (list : List α) :
    ∑ i, (list.filter (part · = i)).length = list.length := by
  induction list with
  | nil => simp
  | cons first rest ih =>
    have step : ∀ i, ((first :: rest).filter (part · = i)).length =
        (if part first = i then 1 else 0) + (rest.filter (part · = i)).length := by
      intro i
      by_cases here : part first = i
      · simp [here, Nat.add_comm]
      · simp [here]
    simp only [step, Finset.sum_add_distrib, ih, Finset.sum_ite_eq, Finset.mem_univ, if_true,
      List.length_cons, Nat.add_comm]

theorem size_eq_of_dense {texts : List String} {lexicon : Lexicon} (h : Dense texts lexicon)
    (bounded : ∀ k, (ofShard texts k).length ≤ Symbol.slotCount) :
    lexicon.size = texts.toFinset.card := by
  have sizes : ∀ k, (lexicon.shard k).texts.size = (ofShard texts k).length := by
    intro k
    rw [← Array.length_toList, h.texts_eq, List.take_of_length_le (bounded k)]
  rw [h.size_eq, ← length_eraseDups, ← sum_length_filter Symbol.shardOf]
  exact Finset.sum_congr rfl fun k _ => sizes k

section NeverFull
variable {calls : List Call} (roomy : NeverFull calls)
include roomy

theorem texts_after (k : Fin Symbol.shardCount) :
    ((after calls).shard k).texts.toList = ofShard (asked calls) k := by
  rw [(dense_after calls).texts_eq, List.take_of_length_le (neverFull_iff.mp roomy k)]

/-- A text has the symbol of its place. -/
theorem interned_iff_of_neverFull {text : String} {symbol : Symbol} :
    Interned (history calls) text symbol ↔
      ∃ (k : Fin Symbol.shardCount) (slot : Nat), (ofShard (asked calls) k)[slot]? = some text ∧
        symbol.raw.toNat = k.val * 2 ^ 28 + slot := by
  have places : ∀ (k : Fin Symbol.shardCount) (slot : Nat),
      ((after calls).shard k).texts[slot]? = (ofShard (asked calls) k)[slot]? := by
    intro k slot
    rw [← texts_after roomy, Array.getElem?_toList]
  rw [← text?_after_iff, text?, places]
  constructor
  · intro held
    exact ⟨symbol.shard, symbol.slot, held, (Nat.div_add_mod' _ _).symm⟩
  · rintro ⟨k, slot, held, raw⟩
    have inside : slot < Symbol.slotCount :=
      Nat.lt_of_lt_of_le (List.getElem?_eq_some_iff.mp held).1 (neverFull_iff.mp roomy k)
    have same : symbol = .pack k slot :=
      congrArg Symbol.mk (UInt32.toNat_inj.mp (raw.trans (Symbol.toNat_raw_pack k inside).symm))
    rw [same, Symbol.shard_pack k inside, Symbol.slot_pack k inside]
    exact held

theorem size_after :
    (after calls).size = 1 + ((calls.filterMap Call.text?).toFinset.erase "").card := by
  rw [size_eq_of_dense (dense_after calls) (neverFull_iff.mp roomy), asked, List.toFinset_cons,
    ← Finset.card_erase_add_one (Finset.mem_insert_self _ _), Finset.erase_insert_eq_erase,
    Nat.add_comm]

theorem isEmpty_after_iff :
    (after calls).isEmpty = true ↔ ∀ text, .intern text ∈ calls → text = "" := by
  have alone : (after calls).size ≤ 1 ↔
      ((calls.filterMap Call.text?).toFinset.erase "").card = 0 := by
    rw [size_after roomy]
    omega
  rw [isEmpty, decide_eq_true_iff, alone, Finset.card_eq_zero, Finset.eq_empty_iff_forall_notMem]
  simp only [Finset.mem_erase, List.mem_toFinset, mem_filterMap_iff, not_and, not_imp_not]

end NeverFull

/-- **Slots are taken one after the other, and every one counts.** If no text was turned away, each
shard holds the different texts that belong to it in the order in which they were first interned,
the empty text before all others. The symbol a text was given is its place there, and a word is read
as a text exactly if its place is taken. The size counts the different texts and is what the shards
hold together. Only interning has a part in this, and the lexicon counts as empty as long as no
text but the empty one was interned. -/
theorem slots_filled_in_order {calls : List Call} (roomy : NeverFull calls) :
    (∀ k, ((after calls).shard k).texts.toList = ofShard (asked calls) k) ∧
    (∀ text symbol, Interned (history calls) text symbol ↔
      ∃ (k : Fin Symbol.shardCount) (slot : Nat), (ofShard (asked calls) k)[slot]? = some text ∧
        symbol.raw.toNat = k.val * 2 ^ 28 + slot) ∧
    (∀ (raw : UInt32) (k : Fin Symbol.shardCount), k.val = raw.toNat / 2 ^ 28 →
      ((∃ text, (after calls).text ⟨raw⟩ = .ok text) ↔
        raw.toNat % 2 ^ 28 < ((after calls).shard k).texts.size) ∧
      ((after calls).text ⟨raw⟩ = .error (.danglingSymbol ⟨raw⟩) ↔
        ((after calls).shard k).texts.size ≤ raw.toNat % 2 ^ 28)) ∧
    (after calls).size = 1 + ((calls.filterMap Call.text?).toFinset.erase "").card ∧
    (after calls).size = ∑ k, ((after calls).shard k).texts.size ∧
    after (calls.filter (·.text?.isSome)) = after calls ∧
    ((after calls).isEmpty = true ↔ ∀ text, .intern text ∈ calls → text = "") := by
  refine ⟨texts_after roomy, fun _ _ => interned_iff_of_neverFull roomy, fun raw k high => ?_,
    size_after roomy, (dense_after calls).size_eq, run_filter .empty calls, isEmpty_after_iff roomy⟩
  exact ⟨exists_text_raw_iff high, dangling_raw_iff high⟩

/-- Two texts of one shard, one of them interned twice and the other looked for too early. -/
def greenAfterColor : List Call :=
  [.intern "color", .find "green", .intern "", .intern "green", .intern "color", .read ⟨5⟩]

theorem green_takes_second_slot :
    NeverFull greenAfterColor ∧
    ((after greenAfterColor).shard 3).texts.toList = ["color", "green"] ∧
    Interned (history greenAfterColor) "green" ⟨805306369⟩ ∧
    (after greenAfterColor).text ⟨805306370⟩ = .error (.danglingSymbol ⟨805306370⟩) ∧
    (after greenAfterColor).size = 3 ∧
    ¬(after greenAfterColor).isEmpty = true := by
  have roomy : NeverFull greenAfterColor := neverFull_iff.mpr (by decide +kernel)
  obtain ⟨texts, symbols, read, counted, _, _, alone⟩ := slots_filled_in_order roomy
  have third : ofShard (asked greenAfterColor) 3 = ["color", "green"] := by decide +kernel
  have held := (texts 3).trans third
  refine ⟨roomy, held, (symbols _ _).mpr ⟨3, 1, by rw [third]; rfl, by decide⟩, ?_, ?_, ?_⟩
  · refine ((read 805306370 3 (by decide)).2).mpr ?_
    rw [← Array.length_toList, held]
    decide
  · rw [counted]
    decide +kernel
  · rw [alone]
    intro only
    exact absurd (only "color" (by decide)) (by decide)

end NearMiss.Lexicon
