import NearMiss.Lexicon

/-! What a lexicon has been asked, and what it knows from it.

`run` asks a lexicon one thing after another and keeps what it replied. Whatever
is asked, in whatever order, the lexicon knows the empty text and the texts it
was asked to intern, each under the symbol it gave for it (`text?_after_iff`).
So a symbol may be taken for its text, now and later. -/
namespace NearMiss.Lexicon

/-- What can be asked of a lexicon. -/
inductive Call where
  /-- The symbol of a text, which joins the lexicon if it is new. -/
  | intern (text : String)
  /-- The symbol of a text, if the lexicon knows it. -/
  | find (text : String)
  /-- The text of a symbol. -/
  | read (symbol : Symbol)
deriving DecidableEq

inductive Reply where
  | symbol (symbol : Symbol)
  | found (symbol : Option Symbol)
  | text (text : String)
deriving DecidableEq

/-- The reply to a call, and the lexicon after it. -/
def call (lexicon : Lexicon) : Call → Except Fault Reply × Lexicon
  | .intern text =>
    match lexicon.intern text with
    | .ok symbol next => (.ok (.symbol symbol), next)
    | .error fault next => (.error fault, next)
  | .find text => (.ok (.found (lexicon.find? text)), lexicon)
  | .read symbol => ((lexicon.text symbol).map .text, lexicon)

/-- Calls with the replies they got, in their order. -/
abbrev History := List (Call × Except Fault Reply)

/-- The history of some calls, and the lexicon after them. -/
def run (lexicon : Lexicon) : List Call → History × Lexicon
  | [] => ([], lexicon)
  | call :: rest =>
    let (reply, next) := lexicon.call call
    let (replies, last) := next.run rest
    ((call, reply) :: replies, last)

/-- What some calls were replied, by the lexicon that knew only the empty text. -/
def history (calls : List Call) : History := (run .empty calls).1

/-- The lexicon after these calls. -/
def after (calls : List Call) : Lexicon := (run .empty calls).2

/-- The text was given this symbol when it was interned. The empty text has one from the start. -/
def Interned (history : History) (text : String) (symbol : Symbol) : Prop :=
  text = "" ∧ symbol = .empty ∨ (Call.intern text, .ok (.symbol symbol)) ∈ history

variable {lexicon : Lexicon}

theorem run_append (calls later : List Call) :
    lexicon.run (calls ++ later) =
      ((lexicon.run calls).1 ++ ((lexicon.run calls).2.run later).1,
        ((lexicon.run calls).2.run later).2) := by
  induction calls generalizing lexicon with
  | nil => rfl
  | cons call rest ih => simp [run, ih]

theorem history_append (calls later : List Call) :
    history (calls ++ later) = history calls ++ ((after calls).run later).1 := by
  rw [history, run_append]
  rfl

/-! ### What one call does -/

theorem text?_push_iff {text : String}
    (fresh : (lexicon.shard (Symbol.shardOf text)).slots[text]? = none)
    (room : (lexicon.shard (Symbol.shardOf text)).texts.size < Symbol.slotCount)
    {symbol : Symbol} {known : String} :
    (lexicon.push text fresh room).text? symbol = some known ↔
      lexicon.text? symbol = some known ∨ known = text ∧ symbol =
        .pack (Symbol.shardOf text) (lexicon.shard (Symbol.shardOf text)).texts.size := by
  constructor
  · intro held
    by_cases new : known = text
    · rw [new] at held
      exact .inr ⟨new, text?_injective held (text?_push_self fresh room)⟩
    · apply Or.inl
      by_cases home : symbol.shard = Symbol.shardOf text
      · rw [text?, home, shard_push_self, Shard.texts_push, Array.getElem?_push] at held
        split at held
        · exact absurd (Option.some.inj held).symm new
        · rw [text?, home]
          exact held
      · rw [text?, shard_push_of_ne fresh room home] at held
        exact held
  · intro held
    rcases held with old | ⟨rfl, rfl⟩
    · exact text?_push_of_some fresh room old
    · exact text?_push_self fresh room

/-- A new text takes the next slot of its shard. -/
theorem intern_of_room {text : String}
    (fresh : (lexicon.shard (Symbol.shardOf text)).slots[text]? = none)
    (room : (lexicon.shard (Symbol.shardOf text)).texts.size < Symbol.slotCount) :
    lexicon.intern text =
      .ok (.pack (Symbol.shardOf text) (lexicon.shard (Symbol.shardOf text)).texts.size)
        (lexicon.push text fresh room) := by
  rw [intern]
  split
  · next held => cases fresh.symm.trans held
  · exact dif_pos room

theorem intern_of_full {text : String}
    (fresh : (lexicon.shard (Symbol.shardOf text)).slots[text]? = none)
    (full : Symbol.slotCount ≤ (lexicon.shard (Symbol.shardOf text)).texts.size) :
    lexicon.intern text =
      .error (.shardFull (Symbol.shardOf text).val
        (lexicon.shard (Symbol.shardOf text)).texts.size) lexicon := by
  rw [intern]
  split
  · next held => cases fresh.symm.trans held
  · exact dif_neg (Nat.not_lt.mpr full)

/-- A known text has its symbol, a new one gets one, and one that finds its shard full has none. -/
theorem intern_cases (lexicon : Lexicon) (text : String) :
    (∃ symbol, lexicon.find? text = some symbol ∧ lexicon.intern text = .ok symbol lexicon) ∨
    (∃ fresh room, lexicon.intern text =
      .ok (.pack (Symbol.shardOf text) (lexicon.shard (Symbol.shardOf text)).texts.size)
        (lexicon.push text fresh room)) ∨
    (lexicon.find? text = none ∧
      Symbol.slotCount ≤ (lexicon.shard (Symbol.shardOf text)).texts.size ∧
      lexicon.intern text = .error (.shardFull (Symbol.shardOf text).val
        (lexicon.shard (Symbol.shardOf text)).texts.size) lexicon) := by
  cases found : lexicon.find? text with
  | some symbol => exact .inl ⟨symbol, rfl, intern_of_find? found⟩
  | none =>
    have fresh := Option.map_eq_none_iff.mp found
    apply Or.inr
    rcases Nat.lt_or_ge (lexicon.shard (Symbol.shardOf text)).texts.size Symbol.slotCount with
      room | full
    · exact .inl ⟨fresh, room, intern_of_room fresh room⟩
    · exact .inr ⟨rfl, full, intern_of_full fresh full⟩

/-- The same of a call, with what is known after it. -/
theorem call_intern_cases (lexicon : Lexicon) (text : String) :
    (∃ symbol, lexicon.find? text = some symbol ∧
      lexicon.call (.intern text) = (.ok (.symbol symbol), lexicon)) ∨
    (∃ symbol next, lexicon.find? text = none ∧
      (lexicon.shard (Symbol.shardOf text)).texts.size < Symbol.slotCount ∧
      lexicon.call (.intern text) = (.ok (.symbol symbol), next) ∧
      ∀ other known, next.text? other = some known ↔
        lexicon.text? other = some known ∨ known = text ∧ other = symbol) ∨
    (lexicon.find? text = none ∧
      Symbol.slotCount ≤ (lexicon.shard (Symbol.shardOf text)).texts.size ∧
      lexicon.call (.intern text) =
        (.error (.shardFull (Symbol.shardOf text).val
          (lexicon.shard (Symbol.shardOf text)).texts.size), lexicon)) := by
  rcases intern_cases lexicon text with
    ⟨symbol, found, made⟩ | ⟨fresh, room, made⟩ | ⟨unknown, full, made⟩
  · refine .inl ⟨symbol, found, ?_⟩
    rw [call, made]
  · refine .inr (.inl ⟨_, _, Option.map_eq_none_iff.mpr fresh, room, ?_,
      fun _ _ => text?_push_iff fresh room⟩)
    rw [call, made]
  · refine .inr (.inr ⟨unknown, full, ?_⟩)
    rw [call, made]

/-! ### What a history of calls makes known -/

/-- The lexicon knows what was interned, under the symbols that were given. -/
def Tells (history : History) (lexicon : Lexicon) : Prop :=
  ∀ text symbol, lexicon.text? symbol = some text ↔ Interned history text symbol

theorem interned_append {history later : History} {text : String} {symbol : Symbol} :
    Interned (history ++ later) text symbol ↔
      Interned history text symbol ∨ (Call.intern text, .ok (.symbol symbol)) ∈ later := by
  rw [Interned, Interned, List.mem_append, or_assoc]

theorem tells_empty : Tells [] .empty := by
  intro text symbol
  constructor
  · intro held
    refine .inl ?_
    by_cases first : symbol.shard = 0
    · have known : #[""][symbol.slot]? = some text := by
        rw [text?, first] at held
        exact held
      obtain ⟨inside, rfl⟩ := Array.getElem?_eq_some_iff.mp known
      have zero : symbol.slot = 0 := Nat.lt_one_iff.mp inside
      simp only [zero]
      refine ⟨rfl, ?_⟩
      rw [← Symbol.pack_shard_slot symbol, first, zero]
      rfl
    · have other : 0 ≠ symbol.shard.val := fun same => first (Fin.ext same.symm)
      simp [text?, shard, empty, other, Shard.empty] at held
  · intro known
    rcases known with ⟨rfl, rfl⟩ | none
    · exact text?_empty _
    · cases none

theorem Tells.call {history : History} (h : Tells history lexicon) (call : Call) :
    Tells (history ++ [(call, (lexicon.call call).1)]) (lexicon.call call).2 := by
  intro text symbol
  rw [interned_append, List.mem_singleton, ← h]
  cases call with
  | intern new =>
    rcases call_intern_cases lexicon new with
      ⟨given, found, made⟩ | ⟨given, next, _, _, made, known⟩ | ⟨_, _, made⟩
    · rw [made]
      have held := find?_eq_some_iff.mp found
      constructor
      · exact .inl
      · intro known
        rcases known with known | same
        · exact known
        · cases same
          exact held
    · rw [made]
      dsimp only
      rw [known]
      simp [eq_comm]
    · rw [made]
      simp
  | find wanted => simp [Lexicon.call]
  | read wanted =>
    simp [Lexicon.call]

/-- Whatever is asked, the lexicon knows what was interned and nothing else. -/
theorem Tells.run {history : History} (h : Tells history lexicon) (calls : List Call) :
    Tells (history ++ (lexicon.run calls).1) (lexicon.run calls).2 := by
  induction calls generalizing history lexicon with
  | nil =>
    rw [Lexicon.run, List.append_nil]
    exact h
  | cons call rest ih =>
    have later := ih (h.call call)
    rw [List.append_assoc] at later
    exact later

theorem text?_after_iff {calls : List Call} {text : String} {symbol : Symbol} :
    (after calls).text? symbol = some text ↔ Interned (history calls) text symbol :=
  tells_empty.run calls text symbol

theorem mem_history_append {event : Call × Except Fault Reply} {calls : List Call}
    (h : event ∈ history calls) (later : List Call) : event ∈ history (calls ++ later) := by
  rw [history_append]
  exact List.mem_append_left _ h

/-- **Symbols are faithful to their texts, for good.** Two texts that were interned at any time
have the same symbol exactly if they are the same; a symbol that was given for a text stands for
it whatever is asked later; the texts that are found are the empty one and those that were
interned, under the symbols they were given; a word that is read as a text is the symbol under
which this text is found; and interning succeeds save for a new text whose shard is full. -/
theorem interned_symbols_stand_for_texts (calls : List Call) :
    (∀ s t a b, (Call.intern s, .ok (.symbol a)) ∈ history calls →
      (Call.intern t, .ok (.symbol b)) ∈ history calls → (a = b ↔ s = t)) ∧
    (∀ s a, (Call.intern s, .ok (.symbol a)) ∈ history calls →
      ∀ later, (after (calls ++ later)).text a = .ok s) ∧
    (∀ s a, (after calls).find? s = some a ↔ Interned (history calls) s a) ∧
    (∀ (raw : UInt32) t, (after calls).text ⟨raw⟩ = .ok t → (after calls).find? t = some ⟨raw⟩) ∧
    (∀ s, (∃ a, ((after calls).call (.intern s)).1 = .ok (.symbol a)) ↔
      (after calls).find? s ≠ none ∨
        ((after calls).shard (Symbol.shardOf s)).texts.size < Symbol.slotCount) := by
  refine ⟨?_, ?_, ?_, ?_, ?_⟩
  · intro s t a b given given'
    have held := text?_after_iff.mpr (.inr given)
    have held' := text?_after_iff.mpr (.inr given')
    constructor
    · rintro rfl
      exact Option.some.inj (held.symm.trans held')
    · rintro rfl
      exact text?_injective held held'
  · intro s a given later
    exact text_eq_ok_iff.mpr (text?_after_iff.mpr (.inr (mem_history_append given later)))
  · intro s a
    rw [find?_eq_some_iff, text?_after_iff]
  · intro raw t read
    exact find?_eq_some_iff.mpr (text_eq_ok_iff.mp read)
  · intro s
    rcases call_intern_cases (after calls) s with
      ⟨a, found, made⟩ | ⟨a, _, _, room, made, _⟩ | ⟨fresh, full, made⟩
    · simp [made, found]
    · simp [made, room]
    · simp [made, fresh, full]

theorem color_told_from_empty :
    ∃ a b, (Call.intern "color", .ok (.symbol a)) ∈ history [.intern "color", .intern ""] ∧
      (Call.intern "", .ok (.symbol b)) ∈ history [.intern "color", .intern ""] ∧ a ≠ b ∧
      (after [.intern "color", .intern ""]).text a = .ok "color" ∧
      (after [.intern "color", .intern ""]).find? "color" = some a := by
  obtain ⟨a, given⟩ :=
    ((interned_symbols_stand_for_texts []).2.2.2.2 "color").mpr (.inr (by decide +kernel))
  obtain ⟨b, given'⟩ :=
    ((interned_symbols_stand_for_texts [.intern "color"]).2.2.2.2 "").mpr (.inl (by simp))
  have first : (Call.intern "color", .ok (.symbol a)) ∈ history [.intern "color", .intern ""] := by
    rw [← given]
    exact .head _
  have second : (Call.intern "", .ok (.symbol b)) ∈ history [.intern "color", .intern ""] := by
    rw [← given']
    exact .tail _ (.head _)
  obtain ⟨apart, stays, _, back, _⟩ :=
    interned_symbols_stand_for_texts [.intern "color", .intern ""]
  have read := stays _ _ first []
  refine ⟨a, b, first, second, ?_, read, back a.raw _ read⟩
  intro same
  exact absurd ((apart _ _ _ _ first second).mp same) (by decide)

end NearMiss.Lexicon
