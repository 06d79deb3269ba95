import NearMiss.HeaderIndex

/-! What interning leaves behind.

Whatever works on a lexicon is put together from interning one text after
another. So it only learns: it takes nothing back, whether it succeeds or not,
and the one thing that can stop it is a full shard. The symbols it comes to are
all known to the lexicon it leaves. -/
namespace NearMiss

/-- The symbol stands for some text. -/
def Lexicon.Knows (lexicon : Lexicon) (symbol : Symbol) : Prop :=
  ∃ text, lexicon.text? symbol = some text

theorem Lexicon.Knows.mono {earlier later : Lexicon} {symbol : Symbol}
    (known : earlier.Knows symbol) (kept : earlier.Extends later) : later.Knows symbol := by
  obtain ⟨text, spelled⟩ := known
  exact ⟨text, kept spelled⟩

namespace Interning

/-- Takes nothing back, and fails only for want of room. -/
structure Learns {α : Type} (work : Interning α) : Prop where
  ok : ∀ {lexicon value last}, work lexicon = .ok value last → lexicon.Extends last
  error : ∀ {lexicon fault last}, work lexicon = .error fault last →
    lexicon.Extends last ∧ ∃ shard count, fault = .shardFull shard count

variable {α β : Type}

theorem learns_pure (value : α) : Learns (pure value) where
  ok := by
    intro lexicon value last done
    cases done
    exact .refl lexicon
  error := by
    intro lexicon fault last failed
    cases failed

theorem Learns.bind {work : Interning α} {next : α → Interning β} (first : Learns work)
    (second : ∀ value, Learns (next value)) : Learns (work >>= next) where
  ok := by
    intro lexicon result last done
    obtain ⟨value, middle, begun, ended⟩ := bind_eq_ok_iff.mp done
    exact (first.ok begun).trans ((second value).ok ended)
  error := by
    intro lexicon fault last failed
    rcases bind_eq_error_iff.mp failed with failed | ⟨value, middle, begun, failed⟩
    · exact first.error failed
    · obtain ⟨kept, full⟩ := (second value).error failed
      exact ⟨(first.ok begun).trans kept, full⟩

theorem learns_intern (text : String) : Learns (intern text) where
  ok := Lexicon.extends_of_intern
  error := by
    intro lexicon fault last failed
    have same := Lexicon.eq_of_intern_error failed
    subst same
    refine ⟨.refl last, ?_⟩
    rw [intern, Lexicon.intern] at failed
    split at failed
    · cases failed
    · dsimp only at failed
      split at failed
      · cases failed
      · cases failed
        exact ⟨_, _, rfl⟩

theorem learns_mapM {work : α → Interning β} (each : ∀ value, Learns (work value))
    (values : List α) : Learns (values.mapM work) := by
  induction values with
  | nil => exact learns_pure []
  | cons value rest ih =>
    rw [List.mapM_cons]
    exact (each value).bind fun _ => ih.bind fun _ => learns_pure _

theorem learns_foldlM {work : β → α → Interning β} (each : ∀ state value, Learns (work state value))
    (values : List α) (state : β) : Learns (values.foldlM work state) := by
  induction values generalizing state with
  | nil => exact learns_pure state
  | cons value rest ih =>
    rw [List.foldlM_cons]
    exact (each state value).bind ih

theorem learns_internAll (texts : List String) : Learns (internAll texts) :=
  learns_mapM learns_intern texts

theorem internOption_some (text : String) :
    (some text).mapM intern = intern text >>= fun symbol => pure (some symbol) :=
  map_eq_pure_bind some (intern text)

/-- An absent text needs no room. -/
theorem learns_internOption (text : Option String) : Learns (text.mapM intern) := by
  cases text with
  | none => exact learns_pure none
  | some text =>
    rw [internOption_some]
    exact (learns_intern text).bind fun _ => learns_pure _

/-- Each text gets a symbol, in order. -/
theorem texts_of_internAll {texts : List String} {lexicon last : Lexicon} {symbols : List Symbol}
    (done : internAll texts lexicon = .ok symbols last) :
    symbols.map last.text? = texts.map some := by
  induction texts generalizing lexicon symbols with
  | nil =>
    cases done
    rfl
  | cons text rest ih =>
    rw [internAll, List.mapM_cons] at done
    obtain ⟨symbol, middle, first, done⟩ := bind_eq_ok_iff.mp done
    obtain ⟨others, middle', later, done⟩ := bind_eq_ok_iff.mp done
    cases done
    have kept := (learns_internAll rest).ok later
    rw [List.map_cons, List.map_cons, kept (Lexicon.text?_of_intern first), ih later]

theorem internAll_cons {text : String} {texts : List String} {lexicon middle last : Lexicon}
    {symbol : Symbol} {symbols : List Symbol} (first : lexicon.intern text = .ok symbol middle)
    (rest : internAll texts middle = .ok symbols last) :
    internAll (text :: texts) lexicon = .ok (symbol :: symbols) last := by
  rw [internAll, List.mapM_cons]
  refine bind_eq_ok_iff.mpr ⟨symbol, middle, first, ?_⟩
  exact bind_eq_ok_iff.mpr ⟨symbols, last, rest, rfl⟩

/-- Texts that are known keep the symbols they have. -/
theorem internAll_of_texts {texts : List String} {lexicon : Lexicon} {symbols : List Symbol}
    (known : symbols.map lexicon.text? = texts.map some) :
    internAll texts lexicon = .ok symbols lexicon := by
  induction texts generalizing symbols with
  | nil =>
    cases List.map_eq_nil_iff.mp known
    rfl
  | cons text rest ih =>
    obtain ⟨symbol, others, rfl, first, later⟩ := List.map_eq_cons_iff.mp known
    exact internAll_cons (Lexicon.intern_of_find? (Lexicon.find?_eq_some_iff.mpr first)) (ih later)

theorem length_of_internAll {texts : List String} {lexicon last : Lexicon} {symbols : List Symbol}
    (done : internAll texts lexicon = .ok symbols last) : symbols.length = texts.length := by
  simpa using congrArg List.length (texts_of_internAll done)

theorem knows_of_internAll {texts : List String} {lexicon last : Lexicon} {symbols : List Symbol}
    (done : internAll texts lexicon = .ok symbols last) :
    ∀ symbol ∈ symbols, last.Knows symbol := by
  intro symbol on
  have read := List.mem_map_of_mem (f := last.text?) on
  rw [texts_of_internAll done] at read
  obtain ⟨text, _, spelled⟩ := List.mem_map.mp read
  exact ⟨text, spelled.symm⟩

theorem knows_of_internOption {text : Option String} {lexicon last : Lexicon}
    {symbol? : Option Symbol} (done : (text.mapM intern) lexicon = .ok symbol? last) :
    ∀ symbol ∈ symbol?, last.Knows symbol := by
  intro symbol on
  cases text with
  | none =>
    cases done
    cases on
  | some text =>
    rw [internOption_some] at done
    obtain ⟨given, middle, first, made⟩ := bind_eq_ok_iff.mp done
    cases made
    cases on
    exact ⟨text, Lexicon.text?_of_intern first⟩

end Interning

namespace HeaderIndex

open Interning (Learns)

theorem learns_add (index : HeaderIndex) (name header : String) :
    Learns (index.add name header) := by
  refine (Interning.learns_intern name).bind fun symbol => ?_
  split
  · exact Interning.learns_pure index
  · exact (Interning.learns_intern header).bind fun _ => Interning.learns_pure _

theorem learns_ofEntries (entries : List (String × String)) : Learns (ofEntries entries) := by
  refine Interning.learns_foldlM ?_ entries empty
  intro index (name, header)
  exact learns_add index name header

end HeaderIndex

end NearMiss
