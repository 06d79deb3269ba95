import NearMiss.Proofs.HeaderIndex
import NearMiss.Proofs.Lexicon.Learning
import NearMiss.Proofs.Scope.History
import NearMiss.Session

/-! What steps do to a session.

A step interns its texts before it does anything else. So it may stop there, for
want of room; after that it does what it is for, or is refused, and then the
lexicon is all that changed. `Stepped` lists the cases and `stepped_step` says that
there are no others. `Follows` is what they all keep, and what any number of steps
keeps (`follows_run`). -/
namespace NearMiss.Session

open Scope (Id Tree)

/-! ### Steps whose texts find room -/

section Room
variable {session middle : Session}

/-- Work on the lexicon that comes to its end. -/
theorem interning_of_ok {α : Type} {work : Interning α} {value : α} {lexicon : Lexicon}
    (done : work session.lexicon = .ok value lexicon) :
    interning work session = .ok value { session with lexicon } := by
  rw [interning, done]

theorem step_intern_of_ok {texts : List String} {symbols : List Symbol}
    (done : interning (Interning.internAll texts) session = .ok symbols middle) :
    session.step (.intern texts) = (.ok (.symbols symbols), middle) := by
  simp only [step, perform, bind, EStateM.bind, done]
  rfl

section OpenScope
variable {parent : Id} {kind : Scope.Kind} {name : Option String} {symbol? : Option Symbol}
  (done : interning (name.mapM Interning.intern) session = .ok symbol? middle)
include done

theorem step_openScope_of_ok {opened : Id} {tree : Tree}
    (grown : middle.tree.openScope parent kind symbol? = .ok (opened, tree)) :
    session.step (.openScope parent kind name) = (.ok (.opened opened), { middle with tree }) := by
  simp only [step, perform, openScope, bind, EStateM.bind, done, get_apply, grown, liftM_ok]
  rfl

theorem step_openScope_of_error {fault : Fault}
    (refused : middle.tree.openScope parent kind symbol? = .error fault) :
    session.step (.openScope parent kind name) = (.error fault, middle) := by
  simp only [step, perform, openScope, bind, EStateM.bind, done, get_apply, refused, liftM_error]
  rfl

end OpenScope

section DeclareAll
variable {scope : Id} {names : List String} {symbols : List Symbol}
  (done : interning (Interning.internAll names) session = .ok symbols middle)
include done

theorem step_declareAll_of_ok {tree : Tree}
    (grown : middle.tree.declareAll scope symbols = .ok tree) :
    session.step (.declareAll scope names) = (.ok .done, { middle with tree }) := by
  simp only [step, perform, declareAll, bind, EStateM.bind, done, get_apply, grown, liftM_ok]
  rfl

theorem step_declareAll_of_error {fault : Fault}
    (refused : middle.tree.declareAll scope symbols = .error fault) :
    session.step (.declareAll scope names) = (.error fault, middle) := by
  simp only [step, perform, declareAll, bind, EStateM.bind, done, get_apply, refused, liftM_error]
  rfl

end DeclareAll

theorem step_ask_of_ok {text : String} {symbol : Symbol}
    (done : interning (Interning.intern text) session = .ok symbol middle) (span : Span)
    (question : Question) :
    session.step (.ask text span question) =
      ((middle.lookup.ask ⟨symbol, span⟩ question).map .answer, middle) := by
  simp only [step, perform, ask, intern, bind, EStateM.bind, done, get_apply]
  cases middle.lookup.ask ⟨symbol, span⟩ question with
  | ok answer => rfl
  | error fault => rfl

end Room

/-! ### All that a step can do -/

/-- The entries that are loaded, the standard ones if none are given. -/
def entriesOf (given : Option (List (String × String))) : List (String × String) :=
  given.getD HeaderIndex.standardEntries

/-- What a step reports and where it leads, case by case. -/
inductive Stepped (session : Session) : Step → Except Fault Reply × Session → Prop
  /-- A text found no room; those before it stay. -/
  | overflowed {step : Step} {shard count : Nat} {lexicon : Lexicon} :
      session.lexicon.Extends lexicon →
      Stepped session step (.error (.shardFull shard count), { session with lexicon })
  | interned {texts : List String} {symbols : List Symbol} {lexicon : Lexicon} :
      session.lexicon.Extends lexicon →
      Stepped session (.intern texts) (.ok (.symbols symbols), { session with lexicon })
  | opened {parent opened : Id} {kind : Scope.Kind} {name : Option String}
      {symbol? : Option Symbol} {lexicon : Lexicon} {tree : Tree} :
      session.lexicon.Extends lexicon → (∀ symbol ∈ symbol?, lexicon.Knows symbol) →
      session.tree.openScope parent kind symbol? = .ok (opened, tree) →
      Stepped session (.openScope parent kind name)
        (.ok (.opened opened), { session with lexicon, tree })
  | notOpened {parent : Id} {kind : Scope.Kind} {name : Option String} {lexicon : Lexicon} :
      session.lexicon.Extends lexicon → session.tree.size ≤ parent.index →
      Stepped session (.openScope parent kind name)
        (.error (.foreignParent parent), { session with lexicon })
  | declared {scope : Id} {names : List String} {symbols : List Symbol} {lexicon : Lexicon}
      {tree : Tree} :
      session.lexicon.Extends lexicon → (∀ symbol ∈ symbols, lexicon.Knows symbol) →
      symbols.length = names.length →
      session.tree.declareAll scope symbols = .ok tree →
      Stepped session (.declareAll scope names) (.ok .done, { session with lexicon, tree })
  | notDeclared {scope : Id} {names : List String} {lexicon : Lexicon} :
      session.lexicon.Extends lexicon → names ≠ [] → session.tree.size ≤ scope.index →
      Stepped session (.declareAll scope names)
        (.error (.foreignScope scope), { session with lexicon })
  | loaded {given : Option (List (String × String))} {headers : HeaderIndex} {lexicon : Lexicon} :
      session.lexicon.Extends lexicon → headers.BuiltFrom (entriesOf given) lexicon →
      Stepped session (.loadHeaders given) (.ok .done, { session with lexicon, headers })
  | tuned (tolerance : Tolerance) :
      Stepped session (.setTolerance tolerance) (.ok .done, { session with tolerance })
  | asked {text : String} {span : Span} {question : Question} {symbol : Symbol}
      {lexicon : Lexicon} :
      session.lexicon.Extends lexicon → lexicon.text? symbol = some text →
      Stepped session (.ask text span question)
        ((({ session with lexicon } : Session).lookup.ask ⟨symbol, span⟩ question).map .answer,
          { session with lexicon })

/-- Work on the lexicon comes to its end, or to that of a shard. -/
theorem interning_cases {α : Type} {work : Interning α} (learns : Interning.Learns work)
    (session : Session) :
    (∃ value lexicon, work session.lexicon = .ok value lexicon ∧
      session.lexicon.Extends lexicon ∧
      interning work session = .ok value { session with lexicon }) ∨
    ∃ shard count lexicon, session.lexicon.Extends lexicon ∧
      interning work session = .error (.shardFull shard count) { session with lexicon } := by
  cases done : work session.lexicon with
  | ok value lexicon => exact .inl ⟨value, lexicon, rfl, learns.ok done, interning_of_ok done⟩
  | error fault lexicon =>
    obtain ⟨kept, shard, count, rfl⟩ := learns.error done
    exact .inr ⟨shard, count, lexicon, kept, by rw [interning, done]⟩

theorem stepped_intern (session : Session) (texts : List String) :
    Stepped session (.intern texts) (session.step (.intern texts)) := by
  rcases interning_cases (Interning.learns_internAll texts) session with
    ⟨symbols, lexicon, _, kept, done⟩ | ⟨shard, count, lexicon, kept, failed⟩
  · rw [step_intern_of_ok done]
    exact .interned kept
  · simp only [step, perform, bind, EStateM.bind, failed]
    exact .overflowed kept

theorem stepped_openScope (session : Session) (parent : Id) (kind : Scope.Kind)
    (name : Option String) :
    Stepped session (.openScope parent kind name) (session.step (.openScope parent kind name)) := by
  rcases interning_cases (Interning.learns_internOption name) session with
    ⟨symbol?, lexicon, made, kept, done⟩ | ⟨shard, count, lexicon, kept, failed⟩
  · rcases Tree.openScope_cases session.tree parent kind symbol? with
      ⟨_, opened, tree, grown⟩ | ⟨foreign, refused⟩
    · rw [step_openScope_of_ok done grown]
      exact .opened kept (Interning.knows_of_internOption made) grown
    · rw [step_openScope_of_error done refused]
      exact .notOpened kept foreign
  · simp only [step, perform, openScope, bind, EStateM.bind, failed]
    exact .overflowed kept

theorem stepped_declareAll (session : Session) (scope : Id) (names : List String) :
    Stepped session (.declareAll scope names) (session.step (.declareAll scope names)) := by
  rcases interning_cases (Interning.learns_internAll names) session with
    ⟨symbols, lexicon, made, kept, done⟩ | ⟨shard, count, lexicon, kept, failed⟩
  · have length := Interning.length_of_internAll made
    rcases Tree.declareAll_cases session.tree scope symbols with
      ⟨_, tree, grown⟩ | ⟨any, foreign, refused⟩
    · rw [step_declareAll_of_ok done grown]
      exact .declared kept (Interning.knows_of_internAll made) length grown
    · rw [step_declareAll_of_error done refused]
      refine .notDeclared kept ?_ foreign
      rintro rfl
      exact any (List.eq_nil_of_length_eq_zero length)
  · simp only [step, perform, declareAll, bind, EStateM.bind, failed]
    exact .overflowed kept

/-- The standard headers are loaded like any others. -/
theorem perform_loadHeaders (given : Option (List (String × String))) :
    perform (.loadHeaders given) =
      loadHeaders (HeaderIndex.ofEntries (entriesOf given)) >>= fun _ => pure .done := by
  cases given with
  | none => rfl
  | some entries => rfl

theorem stepped_loadHeaders (session : Session) (given : Option (List (String × String))) :
    Stepped session (.loadHeaders given) (session.step (.loadHeaders given)) := by
  rw [step, perform_loadHeaders]
  rcases interning_cases (HeaderIndex.learns_ofEntries (entriesOf given)) session with
    ⟨headers, lexicon, made, kept, done⟩ | ⟨shard, count, lexicon, kept, failed⟩
  · simp only [loadHeaders, bind, EStateM.bind, done]
    exact .loaded kept ⟨session.lexicon, lexicon, made, .refl _⟩
  · simp only [loadHeaders, bind, EStateM.bind, failed]
    exact .overflowed kept

theorem stepped_ask (session : Session) (text : String) (span : Span) (question : Question) :
    Stepped session (.ask text span question) (session.step (.ask text span question)) := by
  rcases interning_cases (Interning.learns_intern text) session with
    ⟨symbol, lexicon, made, kept, done⟩ | ⟨shard, count, lexicon, kept, failed⟩
  · rw [step_ask_of_ok done]
    exact .asked kept (Lexicon.text?_of_intern made)
  · simp only [step, perform, ask, intern, bind, EStateM.bind, failed]
    exact .overflowed kept

/-- Whatever is done, it is one of the cases. -/
theorem stepped_step (session : Session) (step : Step) : Stepped session step (session.step step) := by
  cases step with
  | intern texts => exact stepped_intern session texts
  | openScope parent kind name => exact stepped_openScope session parent kind name
  | declareAll scope names => exact stepped_declareAll session scope names
  | loadHeaders given => exact stepped_loadHeaders session given
  | setTolerance tolerance => exact .tuned tolerance
  | ask text span question => exact stepped_ask session text span question

/-! ### What steps keep -/

/-- The later session grew out of the earlier one, and knows the names that came in between. -/
structure Follows (session next : Session) : Prop where
  lexicon : session.lexicon.Extends next.lexicon
  tree : ∃ edits, session.tree.grow edits = next.tree ∧
    ∀ event ∈ session.tree.history edits, ∀ symbol ∈ event.symbols, next.lexicon.Knows symbol
  headers : next.headers = session.headers ∨
    ∃ entries, next.headers.BuiltFrom entries next.lexicon
  listing_eq : next.listing = session.listing

theorem follows_of_extends {session : Session} {lexicon : Lexicon}
    (kept : session.lexicon.Extends lexicon) : session.Follows { session with lexicon } where
  lexicon := kept
  tree := ⟨[], rfl, by simp [Tree.history]⟩
  headers := .inl rfl
  listing_eq := rfl

theorem Follows.refl (session : Session) : session.Follows session := follows_of_extends (.refl _)

theorem Follows.trans {first second third : Session} (h : first.Follows second)
    (h' : second.Follows third) : first.Follows third where
  lexicon := h.lexicon.trans h'.lexicon
  tree := by
    obtain ⟨edits, grown, known⟩ := h.tree
    obtain ⟨more, grown', known'⟩ := h'.tree
    refine ⟨edits ++ more, by rw [Tree.grow_append, grown, grown'], fun event on symbol used => ?_⟩
    rw [Tree.history_append, grown] at on
    rcases List.mem_append.mp on with on | on
    · exact (known event on symbol used).mono h'.lexicon
    · exact known' event on symbol used
  headers := by
    rcases h'.headers with same | built
    · rcases h.headers with old | ⟨entries, built⟩
      · exact .inl (same.trans old)
      · exact .inr ⟨entries, same ▸ built.mono h'.lexicon⟩
    · exact .inr built
  listing_eq := h'.listing_eq.trans h.listing_eq

theorem Stepped.follows {session : Session} {step : Step} {result : Except Fault Reply × Session}
    (stepped : Stepped session step result) : session.Follows result.2 := by
  cases stepped with
  | overflowed kept => exact follows_of_extends kept
  | interned kept => exact follows_of_extends kept
  | notOpened kept _ => exact follows_of_extends kept
  | notDeclared kept _ _ => exact follows_of_extends kept
  | asked kept _ => exact follows_of_extends kept
  | @opened parent opened kind _ symbol? lexicon tree kept known grown =>
    refine ⟨kept, ⟨[.openScope parent kind symbol?], ?_, ?_⟩, .inl rfl, rfl⟩
    · simp [Tree.grow, Tree.edit, grown]
    · simpa [Tree.history, Tree.accepted, grown, Tree.Event.symbols] using known
  | @declared scope _ symbols lexicon tree kept known _ grown =>
    refine ⟨kept, ⟨[.declareAll scope symbols], ?_, ?_⟩, .inl rfl, rfl⟩
    · simp [Tree.grow, Tree.edit, grown]
    · simpa [Tree.history, Tree.accepted, grown, Tree.Event.symbols] using known
  | loaded kept built => exact ⟨kept, ⟨[], rfl, by simp [Tree.history]⟩, .inr ⟨_, built⟩, rfl⟩
  | tuned tolerance =>
    exact ⟨.refl _, ⟨[], rfl, by simp [Tree.history]⟩, .inl rfl, rfl⟩

theorem follows_run (session : Session) (steps : List Step) :
    session.Follows (session.run steps).2 := by
  induction steps generalizing session with
  | nil => exact .refl session
  | cons step rest ih => exact (stepped_step session step).follows.trans (ih _)

/-! ### Sessions from the start -/

/-- The session after some steps, from the start. -/
def after (steps : List Step) : Session := (({} : Session).run steps).2

/-- What these steps reported. -/
def replies (steps : List Step) : List (Except Fault Reply) := (({} : Session).run steps).1

theorem after_append (steps later : List Step) :
    after (steps ++ later) = ((after steps).run later).2 := by
  rw [after, run_append]
  rfl

theorem follows_after (steps : List Step) : ({} : Session).Follows (after steps) :=
  follows_run {} steps

theorem follows_after_append (steps later : List Step) :
    (after steps).Follows (after (steps ++ later)) := by
  rw [after_append]
  exact follows_run _ later

/-- Scopes are opened one at a time. -/
theorem size_step_le (session : Session) (step : Step) :
    (session.step step).2.tree.size ≤ session.tree.size + 1 := by
  have stepped := stepped_step session step
  generalize session.step step = result at stepped ⊢
  cases stepped with
  | opened _ _ grown => exact Nat.le_of_eq (Tree.size_openScope grown).1
  | declared _ _ _ grown => exact (Tree.size_declareAll grown).trans_le (Nat.le_succ _)
  | overflowed _ => exact Nat.le_succ _
  | interned _ => exact Nat.le_succ _
  | notOpened _ _ => exact Nat.le_succ _
  | notDeclared _ _ _ => exact Nat.le_succ _
  | loaded _ _ => exact Nat.le_succ _
  | tuned _ => exact Nat.le_succ _
  | asked _ _ => exact Nat.le_succ _

theorem size_run_le (session : Session) (steps : List Step) :
    (session.run steps).2.tree.size ≤ session.tree.size + steps.length := by
  induction steps generalizing session with
  | nil => exact Nat.le_refl _
  | cons step rest ih =>
    have first := size_step_le session step
    have later : (session.run (step :: rest)).2.tree.size ≤
        (session.step step).2.tree.size + rest.length := ih _
    rw [List.length_cons]
    omega

/-- A session of fewer than `Id.count` steps has handles for all its scopes. -/
theorem small_after {steps : List Step} (few : steps.length < Id.count) :
    (after steps).tree.size ≤ Id.count := by
  have size : (after steps).tree.size ≤ 1 + steps.length := size_run_le {} steps
  omega

end NearMiss.Session
