import RelationLang.Proofs.Interpreter.Ending
import RelationLang.Proofs.Interpreter.Lockstep

/-!
# Hooks that take notes

**Input.**  An interpreter with any hooks, and a note that grows with every invocation and with the
answer to it.

**Algorithm.**  Every hook does what it did, on the store without the note, and writes the note
beside what the hooks remember. So a run with notes is the run without them, and the note shows what
the hooks themselves have been asked and have answered.

**Results.**
* `lockstep_noting`: the note makes no difference to a run.
* `eq_map_withNote`: a run with notes is known by the run without them and by its last note.
* `counted_statement`: the number of continuations is how often a hook has answered with a line.
-/

namespace RelationLang

open Program

section Definitions

variable {μ α : Type}

/-- The store with a note beside what the hooks remember. -/
def Store.withNote (store : Store μ) (note : α) : Store (α × μ) :=
  ⟨store.graph, store.said, (note, store.memory)⟩

def Store.withoutNote (store : Store (α × μ)) : Store μ :=
  ⟨store.graph, store.said, store.memory.2⟩

/-- A verdict with a note in its store. -/
def Verdict.withNote (verdict : Verdict μ) (note : α) : Verdict (α × μ) :=
  ⟨verdict.error?, verdict.calls, verdict.continued, verdict.store.withNote note⟩

variable (grow : α → Call → Except Error Outcome → α)

/-- The hook of a word, which also notes how it has been invoked and what it answers. -/
def Hook.noting (word : Token) (hook : Hook μ) : Hook (α × μ) where
  verb := hook.verb
  run clause store :=
    let (answer, after) := hook.run clause store.withoutNote
    (answer, after.withNote (grow store.memory.1 ⟨word, clause⟩ answer))

def Vocabulary.noting (vocabulary : Vocabulary μ) : Vocabulary (α × μ) :=
  ⟨vocabulary.entries.map fun entry => (entry.1, entry.2.noting grow entry.1)⟩

/-- The interpreter whose hooks take notes. -/
def Interpreter.noting (i : Interpreter μ) : Interpreter (α × μ) :=
  ⟨i.vocabulary.noting grow, i.limit⟩

/-- One for an answer with a line to run next, and zero for any other. -/
def continuations : Except Error Outcome → Nat
  | .ok outcome => if outcome.next = [] then 0 else 1
  | .error _ => 0

/-- The interpreter whose hooks count how often they answer with a line. -/
def Interpreter.counted (i : Interpreter μ) : Interpreter (Nat × μ) :=
  i.noting fun count _ answer => count + continuations answer

end Definitions

section Vocabularies

variable {μ α : Type} (grow : α → Call → Except Error Outcome → α)

theorem hook?_noting (vocabulary : Vocabulary μ) (word : Token) :
    (vocabulary.noting grow).hook? word = (vocabulary.hook? word).map (Hook.noting grow word) := by
  rw [Vocabulary.hook?, Vocabulary.noting, List.find?_map, Vocabulary.hook?, Option.map_map,
    Option.map_map]
  cases h : vocabulary.entries.find? fun entry => entry.1 == word with
  | none => simp [Function.comp_def, h]
  | some entry =>
      obtain rfl : entry.1 = word := by simpa using List.find?_some h
      simp [Function.comp_def, h]

/-- The leading word of a line has a hook that takes notes. -/
theorem exists_noting_of_leading? {i : Interpreter μ} {tokens : List Token} {word : Token}
    {hook : Hook (α × μ)} (h : (i.noting grow).vocabulary.leading? tokens = some (word, hook)) :
    ∃ plain : Hook μ, hook = plain.noting grow word := by
  have hhook := Vocabulary.hook?_of_leading? h
  rw [Interpreter.noting, hook?_noting] at hhook
  obtain ⟨plain, _, rfl⟩ := Option.map_eq_some_iff.mp hhook
  exact ⟨plain, rfl⟩

end Vocabularies

namespace Interpreter

section Notes

variable {μ α : Type} (i : Interpreter μ) (grow : α → Call → Except Error Outcome → α)

/-- Hooks that take notes do what they did before, the note aside. -/
theorem lockstep_noting :
    i.Lockstep (fun store noted => noted.withoutNote = store) (i.noting grow) where
  limit := rfl
  hooks := fun word => by
    rw [noting, hook?_noting]
    cases i.vocabulary.hook? word with
    | none => exact .none
    | some hook =>
        refine .some ?_
        rintro clause _ noted rfl
        exact ⟨rfl, rfl⟩
  atoms := by
    rintro _ _ tokens rfl
    rfl
  box := by
    rintro _ _ tokens rfl
    rfl
  complete := by
    rintro _ _ rfl
    exact ⟨rfl, rfl⟩

/-- A run with notes is the run without them, with the note that it comes to. -/
theorem eq_map_withNote {verdict? : Option (Verdict μ)} {noted? : Option (Verdict (α × μ))}
    (note : List Call → Nat → α)
    (h : Option.Rel (Verdict.Matches fun store noted => noted.withoutNote = store) verdict? noted?)
    (hnote : ∀ noted, noted? = some noted → noted.store.memory.1 = note noted.calls noted.continued) :
    noted? = verdict?.map fun verdict =>
      verdict.withNote (note verdict.calls verdict.continued) := by
  cases h with
  | none => rfl
  | @some verdict noted hmatches =>
      have hstore : verdict.store.withNote (note verdict.calls verdict.continued) = noted.store := by
        rw [← hmatches.store, hmatches.calls, hmatches.continued, ← hnote noted rfl]
        rfl
      rw [Option.map_some, Verdict.withNote, hstore, hmatches.error, hmatches.calls,
        hmatches.continued]

end Notes

section Counting

variable {μ : Type} {i : Interpreter μ}

theorem count_of_run {clause : Clause} {store after : Store (Nat × μ)} {word : Token}
    {hook : Hook (Nat × μ)} {answer : Except Error Outcome}
    (hleading : i.counted.vocabulary.leading? clause.tokens = some (word, hook))
    (hrun : hook.run clause store = (answer, after)) :
    after.memory.1 = store.memory.1 + continuations answer := by
  obtain ⟨plain, rfl⟩ := exists_noting_of_leading? _ hleading
  obtain ⟨rfl, rfl⟩ := Prod.mk.inj hrun
  rfl

/-- A line adds to the count what it adds to the continuations. -/
theorem LineEnds.count {clause : Clause} {continued : Nat} {store : Store (Nat × μ)}
    {verdict : Verdict (Nat × μ)} (h : i.counted.LineEnds clause continued store verdict) :
    verdict.store.memory.1 + continued = store.memory.1 + verdict.continued := by
  induction h with
  | atoms _ hstored => rw [hstored.memory]
  | failed hleading hrun => simp [count_of_run hleading hrun, continuations]
  | done hleading hrun hnext => simp [count_of_run hleading hrun, continuations, hnext]
  | refused hleading hrun hnext =>
      simp [count_of_run hleading hrun, continuations, hnext]
      omega
  | continued hleading hrun hnext _ _ ih =>
      simp only [count_of_run hleading hrun, continuations, hnext, reduceCtorEq, if_false] at ih
      simp only [Verdict.store_after, Verdict.continued_after]
      omega

theorem LinesEnd.count {clauses : List Clause} {sofar verdict : Verdict (Nat × μ)}
    (h : i.counted.LinesEnd clauses sofar verdict) :
    verdict.store.memory.1 + sofar.continued = sofar.store.memory.1 + verdict.continued := by
  induction h with
  | nil => rfl
  | stopped hends => exact hends.count
  | next hends _ _ ih =>
      have hfirst := hends.count
      simp only [Verdict.store_after, Verdict.continued_after] at ih
      omega

/-- The continuations of a statement are as many as the answers of its hooks with a line to run
next. -/
theorem counted_statement (turns : Nat) (s : Statement) (store : Store μ) :
    i.counted.statement turns s (store.withNote 0) =
      (i.statement turns s store).map fun verdict => verdict.withNote verdict.continued := by
  have hmatches : Option.Rel (Verdict.Matches fun store counted => counted.withoutNote = store)
      (i.statement turns s store) (i.counted.statement turns s (store.withNote 0)) :=
    (i.lockstep_noting _).statement turns s rfl
  refine eq_map_withNote (fun _ continued => continued) hmatches fun counted hcounted => ?_
  have hcount := ((ends_iff _).mp ⟨turns, hcounted⟩).count
  have hopened : (opened s (store.withNote 0)).memory.1 = 0 := by
    rw [opened]
    split <;> rfl
  simpa [hopened] using hcount

theorem Ends.counted {s : Statement} {store : Store μ} {verdict : Verdict μ}
    (h : i.Ends s store verdict) :
    i.counted.Ends s (store.withNote 0) (verdict.withNote verdict.continued) := by
  obtain ⟨turns, hverdict⟩ := h
  exact ⟨turns, by rw [counted_statement, hverdict, Option.map_some]⟩

end Counting

end Interpreter
end RelationLang
