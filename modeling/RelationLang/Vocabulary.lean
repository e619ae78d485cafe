import RelationLang.Hook

/-!
# Vocabularies

A vocabulary assigns hooks to reserved words. Each word has at most one hook; a later assignment
replaces an earlier one.

**Results.**
* `hook?_define`: defining a word changes the meaning of that word and of no other.
* `hook?_merge`: the incoming vocabulary wins.
* `hook?_of_leading?`: the leading word of a line is reserved.
-/

namespace RelationLang

/-- Reserved words and their hooks. -/
structure Vocabulary (μ : Type) where
  /-- The words with their hooks, each word once. -/
  entries : List (String × Hook μ) := []

namespace Vocabulary

variable {μ : Type}

def empty : Vocabulary μ := {}

def hook? (vocabulary : Vocabulary μ) (word : String) : Option (Hook μ) :=
  (vocabulary.entries.find? fun entry => entry.1 == word).map (·.2)

def contains (vocabulary : Vocabulary μ) (word : String) : Bool := (vocabulary.hook? word).isSome

/-- Assigns a hook to a word, in place of any hook it had. -/
def define (vocabulary : Vocabulary μ) (word : String) (hook : Hook μ) : Vocabulary μ :=
  ⟨(word, hook) :: vocabulary.entries.filter fun entry => entry.1 != word⟩

/-- Assigns a hook to the word it goes by. -/
def add (vocabulary : Vocabulary μ) (hook : Hook μ) : Vocabulary μ :=
  vocabulary.define hook.verb hook

/-- Both vocabularies in one; the incoming one wins where they meet. -/
def merge (vocabulary incoming : Vocabulary μ) : Vocabulary μ :=
  ⟨incoming.entries ++ vocabulary.entries.filter fun entry => !incoming.contains entry.1⟩

/-- The reserved words in the order of their code points. -/
def words (vocabulary : Vocabulary μ) : List String :=
  (vocabulary.entries.map (·.1)).mergeSort fun a b => decide (a ≤ b)

def size (vocabulary : Vocabulary μ) : Nat := vocabulary.entries.length

def isEmpty (vocabulary : Vocabulary μ) : Bool := vocabulary.entries.isEmpty

/-- The leftmost reserved word of a line, with its hook. -/
def leading? (vocabulary : Vocabulary μ) (tokens : List Token) : Option (Token × Hook μ) :=
  tokens.findSome? fun token => (vocabulary.hook? token).map (token, ·)

/-- Entries of other words do not matter to the meaning of a word. -/
theorem find?_filter_of_ne (entries : List (String × Hook μ)) {word other : String}
    (h : word ≠ other) :
    ((entries.filter fun entry => entry.1 != word).find? fun entry => entry.1 == other) =
      entries.find? fun entry => entry.1 == other := by
  induction entries with
  | nil => rfl
  | cons entry rest ih =>
    by_cases hw : entry.1 = word
    · have ho : entry.1 ≠ other := by rw [hw]; exact h
      simpa [hw, ho, h] using ih
    · by_cases ho : entry.1 = other <;> simp [hw, ho, ih, Ne.symm h]

/-- Defining a word changes the meaning of that word and of no other. -/
theorem hook?_define (vocabulary : Vocabulary μ) (word other : String) (hook : Hook μ) :
    (vocabulary.define word hook).hook? other =
      if word = other then some hook else vocabulary.hook? other := by
  by_cases h : word = other
  · simp [define, hook?, h]
  · simp [define, hook?, h, find?_filter_of_ne _ h]

theorem hook?_merge (vocabulary incoming : Vocabulary μ) (word : String) :
    (vocabulary.merge incoming).hook? word =
      (incoming.hook? word).or (vocabulary.hook? word) := by
  unfold merge hook?
  rw [List.find?_append]
  cases h : incoming.entries.find? (fun entry => entry.1 == word) with
  | some entry => simp
  | none =>
    have hword : incoming.contains word = false := by simp [contains, hook?, h]
    have : (vocabulary.entries.filter fun entry => !incoming.contains entry.1).find?
        (fun entry => entry.1 == word) =
          vocabulary.entries.find? fun entry => entry.1 == word := by
      induction vocabulary.entries with
      | nil => rfl
      | cons entry rest ih =>
        by_cases he : entry.1 = word
        · simp [he, hword]
        · by_cases hc : incoming.contains entry.1 = true <;> simp [he, hc, ih]
    simp [this]

/-- The leading word has the hook found with it. -/
theorem hook?_of_leading? {vocabulary : Vocabulary μ} {tokens : List Token} {word : Token}
    {hook : Hook μ} (h : vocabulary.leading? tokens = some (word, hook)) :
    vocabulary.hook? word = some hook := by
  obtain ⟨token, _, hfound⟩ := List.exists_of_findSome?_eq_some h
  obtain ⟨found, hhook, hpair⟩ := Option.map_eq_some_iff.mp hfound
  obtain ⟨rfl, rfl⟩ := Prod.mk.inj hpair
  exact hhook

end Vocabulary
end RelationLang
