import RelationLang.Program.Statement
import RelationLang.Vocabulary

/-!
# The standard words

Four words state and test relationships, one word produces output.

**Algorithm.**  `cat is animal`, with the word in the middle of three tokens, records a fact.
`is cat animal ...`, with the word in front, runs the rest of the line if the state of the pair
is what the word stands for; an unknown state never passes. `say ...` emits the words after it,
and the lines of the block under it.

**Results.**
* `Relation.run_cases`, `sayHook_run_cases`: what an invocation can do.
* `ofWord?_word`: each verb is found under its word.
-/

namespace RelationLang

open Program Text

/-- A word that states or tests a relationship. -/
inductive Relation where
  | is
  | isnt
  | has
  | hasnt
deriving DecidableEq, Repr, Inhabited

/-- A standard word. -/
inductive Verb where
  | relation (relation : Relation)
  | say
deriving DecidableEq, Repr, Inhabited

namespace Relation

def word : Relation → String
  | .is => "is"
  | .isnt => "isnt"
  | .has => "has"
  | .hasnt => "hasnt"

/-- The truth value that the word states or tests for. -/
def truth : Relation → Bool
  | .is | .has => true
  | .isnt | .hasnt => false

/-- The kind of the facts that the word states. -/
def kind : Relation → FactKind
  | .is | .isnt => .identity
  | .has | .hasnt => .property

/-- The two arrangements in which the word can be used. -/
def usage (relation : Relation) : Error :=
  let verb := relation.word
  .usage verb
    ("<subject> " ++ verb ++ " <object>  |  " ++ verb ++ " <subject> <object> [then...]")

def all : List Relation := [.is, .isnt, .has, .hasnt]

/-- Where the word stands in a line, and what stands around it. -/
inductive Use where
  /-- The word is in front: a test of a pair, and what to run if it succeeds. -/
  | guard (pair : Pair) (rest : List Token)
  /-- The word is in the middle of three tokens: a statement about a pair. -/
  | assertion (pair : Pair)
  /-- The word stands in no other place. -/
  | misuse
deriving DecidableEq, Repr

/-- Reads the arrangement of a line by the first place of the word in it. -/
def use (relation : Relation) (tokens : List Token) : Use :=
  match tokens.findIdx? (· == relation.word), tokens with
  | some 0, _ :: subject :: object :: rest => .guard ⟨subject, object⟩ rest
  | some 1, [subject, _, object] => .assertion ⟨subject, object⟩
  | _, _ => .misuse

/-- The hook of the word, which gives its facts the kind `kind`. -/
def hookWithKind {μ : Type} (relation : Relation) (kind : FactKind) : Hook μ where
  verb := relation.word
  run clause store :=
    match relation.use clause.tokens with
    | .guard pair rest =>
      if store.graph.state? pair = some relation.truth then (.ok (.ofTokens rest), store)
      else (.ok .done, store)
    | .assertion pair =>
      (.ok .done, store.mapGraph fun g => (g.record ⟨pair, relation.truth, kind⟩).2)
    | .misuse => (.error relation.usage, store)

def hook {μ : Type} (relation : Relation) : Hook μ := relation.hookWithKind relation.kind

/-- An invocation of the word tests a pair, records a fact, or fails. -/
theorem run_cases {μ : Type} (relation : Relation) (kind : FactKind) (clause : Clause)
    (store : Store μ) :
    (∃ pair rest, relation.use clause.tokens = .guard pair rest ∧
        (relation.hookWithKind kind).run clause store =
          (.ok (if store.graph.state? pair = some relation.truth then .ofTokens rest else .done),
            store)) ∨
      (∃ pair, relation.use clause.tokens = .assertion pair ∧
        (relation.hookWithKind kind).run clause store =
          (.ok .done, store.mapGraph fun g => (g.record ⟨pair, relation.truth, kind⟩).2)) ∨
      (relation.use clause.tokens = .misuse ∧
        (relation.hookWithKind kind).run clause store = (.error relation.usage, store)) := by
  simp only [hookWithKind]
  cases huse : relation.use clause.tokens with
  | guard pair rest =>
    refine .inl ⟨pair, rest, rfl, ?_⟩
    dsimp only
    split <;> rfl
  | assertion pair => exact .inr (.inl ⟨pair, rfl, rfl⟩)
  | misuse => exact .inr (.inr ⟨rfl, rfl⟩)

end Relation

/-- The tokens after the first occurrence of a word; none if it does not occur. -/
def tokensAfter (word : String) (tokens : List Token) : List Token :=
  (tokens.dropWhile (· != word)).drop 1

/-- The lines that `say` emits for a line and the block under it. -/
def sayLines (clause : Clause) : List String :=
  let spoken := tokensAfter "say" clause.tokens
  (if spoken = [] then [] else [unwords spoken]) ++ clause.block.getD []

/-- The hook of `say`; with nothing to emit it has been misused. -/
def sayHook {μ : Type} : Hook μ where
  verb := "say"
  run clause store :=
    match sayLines clause with
    | [] => (.error (.usage "say" "say <words...>"), store)
    | lines => (.ok .done, store.emit lines)

/-- An invocation of `say` fails or emits lines. -/
theorem sayHook_run_cases {μ : Type} (clause : Clause) (store : Store μ) :
    (sayLines clause = [] ∧
        sayHook.run clause store = (.error (.usage "say" "say <words...>"), store)) ∨
      (sayLines clause ≠ [] ∧
        sayHook.run clause store = (.ok .done, store.emit (sayLines clause))) := by
  simp only [sayHook]
  cases hlines : sayLines clause with
  | nil => exact .inl ⟨rfl, rfl⟩
  | cons line rest => exact .inr ⟨List.cons_ne_nil _ _, rfl⟩

namespace Verb

def word : Verb → String
  | .relation r => r.word
  | .say => "say"

def truth? : Verb → Option Bool
  | .relation r => some r.truth
  | .say => none

def kind? : Verb → Option FactKind
  | .relation r => some r.kind
  | .say => none

def all : List Verb := Relation.all.map .relation ++ [.say]

/-- The verb with the given word. -/
def ofWord? (word : String) : Option Verb := all.find? fun verb => verb.word == word

/-- The text shown for a word that is no verb. -/
def unknownMessage (word : String) : String := "Unknown verb: " ++ word

/-- The relationship word a verb is, unless it is `say`. -/
def toRelation : Verb → Except Error Relation
  | .relation r => .ok r
  | .say => .error (.unknownHook "'say' is not a relationship verb")

/-- The hook of a verb whose relationship words give their facts the kinds `kinds`. -/
def hookWithKinds {μ : Type} (kinds : Relation → FactKind) : Verb → Hook μ
  | .relation r => r.hookWithKind (kinds r)
  | .say => sayHook

def hook {μ : Type} : Verb → Hook μ := hookWithKinds Relation.kind

/-- The standard hook that goes by a word. -/
def hookOfWord {μ : Type} (word : String) : Except Error (Hook μ) :=
  match ofWord? word with
  | some verb => .ok verb.hook
  | none => .error (.unknownHook word)

/-- Each verb is found under its word. -/
theorem ofWord?_word (verb : Verb) : ofWord? verb.word = some verb := by
  rcases verb with (_ | _ | _ | _) | _ <;> decide

/-- Each hook goes by the word of its verb. -/
theorem verb_hookWithKinds {μ : Type} (kinds : Relation → FactKind) (verb : Verb) :
    (hookWithKinds kinds verb : Hook μ).verb = verb.word := by
  rcases verb with _ | _ <;> rfl

end Verb

namespace Vocabulary

variable {μ : Type}

/-- The standard words, with the kinds `kinds` for the facts of the relationship words. -/
def standardWithKinds (kinds : Relation → FactKind) : Vocabulary μ :=
  (Verb.all.map (Verb.hookWithKinds kinds)).foldl add empty

def standard : Vocabulary μ := standardWithKinds Relation.kind

/-- The hook of a word in the standard vocabulary is that of the verb with this word. -/
theorem hook?_standardWithKinds (kinds : Relation → FactKind) (word : String) :
    (standardWithKinds kinds : Vocabulary μ).hook? word =
      (Verb.ofWord? word).map (Verb.hookWithKinds kinds) := by
  have hverb : ∀ verb : Verb, (verb.hookWithKinds kinds : Hook μ).verb = verb.word :=
    Verb.verb_hookWithKinds kinds
  simp only [standardWithKinds, Verb.all, Relation.all, List.map_cons, List.map_nil,
    List.cons_append, List.nil_append, List.foldl_cons, List.foldl_nil, add, hook?_define, hverb,
    Verb.ofWord?, List.find?_cons, Verb.word, Relation.word]
  by_cases his : "is" = word
  · subst his; rfl
  by_cases hisnt : "isnt" = word
  · subst hisnt; rfl
  by_cases hhas : "has" = word
  · subst hhas; rfl
  by_cases hhasnt : "hasnt" = word
  · subst hhasnt; rfl
  by_cases hsay : "say" = word
  · subst hsay; rfl
  simp [his, hisnt, hhas, hhasnt, hsay, beq_false_of_ne his, beq_false_of_ne hisnt,
    beq_false_of_ne hhas, beq_false_of_ne hhasnt, beq_false_of_ne hsay, hook?, empty]

end Vocabulary
end RelationLang
