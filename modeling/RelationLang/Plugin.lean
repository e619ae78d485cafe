import RelationLang.Graph.Completion
import RelationLang.Vocabulary

/-!
# Ready-made plugin hooks

Hooks to observe runs with, to make them fail, and to build small languages from. They can be put
under any reserved word.
-/

namespace RelationLang
namespace Plugin

open Program

/-- What recording hooks remember: every clause they received, under the number of the hook,
oldest first. -/
abbrev Recordings := List (Nat × Clause)

/-- The clauses received by the recording hook with a number. -/
def Recordings.received (recordings : Recordings) (slot : Nat) : List Clause :=
  (recordings.filter fun recording => recording.1 == slot).map (·.2)

/-- Remembers what it receives and hands back the given tokens. -/
def recording (verb : String) (slot : Nat) (answer : List Token) : Hook Recordings where
  verb := verb
  run clause store :=
    (.ok (.ofTokens answer), { store with memory := store.memory ++ [(slot, clause)] })

section

variable {μ : Type}

/-- Fails with an error. -/
def raising (verb : String) (error : Error) : Hook μ where
  verb := verb
  run _ store := (.error error, store)

/-- Fails with a message of its own. -/
def failing (verb message : String) : Hook μ := raising verb (.failed verb message)

/-- Answers with an outcome that depends on the line and block alone. -/
def answering (verb : String) (answer : Clause → Outcome) : Hook μ where
  verb := verb
  run clause store := (.ok (answer clause), store)

/-- Ends the line. -/
def stopping (verb : String) : Hook μ := answering verb fun _ => .done

/-- Hands back the line as it is. -/
def echoing (verb : String) : Hook μ := answering verb fun clause => .proceed clause.tokens

/-- Hands back the given tokens. -/
def giving (verb : String) (tokens : List Token) : Hook μ :=
  answering verb fun _ => .proceed tokens

/-- Hands back the line without its last token. -/
def droppingLast (verb : String) : Hook μ :=
  answering verb fun clause => .ofTokens clause.tokens.dropLast

/-- Hands back what follows the first occurrence of its verb. -/
def passingRest (verb : String) : Hook μ :=
  answering verb fun clause => .ofTokens ((clause.tokens.dropWhile (· != verb)).drop 1)

/-- Hands back the lines of the block as tokens. -/
def passingBlock (verb : String) : Hook μ :=
  answering verb fun clause => .ofTokens (clause.block.getD [])

/-- Hands back the words of the block. -/
def passingBlockWords (verb : String) : Hook μ :=
  answering verb fun clause => .ofTokens (allWords (clause.block.getD []))

/-- Changes the graph in a way that depends on the line, and ends the line. -/
def changing (verb : String) (change : List Token → Graph → Graph) : Hook μ where
  verb := verb
  run clause store := (.ok .done, store.mapGraph (change clause.tokens))

/-- The pair of the first and the last token; an empty line gives empty names. -/
def ends (tokens : List Token) : Pair := ⟨tokens.head?.getD "", tokens.getLast?.getD ""⟩

/-- Stores the pair of the first and the last token. -/
def pairing (verb : String) : Hook μ := changing verb fun tokens g => g.connect (ends tokens)

/-- Records a fact on the pair of the first and the last token. -/
def stating (verb : String) (truth : Bool) (kind : FactKind) : Hook μ :=
  changing verb fun tokens g => (g.record ⟨ends tokens, truth, kind⟩).2

/-- Runs a completion pass. -/
def completing (verb : String) : Hook μ := changing verb fun _ g => g.complete.2

def clearing (verb : String) : Hook μ := changing verb fun _ _ => .empty

end

end Plugin
end RelationLang
