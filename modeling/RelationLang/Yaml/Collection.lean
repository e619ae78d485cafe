import RelationLang.Yaml.Node
import RelationLang.Yaml.Token

/-!
# The nodes of tokens

**Algorithm.**  Recursive descent on the tokens. A key, a value and an item may be missing before
the tokens that can follow them. In a sequence in brackets a missing key takes the token that
stands in its place with it, be it a colon, a comma or the closing bracket. A node of a collection
in brackets is a scalar or another collection in brackets. Of three calls in a branch at least one
uses up a token, so a bound of three times the number of tokens on the depth of calls is never
reached.

**Results.**
* `firstNode?_scalar`: a scalar is a node.
-/

namespace RelationLang
namespace Yaml

namespace Token

/-- What can follow a part of a mapping outside brackets. -/
def endsBlockPart : Token → Bool
  | .key | .value | .blockEnd => true
  | _ => false

/-- What can follow an item outside brackets. -/
def endsBlockItem : Token → Bool
  | .dash | .blockEnd => true
  | _ => false

/-- What can follow an item directly below a key. -/
def endsItemBelow : Token → Bool
  | .dash | .key | .value | .blockEnd => true
  | _ => false

/-- What can follow a marked key of a mapping in brackets. -/
def endsKey : Token → Bool
  | .value | .comma | .closeMapping => true
  | _ => false

/-- What can follow an entry of a mapping in brackets. -/
def endsEntry : Token → Bool
  | .comma | .closeMapping => true
  | _ => false

/-- What can follow a marked key of a sequence in brackets. -/
def endsPairKey : Token → Bool
  | .value | .comma | .closeSequence => true
  | _ => false

/-- What can follow an item of a sequence in brackets. -/
def endsItem : Token → Bool
  | .comma | .closeSequence => true
  | _ => false

end Token

mutual

/-- A node: `block` allows collections outside brackets, and `below` items without a start of
their own, directly below their key. The first argument bounds the depth of calls. -/
def node? : Nat → Bool → Bool → List Token → Option (Node × List Token)
  | 0, _, _, _ => none
  | bound + 1, block, below, tokens =>
    match tokens with
    | .scalar quoted text :: rest => some (.scalar quoted text, rest)
    | .openSequence :: rest => flowItems? bound rest []
    | .openMapping :: rest => flowEntries? bound rest []
    | .blockSequence :: rest => if block then blockItems? bound rest [] else none
    | .blockMapping :: rest => if block then blockEntries? bound rest [] else none
    | .dash :: _ => if below then itemsBelow? bound tokens [] else none
    | _ => none

/-- A node that is missing before some tokens. -/
def part? : Nat → Bool → Bool → (Token → Bool) → List Token → Option (Node × List Token)
  | 0, _, _, _, _ => none
  | bound + 1, block, below, ends, tokens =>
    if tokens.head?.any ends then some (.missing, tokens) else node? bound block below tokens

/-- The value after a key, which is missing too if no value follows. -/
def value? : Nat → Bool → (Token → Bool) → List Token → Option (Node × List Token)
  | 0, _, _, _ => none
  | bound + 1, block, ends, tokens =>
    match tokens with
    | .value :: rest => part? bound block block ends rest
    | _ => some (.missing, tokens)

/-- An item of a sequence in brackets. A key with its value is a mapping of its own. -/
def flowItem? : Nat → List Token → Option (Node × List Token)
  | 0, _ => none
  | bound + 1, tokens =>
    match tokens with
    | .key :: rest =>
      let key :=
        if rest.head?.any Token.endsPairKey then some (.missing, rest.tail)
        else node? bound false false rest
      match key with
      | none => none
      | some (key, rest) =>
        (value? bound false Token.endsItem rest).map fun (value, rest) =>
          (.mapping [(key, value)], rest)
    | _ => node? bound false false tokens

/-- The items of a sequence in brackets after those already read. -/
def flowItems? : Nat → List Token → List Node → Option (Node × List Token)
  | 0, _, _ => none
  | bound + 1, tokens, items =>
    match tokens with
    | .closeSequence :: rest => some (.sequence items.reverse, rest)
    | _ =>
      match flowItem? bound tokens with
      | some (item, .comma :: rest) => flowItems? bound rest (item :: items)
      | some (item, .closeSequence :: rest) => some (.sequence (item :: items).reverse, rest)
      | _ => none

/-- An entry of a mapping in brackets. What is not marked as a key has no value. -/
def flowEntry? : Nat → List Token → Option ((Node × Node) × List Token)
  | 0, _ => none
  | bound + 1, tokens =>
    match tokens with
    | .key :: rest =>
      match part? bound false false Token.endsKey rest with
      | none => none
      | some (key, rest) =>
        (value? bound false Token.endsEntry rest).map fun (value, rest) => ((key, value), rest)
    | _ => (node? bound false false tokens).map fun (key, rest) => ((key, .missing), rest)

/-- The entries of a mapping in brackets after those already read. -/
def flowEntries? : Nat → List Token → List (Node × Node) → Option (Node × List Token)
  | 0, _, _ => none
  | bound + 1, tokens, entries =>
    match tokens with
    | .closeMapping :: rest => some (.mapping entries.reverse, rest)
    | _ =>
      match flowEntry? bound tokens with
      | some (entry, .comma :: rest) => flowEntries? bound rest (entry :: entries)
      | some (entry, .closeMapping :: rest) => some (.mapping (entry :: entries).reverse, rest)
      | _ => none

/-- The items of a sequence outside brackets after those already read. -/
def blockItems? : Nat → List Token → List Node → Option (Node × List Token)
  | 0, _, _ => none
  | bound + 1, tokens, items =>
    match tokens with
    | .blockEnd :: rest => some (.sequence items.reverse, rest)
    | .dash :: rest =>
      match part? bound true false Token.endsBlockItem rest with
      | some (item, rest) => blockItems? bound rest (item :: items)
      | none => none
    | _ => none

/-- The items directly below a key after those already read. -/
def itemsBelow? : Nat → List Token → List Node → Option (Node × List Token)
  | 0, _, _ => none
  | bound + 1, tokens, items =>
    match tokens with
    | .dash :: rest =>
      match part? bound true false Token.endsItemBelow rest with
      | some (item, rest) => itemsBelow? bound rest (item :: items)
      | none => none
    | _ => some (.sequence items.reverse, tokens)

/-- The entries of a mapping outside brackets after those already read. -/
def blockEntries? : Nat → List Token → List (Node × Node) → Option (Node × List Token)
  | 0, _, _ => none
  | bound + 1, tokens, entries =>
    match tokens with
    | .blockEnd :: rest => some (.mapping entries.reverse, rest)
    | .key :: rest =>
      match part? bound true true Token.endsBlockPart rest with
      | none => none
      | some (key, rest) =>
        match value? bound true Token.endsBlockPart rest with
        | some (value, rest) => blockEntries? bound rest ((key, value) :: entries)
        | none => none
    | _ => none

end

/-- The first node of some tokens, with the tokens behind it. -/
def firstNode? (tokens : List Token) : Option (Node × List Token) :=
  node? (3 * tokens.length + 3) true false tokens

theorem firstNode?_scalar (quoted : Bool) (text : String) (rest : List Token) :
    firstNode? (.scalar quoted text :: rest) = some (.scalar quoted text, rest) := by
  simp [firstNode?, node?]

end Yaml
end RelationLang
