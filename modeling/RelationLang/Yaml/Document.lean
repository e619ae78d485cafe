import RelationLang.Yaml.Collection
import RelationLang.Yaml.Lexer

/-!
# YAML documents

A text holds one document: nothing, a node, or a node behind the line `---`.

**Algorithm.**  Anything left over of the tokens, and any character that is not printable, makes
the text unreadable.

**Results.**
* `document?_unprintable`: a text with an unprintable character is refused.
-/

namespace RelationLang
namespace Yaml

/-- The characters that may stand in a document. -/
def isPrintable (c : Char) : Bool :=
  let n := c.toNat
  n == 0x09 || n == 0x0A || n == 0x0D || (0x20 ≤ n && n ≤ 0x7E) || n == 0x85 ||
    (0xA0 ≤ n && n ≤ 0xFFFD) || 0x10000 ≤ n

/-- The node of the tokens of a document, unless something is left of them. End markers may follow
the node. -/
def ofTokens? (tokens : List Token) : Option Node :=
  let read : Option (Node × List Token) :=
    match tokens with
    | [] => some (.missing, [])
    | .documentStart :: [] => some (.missing, [])
    | .documentStart :: .documentEnd :: rest => some (.missing, rest)
    | .documentStart :: rest => firstNode? rest
    | tokens => firstNode? tokens
  match read with
  | none => none
  | some (node, rest) => if rest.all (· == .documentEnd) then some node else none

/-- Reads a document; a document with nothing in it is a missing node. -/
def document? (text : String) : Option Node :=
  if text.toList.all isPrintable then (tokens? text.toList).bind ofTokens? else none

/-- A text with an unprintable character is refused. -/
theorem document?_unprintable {text : String} {c : Char} (h : c ∈ text.toList)
    (hc : isPrintable c = false) : document? text = none := by
  unfold document?
  rw [if_neg]
  intro all
  exact Bool.false_ne_true (hc ▸ List.all_eq_true.1 all c h)

end Yaml
end RelationLang
