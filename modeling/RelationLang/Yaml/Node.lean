/-!
# YAML nodes

The nodes of a small part of YAML: scalars, sequences and mappings, without tags and anchors.
-/

namespace RelationLang
namespace Yaml

/-- A node of a document. -/
inductive Node where
  /-- A scalar, with its text; `quoted` tells quoted scalars from plain ones. -/
  | scalar (quoted : Bool) (text : String)
  | sequence (items : List Node)
  | mapping (entries : List (Node × Node))
deriving Repr, Inhabited

namespace Node

/-- The plain scalar without text, which stands where a node is missing. -/
def missing : Node := .scalar false ""

def text? : Node → Option String
  | .scalar _ text => some text
  | _ => none

def plainText? : Node → Option String
  | .scalar false text => some text
  | _ => none

end Node
end Yaml
end RelationLang
