/-!
# YAML tokens

The pieces of which the nodes of a document are made. Some of them stand for a mark of the text,
others only for the columns of its lines.
-/

namespace RelationLang
namespace Yaml

/-- A piece of a document. -/
inductive Token where
  | documentStart
  | documentEnd
  | blockSequence
  | blockMapping
  | blockEnd
  | openSequence
  | closeSequence
  | openMapping
  | closeMapping
  | comma
  | dash
  | key
  | value
  /-- A scalar, with its text; `quoted` tells quoted scalars from plain ones. -/
  | scalar (quoted : Bool) (text : String)
deriving DecidableEq, Repr

end Yaml
end RelationLang
