import RelationLang.Json.Basic

/-!
# JSON as indented text

Every item of an array and every field of an object stands on a line of its own, two spaces
further in than its container. An empty container is a pair of brackets.
-/

namespace RelationLang
namespace Json

/-- The lower-case hexadecimal digits of a number, filled up with zeros to four places. -/
def hex4 (n : Nat) : List Char :=
  [n / 4096 % 16, n / 256 % 16, n / 16 % 16, n % 16].map Nat.digitChar

/-- A character as it is written inside quotation marks. -/
def escape (c : Char) : List Char :=
  if c = '"' then ['\\', '"']
  else if c = '\\' then ['\\', '\\']
  else if c = '\n' then ['\\', 'n']
  else if c = '\r' then ['\\', 'r']
  else if c = '\t' then ['\\', 't']
  else if c.toNat = 8 then ['\\', 'b']
  else if c.toNat = 12 then ['\\', 'f']
  else if c.toNat < 32 then ['\\', 'u'] ++ hex4 c.toNat
  else [c]

/-- A text in quotation marks. -/
def quote (text : String) : String :=
  String.ofList (['"'] ++ text.toList.flatMap escape ++ ['"'])

/-- A line end followed by the indentation of a depth. -/
def newline (depth : Nat) : String := String.ofList ('\n' :: List.replicate (2 * depth) ' ')

/-- Written parts between brackets, one on each line. -/
def enclose (opening closing : String) (depth : Nat) (parts : List String) : String :=
  match parts with
  | [] => opening ++ closing
  | parts =>
    opening ++ newline (depth + 1) ++ (("," ++ newline (depth + 1)).intercalate parts) ++
      newline depth ++ closing

mutual

/-- A value whose container has the given depth. -/
def prettyAt (depth : Nat) : Json → String
  | .null => "null"
  | .bool true => "true"
  | .bool false => "false"
  | .number value => value.text
  | .string value => quote value
  | .array items => enclose "[" "]" depth (prettyItems (depth + 1) items)
  | .object fields => enclose "\x7b" "\x7d" depth (prettyFields (depth + 1) fields)
termination_by structural value => value

def prettyItems (depth : Nat) : List Json → List String
  | [] => []
  | item :: rest => prettyAt depth item :: prettyItems depth rest
termination_by structural items => items

def prettyFields (depth : Nat) : List (String × Json) → List String
  | [] => []
  | field :: rest => prettyField depth field :: prettyFields depth rest
termination_by structural fields => fields

def prettyField (depth : Nat) : String × Json → String
  | (name, value) => quote name ++ ": " ++ prettyAt depth value
termination_by structural field => field

end

/-- The value as indented text. -/
def pretty (value : Json) : String := prettyAt 0 value

end Json
end RelationLang
