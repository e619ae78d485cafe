import RelationLang.Number.Decimal

/-!
# JSON values

The values of JSON, with the fields of an object in the order in which they are written.
-/

namespace RelationLang

open Number

/-- A JSON value. -/
inductive Json where
  | null
  | bool (value : Bool)
  | number (value : Decimal)
  | string (value : String)
  | array (items : List Json)
  | object (fields : List (String × Json))
deriving Repr, Inhabited

namespace Json

def nat (n : Nat) : Json := .number (.ofNat n)

def strings (texts : List String) : Json := .array (texts.map .string)

end Json
end RelationLang
