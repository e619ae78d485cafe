/-!
# Words of a text

A word is a maximal run of characters other than the space U+0020. Tabs and other blanks do not
separate words.

**Results.**
* `splitWords_append_space`: a space between two texts separates their words.
-/

namespace RelationLang
namespace Text

/-- The nonempty pieces between spaces. -/
def splitWords (cs : List Char) : List String :=
  ((cs.splitOn ' ').filter fun piece => !piece.isEmpty).map String.ofList

def words (text : String) : List String := splitWords text.toList

/-- The words written one after the other with single spaces between them. -/
def unwords (ws : List String) : String := " ".intercalate ws

/-- A name holds more than one word when it contains a space. -/
def hasSpace (name : String) : Bool := name.toList.contains ' '

/-- A space between two texts separates their words. -/
theorem splitWords_append_space (as bs : List Char) :
    splitWords (as ++ ' ' :: bs) = splitWords as ++ splitWords bs := by
  simp [splitWords, List.splitOn_append_cons_self]

end Text
end RelationLang
