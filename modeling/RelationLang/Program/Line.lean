import RelationLang.Text.Blank
import RelationLang.Text.Words

/-!
# Source lines

A program is read line by line. All that matters of a line is whether it is indented and which
words it holds.

**Input.**  A text, cut at every line feed U+000A.

**Algorithm.**  A line is trimmed of blanks at both ends and cut into words at spaces. It is
indented when its first character is a blank. Lines with nothing but blanks are left out. A
carriage return before the line feed is a trailing blank, so both conventions for line ends read
the same.

**Results.**
* `ofChars?_eq_none_iff`: exactly the lines with nothing but blanks are left out.
* `lines_append`: a line feed between two texts separates their lines.
-/

namespace RelationLang
namespace Program

open Text

/-- What the layout of a program sees of a line. -/
structure Line where
  /-- Whether the line starts with a blank. -/
  indented : Bool
  words : List String
deriving DecidableEq, Repr, Inhabited

namespace Line

/-- Reads one line; a line with nothing but blanks is none. -/
def ofChars? (raw : List Char) : Option Line :=
  if trim raw = [] then none
  else some { indented := raw.head?.any isBlank, words := splitWords (trim raw) }

/-- The words of the line with single spaces between them. -/
def text (line : Line) : String := unwords line.words

/-- Exactly the lines with nothing but blanks are left out. -/
theorem ofChars?_eq_none_iff {raw : List Char} :
    ofChars? raw = none ↔ ∀ c ∈ raw, isBlank c = true := by
  rw [← trim_eq_nil_iff]
  by_cases h : trim raw = [] <;> simp [ofChars?, h]

end Line

def linesOfChars (cs : List Char) : List Line := (cs.splitOn '\n').filterMap Line.ofChars?

def lines (source : String) : List Line := linesOfChars source.toList

/-- A line feed between two texts separates their lines. -/
theorem lines_append (a b : String) : lines (a ++ "\n" ++ b) = lines a ++ lines b := by
  have h : (a ++ "\n" ++ b).toList = a.toList ++ '\n' :: b.toList := by simp
  simp [lines, linesOfChars, h, List.splitOn_append_cons_self]

end Program
end RelationLang
