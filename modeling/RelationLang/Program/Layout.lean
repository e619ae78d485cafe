import RelationLang.Program.Line
import RelationLang.Program.Statement

/-!
# Layout

Statements are made from lines by their indentation alone.

**Algorithm.**  An unindented line is held back until it is known what follows. Indented lines
join the block of the line that is held back; one that comes before any unindented line is a
boxed statement of its own. The next unindented line, or the end of the program, releases what is
held back: a plain statement if it has gathered no block, otherwise a header and its block.

**Results.**
* `ofLines_append`: a part that begins with an unindented line is laid out independently of what
  comes before it.
-/

namespace RelationLang
namespace Program

/-- An unindented line waiting for its block, with the block lines seen so far. -/
structure Heading where
  words : List Token
  block : List Token
deriving DecidableEq, Repr

namespace Heading

/-- The statements of a heading whose block is complete. -/
def release (heading : Heading) : List Statement :=
  match heading.block with
  | [] => [.plain heading.words]
  | block => Statement.headed heading.words block

/-- The heading with one more line in its block. -/
def gather (heading : Heading) (line : Line) : Heading :=
  { heading with block := heading.block ++ [line.text] }

end Heading

/-- The statements of the lines that follow an open heading. -/
def ofLinesUnder (heading : Heading) : List Line → List Statement
  | [] => heading.release
  | line :: rest =>
    if line.indented then ofLinesUnder (heading.gather line) rest
    else heading.release ++ ofLinesUnder ⟨line.words, []⟩ rest

def ofLines : List Line → List Statement
  | [] => []
  | line :: rest =>
    if line.indented then .boxed line.text :: ofLines rest
    else ofLinesUnder ⟨line.words, []⟩ rest

def statements (source : String) : List Statement := ofLines (lines source)

/-- An open heading is released before a part that begins with an unindented line. -/
theorem ofLinesUnder_append (heading : Heading) (as : List Line) {bs : List Line}
    (h : ∀ line ∈ bs.head?, line.indented = false) :
    ofLinesUnder heading (as ++ bs) = ofLinesUnder heading as ++ ofLines bs := by
  induction as generalizing heading with
  | nil =>
    cases bs with
    | nil => simp [ofLinesUnder, ofLines]
    | cons b bs =>
      have hb : b.indented = false := h b (by simp)
      simp [ofLinesUnder, ofLines, hb]
  | cons a as ih => by_cases ha : a.indented <;> simp [ofLinesUnder, ha, ih]

/-- A part that begins with an unindented line is laid out independently of what comes before
it. -/
theorem ofLines_append (as : List Line) {bs : List Line}
    (h : ∀ line ∈ bs.head?, line.indented = false) :
    ofLines (as ++ bs) = ofLines as ++ ofLines bs := by
  induction as with
  | nil => simp [ofLines]
  | cons a as ih =>
    by_cases ha : a.indented <;> simp [ofLines, ha, ih, ofLinesUnder_append _ _ h]

end Program
end RelationLang
