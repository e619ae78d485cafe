/-!
# Places in a text

A place is known by its line, its column and the number of bytes in front of it on the line.

**Algorithm.**  Blanks, comments and line breaks in front of a token are skipped. Outside
brackets a line break lets a key begin, and where a key may begin a tab is no blank. At the start
of a line a byte order mark is a blank, and takes up a column like one.
-/

namespace RelationLang
namespace Yaml

/-- The blanks within a line: space and tab. -/
def isGap (c : Char) : Bool := c == ' ' || c == '\t'

/-- The characters that end a line. -/
def isBreak (c : Char) : Bool := c.toNat ∈ [0x0A, 0x0D, 0x85, 0x2028, 0x2029]

/-- A blank, a line break or the end of the text comes next. -/
def atGap : List Char → Bool
  | [] => true
  | c :: _ => isGap c || isBreak c

/-- A place in a text. -/
structure Place where
  line : Nat
  /-- The number of characters in front on the line. -/
  column : Nat
  /-- The number of bytes in front on the line. -/
  bytes : Nat
deriving DecidableEq, Repr

namespace Place

def start : Place := ⟨0, 0, 0⟩

def right (p : Place) (c : Char) : Place := ⟨p.line, p.column + 1, p.bytes + c.utf8Size⟩

/-- The place behind some characters of a line. -/
def rights (p : Place) (cs : List Char) : Place := cs.foldl right p

def down (p : Place) : Place := ⟨p.line + 1, 0, 0⟩

/-- Three marks alone at the start of a line begin or end a document. -/
def atMarker (mark : Char) (p : Place) (cs : List Char) : Bool :=
  p.column == 0 && cs.take 3 == [mark, mark, mark] && atGap (cs.drop 3)

/-- A document begins or ends here. -/
def atBoundary (p : Place) (cs : List Char) : Bool := p.atMarker '-' cs || p.atMarker '.' cs

end Place

/-- A place with what follows it. -/
structure Cursor extends Place where
  rest : List Char
deriving Repr

/-- The next token from a place on, and whether a key may begin there; `flow` tells that brackets
are open and `comment` that a comment has begun. -/
def seek (flow : Bool) : Bool → Bool → Place → List Char → Cursor × Bool
  | _, keys, p, [] => (⟨p, []⟩, keys)
  | comment, keys, p, c :: cs =>
    if isBreak c then seek flow false (keys || !flow) p.down cs
    else if comment || c == ' ' || (c == '\t' && (flow || !keys)) ||
        (p.column == 0 && c == '\uFEFF') then
      seek flow comment keys (p.right c) cs
    else if c == '#' then seek flow true keys (p.right c) cs
    else (⟨p, c :: cs⟩, keys)

end Yaml
end RelationLang
