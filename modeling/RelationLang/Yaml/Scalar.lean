import RelationLang.Number.Numeral
import RelationLang.Yaml.Cursor

/-!
# YAML scalars

Reading a scalar. A reader answers with the text and the place behind it.

**Algorithm.**  A plain scalar ends before a colon that is followed by a blank, before a number
sign that follows a blank, at the end of the document and, between brackets, before a comma or a
bracket; outside brackets also where a later line begins left of a margin. In single quotes
a doubled quote stands for one quote. In double quotes a backslash begins an escape. One line
break within a scalar becomes a space; of several the first is left out.

**Results.**
* `Joint.text_of_blanks`: within a line the blanks of a scalar stay as they are.
* `Joint.text_of_break`: a single line break is a space.
-/

namespace RelationLang
namespace Yaml

/-- What stands between two pieces of a scalar. -/
inductive Joint where
  /-- Blanks of one line, the last one first. -/
  | blanks (blanks : List Char)
  /-- Line breaks: the first one, unless it is escaped, and the others, the last one first. -/
  | breaks (first : Option Char) (others : List Char)
deriving DecidableEq, Repr

namespace Joint

def empty : Joint := .blanks []

def broken : Joint → Bool
  | .blanks _ => false
  | .breaks _ _ => true

/-- One more blank, which does not count behind a line break. -/
def addBlank (c : Char) : Joint → Joint
  | .blanks cs => .blanks (c :: cs)
  | joint => joint

/-- One more line break; blanks in front of it do not count. The breaks of plain text are all
the same, and only the separators of lines and of paragraphs stay what they are. -/
def addBreak (c : Char) (joint : Joint) : Joint :=
  let c := if c.toNat < 0x2028 then '\n' else c
  match joint with
  | .blanks _ => .breaks (some c) []
  | .breaks first others => .breaks first (c :: others)

def text : Joint → List Char
  | .blanks cs => cs.reverse
  | .breaks (some '\n') [] => [' ']
  | .breaks (some '\n') others => others.reverse
  | .breaks first others => first.toList ++ others.reverse

/-- Within a line the blanks of a scalar stay as they are. -/
theorem text_of_blanks (cs : List Char) :
    (cs.foldl (fun (joint : Joint) c => joint.addBlank c) empty).text = cs := by
  suffices h : ∀ seen : List Char,
      (cs.foldl (fun (joint : Joint) c => joint.addBlank c) (.blanks seen)).text =
        seen.reverse ++ cs from h []
  induction cs with
  | nil => intro seen; simp [text]
  | cons c cs ih => intro seen; exact (ih (c :: seen)).trans (by simp)

theorem text_of_break (cs : List Char) : (Joint.addBreak '\n' (.blanks cs)).text = [' '] := rfl

end Joint

/-- The brackets and the comma of flow collections. -/
def isFlowMark (c : Char) : Bool := c ∈ [',', '[', ']', '{', '}']

/-- The characters with which no plain scalar begins. -/
def isIndicator (c : Char) : Bool :=
  c ∈ ['-', '?', ':', ',', '[', ']', '{', '}', '#', '&', '*', '!', '|', '>', '\'', '"', '%', '@',
    '`']

/-- Whether a plain scalar can begin here. A dash can begin one if no blank follows it; outside
brackets the same holds of a question mark and a colon. -/
def plainStarts (flow : Bool) : List Char → Bool
  | [] => false
  | c :: cs =>
    (!isIndicator c && !isGap c) || (c == '-' && !atGap cs) ||
      (!flow && (c == '?' || c == ':') && !atGap cs)

/-- The text of a plain scalar after a joint, the place behind it, and whether a line break is
directly in front of that place. On a later line a tab left of the margin is refused, and between
brackets a colon directly before a bracket, a comma or a question mark. -/
def scanPlain (flow : Bool) (margin : Nat) :
    Joint → Place → List Char → Option (List Char × Cursor × Bool)
  | joint, p, [] => some ([], ⟨p, []⟩, joint.broken)
  | joint, p, '\r' :: '\n' :: cs => scanPlain flow margin (joint.addBreak '\n') p.down cs
  | joint, p, c :: cs =>
    let ended := some ([], (⟨p, c :: cs⟩ : Cursor), joint.broken)
    if isBreak c then scanPlain flow margin (joint.addBreak c) p.down cs
    else if isGap c then
      if c = '\t' ∧ joint.broken ∧ p.column < margin then none
      else scanPlain flow margin (joint.addBlank c) (p.right c) cs
    else if joint ≠ .empty ∧ c = '#' then ended
    else if joint.broken ∧ (p.atBoundary (c :: cs) ∨ (!flow ∧ p.column < margin)) then ended
    else if flow ∧ c = ':' ∧ cs.head?.any (fun d => isFlowMark d || d == '?') then none
    else if c = ':' ∧ atGap cs then ended
    else if flow ∧ isFlowMark c then ended
    else (scanPlain flow margin .empty (p.right c) cs).map fun (scanned, place) =>
      (joint.text ++ c :: scanned, place)

/-- What follows an opening single quote. -/
def scanSingle : Joint → Place → List Char → Option (List Char × Cursor)
  | _, _, [] => none
  | joint, p, '\r' :: '\n' :: cs => scanSingle (joint.addBreak '\n') p.down cs
  | joint, p, '\'' :: '\'' :: cs =>
    (scanSingle .empty (p.rights ['\'', '\'']) cs).map fun (scanned, place) =>
      (joint.text ++ '\'' :: scanned, place)
  | joint, p, '\'' :: cs => some (joint.text, ⟨p.right '\'', cs⟩)
  | joint, p, c :: cs =>
    if isBreak c then scanSingle (joint.addBreak c) p.down cs
    else if isGap c then scanSingle (joint.addBlank c) (p.right c) cs
    else if p.atBoundary (c :: cs) then none
    else (scanSingle .empty (p.right c) cs).map fun (scanned, place) =>
      (joint.text ++ c :: scanned, place)

/-- The characters that stand for themselves or for one other character after a backslash. -/
def shortEscapes : List (Char × Nat) :=
  [('0', 0x00), ('a', 0x07), ('b', 0x08), ('t', 0x09), ('\t', 0x09), ('n', 0x0A), ('v', 0x0B),
    ('f', 0x0C), ('r', 0x0D), ('e', 0x1B), (' ', 0x20), ('"', 0x22), ('/', 0x2F), ('\\', 0x5C),
    ('N', 0x85), ('_', 0xA0), ('L', 0x2028), ('P', 0x2029)]

/-- The number of hexadecimal digits after the letter of a long escape. -/
def longEscape? (c : Char) : Option Nat :=
  if c = 'x' then some 2 else if c = 'u' then some 4 else if c = 'U' then some 8 else none

/-- The character with a code point, unless there is none. -/
def charOf? (n : Nat) : Option Char := if n.isValidChar then some (Char.ofNat n) else none

/-- Reads the escape after a backslash: the character it stands for and the number of characters
it takes up. -/
def escape? : List Char → Option (Char × Nat)
  | [] => none
  | c :: cs =>
    match shortEscapes.lookup c with
    | some code => some (Char.ofNat code, 1)
    | none =>
      match longEscape? c with
      | some width =>
        if (cs.take width).length = width then
          ((Number.ofDigits? 16 (cs.take width)).bind charOf?).map (·, width + 1)
        else none
      | none => none

/-- What follows an opening double quote. A line break after a backslash stands for nothing. A
step uses up at least one character, so as many steps as there are characters are enough. -/
def scanDouble : Nat → Joint → Place → List Char → Option (List Char × Cursor)
  | 0, _, _, _ => none
  | _ + 1, _, _, [] => none
  | steps + 1, joint, p, '\r' :: '\n' :: cs => scanDouble steps (joint.addBreak '\n') p.down cs
  | _ + 1, joint, p, '"' :: cs => some (joint.text, ⟨p.right '"', cs⟩)
  | steps + 1, joint, p, '\\' :: '\r' :: '\n' :: cs =>
    (scanDouble steps (.breaks none []) p.down cs).map fun (scanned, place) =>
      (joint.text ++ scanned, place)
  | steps + 1, joint, p, '\\' :: cs =>
    if cs.head?.any isBreak then
      (scanDouble steps (.breaks none []) p.down (cs.drop 1)).map fun (scanned, place) =>
        (joint.text ++ scanned, place)
    else
      (escape? cs).bind fun (c, width) =>
        (scanDouble steps .empty (p.rights ('\\' :: cs.take width)) (cs.drop width)).map
          fun (scanned, place) => (joint.text ++ c :: scanned, place)
  | steps + 1, joint, p, c :: cs =>
    if isBreak c then scanDouble steps (joint.addBreak c) p.down cs
    else if isGap c then scanDouble steps (joint.addBlank c) (p.right c) cs
    else if p.atBoundary (c :: cs) then none
    else (scanDouble steps .empty (p.right c) cs).map fun (scanned, place) =>
      (joint.text ++ c :: scanned, place)

end Yaml
end RelationLang
